import LocalPlay.ErrorReport
import LocalPlay.Proofs.Packet.Sealed

/-! Error reports as packets: a text is cut to the longest beginning that fits, and a report is read as it was
written. -/
namespace LocalPlay

namespace Utf8

/-- The longest beginning of a message that takes at most so many bytes. It ends between two characters. -/
structure LongestWithin (limit : Nat) (message text : String) : Prop where
  initial : text.toList <+: message.toList
  length_le : (bytes text).length ≤ limit
  longest : ∀ start : String, start.toList <+: message.toList → (bytes start).length ≤ limit →
    start.toList <+: text.toList

/-- A message that fits is not cut. -/
theorem LongestWithin.eq_of_fits {limit : Nat} {message text : String} (h : LongestWithin limit message text)
    (hm : (bytes message).length ≤ limit) : text = message :=
  String.toList_inj.mp (h.initial.eq_of_length_le (h.longest message List.prefix_rfl hm).length_le)

end Utf8

namespace ErrorReport

theorem length_payload (code : ErrorCode) (message : String) :
    (payload code message).length = errorCodeLength + (Utf8.bytes message).length := by
  simp [payload]

theorem length_payload_le_iff {code : ErrorCode} {message : String} :
    (payload code message).length ≤ maxPayloadLength ↔ (Utf8.bytes message).length ≤ maxErrorMessageLength := by
  rw [length_payload]
  exact (Nat.le_sub_iff_add_le' (by decide)).symm

/-- What is left of a text that is cut. -/
theorem longestWithin_shorten (message : String) :
    Utf8.LongestWithin maxErrorMessageLength message (shorten message) where
  initial := by
    rw [shorten, String.toList_ofList]
    exact Utf8.takeBytes_isPrefix ..
  length_le := by
    rw [shorten, Utf8.bytes, String.toList_ofList]
    exact Utf8.length_encode_takeBytes_le ..
  longest := by
    intro start hp hs
    rw [shorten, String.toList_ofList]
    exact Utf8.takeBytes_longest hp hs

/-- A text that is cut fits into one packet with its code. -/
theorem length_payload_shorten_le (code : ErrorCode) (message : String) :
    (payload code (shorten message)).length ≤ maxPayloadLength :=
  length_payload_le_iff.mpr (longestWithin_shorten message).length_le

theorem toPacket_eq_ok {code : ErrorCode} {message : String} (h : (payload code message).length ≤ maxPayloadLength)
    (route : Route) (stamp : UInt64) :
    toPacket route code message stamp =
      .ok (Packet.whole .error { route with sequence := 0 } stamp (payload code message)) := by
  simp only [toPacket, if_neg (Nat.not_lt.mpr h)]
  rfl

/-- A code and the text behind it are read from any payload that has room for a code. -/
theorem ofPacket_append {p : Packet} {code : UInt32} {text : Bytes} (hk : p.header.kind? = some .error)
    (hp : p.payload = LittleEndian.encode errorCodeLength code.toNat ++ text) :
    ofPacket p = .ok ⟨code, String.ofList (Utf8.decode text)⟩ := by
  have hl : ¬ p.payload.length < errorCodeLength := by
    rw [hp, List.length_append, LittleEndian.length_encode]
    omega
  have hr : LittleEndian.field p.payload 0 errorCodeLength = code.toNat := by
    rw [hp]
    exact LittleEndian.field_word32 code text
  have hd : p.payload.drop errorCodeLength = text := by
    rw [hp, List.drop_left' (LittleEndian.length_encode ..)]
  simp only [ofPacket, hk, hl, hr, hd, UInt32.ofNat_toNat]
  rfl

theorem ofPacket_of_short {p : Packet} (hk : p.header.kind? = some .error) (hl : p.payload.length < errorCodeLength) :
    ofPacket p = .error .reportTooShort := by
  simp only [ofPacket, hk, hl]
  rfl

/-- A report is read as it was written. -/
theorem ofPacket_whole (key : MessageKey) (stamp : UInt64) (code : ErrorCode) (message : String) :
    ofPacket (Packet.whole .error key stamp (payload code message)) = .ok ⟨code.number, message⟩ := by
  have hp : (Packet.whole .error key stamp (payload code message)).payload = payload code message := rfl
  rw [ofPacket_append (Packet.kind?_whole ..) hp, Utf8.bytes, Utf8.decode_encode, String.ofList_toList]

/-- A payload that has room for a code is a code and a text. -/
theorem exists_code_append {payload : Bytes} (h : errorCodeLength ≤ payload.length) :
    ∃ (code : UInt32) (text : Bytes), payload = LittleEndian.encode errorCodeLength code.toNat ++ text := by
  have he : LittleEndian.encode errorCodeLength (LittleEndian.field payload 0 errorCodeLength) =
      payload.take errorCodeLength :=
    LittleEndian.encode_field (by rwa [Nat.zero_add])
  refine ⟨UInt32.ofNat (LittleEndian.field payload 0 errorCodeLength), payload.drop errorCodeLength, ?_⟩
  rw [errorCodeLength] at he ⊢
  rw [LittleEndian.toNat_field_word32, he, List.take_append_drop]

end ErrorReport
end LocalPlay
