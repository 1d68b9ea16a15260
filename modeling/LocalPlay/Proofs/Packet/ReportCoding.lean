import LocalPlay.Proofs.Packet.Reports
import LocalPlay.Proofs.Text.Replacement

/-! Error reports are written and read. What is written is read as it was; what is read is written again as it was if
its code is known and its text is well-formed. -/
namespace LocalPlay.ErrorReport
variable {p : Packet} {report : ErrorReport} {code : ErrorCode} {message : String} {route : Route} {stamp : UInt64}

theorem toPacket_eq_ok_iff :
    toPacket route code message stamp = .ok p ↔
      (Utf8.bytes message).length ≤ maxErrorMessageLength ∧
        p = Packet.whole .error { route with sequence := 0 } stamp (payload code message) := by
  have hfits := @length_payload_le_iff code message
  rw [← hfits]
  by_cases h : (payload code message).length ≤ maxPayloadLength
  · rw [toPacket_eq_ok h, Except.ok.injEq, eq_comm, and_iff_right h]
  · simp [toPacket, h, Nat.not_le.mp h]

/-- A payload that is not too long is written for a report exactly if it is the report's code and text. -/
theorem exists_toPacket_iff {content : Bytes} (hl : content.length ≤ maxPayloadLength) :
    (∃ q, toPacket route code message stamp = .ok q ∧ q.payload = content) ↔ payload code message = content := by
  constructor
  · rintro ⟨q, hq, rfl⟩
    obtain ⟨-, rfl⟩ := toPacket_eq_ok_iff.mp hq
    rfl
  · rintro rfl
    exact ⟨_, toPacket_eq_ok hl route stamp, rfl⟩

/-- An error packet is read if it has room for a code, as the number in its first bytes and the text of the others. -/
theorem ofPacket_eq_ok_iff (hk : p.header.kind? = some .error) :
    ofPacket p = .ok report ↔
      errorCodeLength ≤ p.payload.length ∧
        report.rawCode.toNat = LittleEndian.field p.payload 0 errorCodeLength ∧
        Utf8.ReadAs (p.payload.drop errorCodeLength) report.message.toList := by
  have hcode : report.rawCode = UInt32.ofNat (LittleEndian.field p.payload 0 errorCodeLength) ↔
      report.rawCode.toNat = LittleEndian.field p.payload 0 errorCodeLength := by
    rw [← UInt32.toNat_inj, errorCodeLength, LittleEndian.toNat_field_word32]
  have hmessage : report.message = String.ofList (Utf8.decode (p.payload.drop errorCodeLength)) ↔
      Utf8.ReadAs (p.payload.drop errorCodeLength) report.message.toList := by
    rw [Utf8.readAs_iff, ← String.toList_inj, String.toList_ofList, eq_comm]
  rw [← hcode, ← hmessage]
  by_cases hl : p.payload.length < errorCodeLength
  · simp [ofPacket_of_short hk hl, Nat.not_le.mpr hl]
  · cases report
    simp [ofPacket, hk, hl, Nat.not_lt.mp hl, eq_comm]

/-- What was read is written as it was exactly if its text is well-formed. -/
theorem payload_eq_iff (hk : p.header.kind? = some .error) (hr : ofPacket p = .ok report)
    (hc : report.code? = some code) :
    payload code report.message = p.payload ↔ Utf8.WellFormed (p.payload.drop errorCodeLength) := by
  obtain ⟨hl, hraw, htext⟩ := (ofPacket_eq_ok_iff hk).mp hr
  have hhead : LittleEndian.encode errorCodeLength code.number.toNat = p.payload.take errorCodeLength := by
    rw [← ErrorCode.ofNumber?_eq_some_iff.mp hc, hraw, LittleEndian.encode_field (by rwa [Nat.zero_add]),
      List.drop_zero]
  -- The codes agree, so that the payloads differ where the texts do.
  rw [← Utf8.encode_decode_eq_iff, Utf8.readAs_iff.mp htext, payload, hhead]
  constructor
  · intro h
    exact List.append_cancel_left (h.trans (List.take_append_drop ..).symm)
  · intro h
    rw [Utf8.bytes, h, List.take_append_drop]

/-- A report of a code and a text can be written exactly if the text is not too long, and is then read as it was. An
error packet is read exactly if it has room for a code, as the number in its first bytes and the text that the other
bytes are read as. If the code is known, then code and text are written as the same payload again exactly if those other
bytes are well-formed. -/
theorem coding_inverse :
    (∀ (route : Route) (code : ErrorCode) (message : String) (stamp : UInt64),
      ((∃ p, toPacket route code message stamp = .ok p) ↔ (Utf8.bytes message).length ≤ maxErrorMessageLength) ∧
      ∀ p, toPacket route code message stamp = .ok p →
        ∃ report, ofPacket p = .ok report ∧ report.code? = some code ∧ report.message = message) ∧
    ∀ p : Packet, p.header.kind? = some .error → p.payload.length ≤ maxPayloadLength →
      ((∃ report, ofPacket p = .ok report) ↔ errorCodeLength ≤ p.payload.length) ∧
      ∀ report, ofPacket p = .ok report →
        report.rawCode.toNat = LittleEndian.field p.payload 0 errorCodeLength ∧
        Utf8.ReadAs (p.payload.drop errorCodeLength) report.message.toList ∧
        ∀ code, report.code? = some code → ∀ (route : Route) (stamp : UInt64),
          (∃ q, toPacket route code report.message stamp = .ok q ∧ q.payload = p.payload) ↔
            Utf8.WellFormed (p.payload.drop errorCodeLength) := by
  constructor
  · intro route code message stamp
    constructor
    · simp only [toPacket_eq_ok_iff, exists_and_left, exists_eq, and_true]
    · intro p hp
      obtain ⟨-, rfl⟩ := toPacket_eq_ok_iff.mp hp
      exact ⟨_, ofPacket_whole _ stamp code message, ErrorCode.ofNumber?_number code, rfl⟩
  · intro p hk hl
    constructor
    · constructor
      · rintro ⟨report, hr⟩
        exact ((ofPacket_eq_ok_iff hk).mp hr).1
      · intro hroom
        obtain ⟨code, text, hsplit⟩ := exists_code_append hroom
        exact ⟨_, ofPacket_append hk hsplit⟩
    · intro report hr
      obtain ⟨-, hraw, htext⟩ := (ofPacket_eq_ok_iff hk).mp hr
      refine ⟨hraw, htext, ?_⟩
      intro code hc route stamp
      rw [exists_toPacket_iff hl, payload_eq_iff hk hr hc]

/-- A surrogate is read as three replacement characters, which are not written as it was; a replacement character that
was sent is. -/
theorem coding_inverse_replaced :
    let packet (text : Bytes) := Packet.whole .error ⟨⟨7, 1, 2⟩, 4⟩ 0 ([6, 0, 0, 0] ++ text)
    let back (message : String) (text : Bytes) :=
      ∃ q, toPacket ⟨7, 2, 1⟩ .timeout message 0 = .ok q ∧ q.payload = (packet text).payload
    ofPacket (packet [0xED, 0xA0, 0x80]) = .ok ⟨6, "\uFFFD\uFFFD\uFFFD"⟩ ∧
      ¬ back "\uFFFD\uFFFD\uFFFD" [0xED, 0xA0, 0x80] ∧
      ofPacket (packet [0xEF, 0xBF, 0xBD]) = .ok ⟨6, "\uFFFD"⟩ ∧ back "\uFFFD" [0xEF, 0xBF, 0xBD] := by
  intro packet back
  have hsurrogate : ofPacket (packet [0xED, 0xA0, 0x80]) = .ok ⟨6, "\uFFFD\uFFFD\uFFFD"⟩ := rfl
  have hsent : ofPacket (packet [0xEF, 0xBF, 0xBD]) = .ok ⟨6, "\uFFFD"⟩ := rfl
  obtain ⟨-, hread⟩ := coding_inverse.2 (packet [0xED, 0xA0, 0x80]) (by decide) (by decide)
  obtain ⟨-, -, hback⟩ := hread _ hsurrogate
  obtain ⟨-, hread'⟩ := coding_inverse.2 (packet [0xEF, 0xBF, 0xBD]) (by decide) (by decide)
  obtain ⟨-, -, hback'⟩ := hread' _ hsent
  refine ⟨hsurrogate, ?_, hsent, (hback' .timeout rfl ⟨7, 2, 1⟩ 0).mpr (by decide +kernel)⟩
  intro h
  exact absurd ((hback .timeout rfl ⟨7, 2, 1⟩ 0).mp h) (by decide +kernel)

end LocalPlay.ErrorReport
