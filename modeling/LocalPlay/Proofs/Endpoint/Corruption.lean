import LocalPlay.Proofs.Checksum
import LocalPlay.Proofs.Endpoint.Reception
import LocalPlay.Proofs.Packet.Sealed
import LocalPlay.Proofs.Packet.Streams

/-! Corruption on the way. A header's checksum is not that of a payload that differs, within 32 consecutive bits, from the
one it was made for. The check reports this and nothing else, and an endpoint rejects what does not pass the check. -/
namespace LocalPlay

namespace Packet
variable {p : Packet} {sent q : Bytes}

/-- The check does not look at the fields that are not sent. -/
theorem check_asSent (p : Packet) : p.asSent.check = p.check := by
  simp only [asSent, Header.asSent]
  split
  · rfl
  · rename_i hf
    simp only [check, Header.kind?, Header.isFragment] at hf ⊢
    simp only [hf, Bool.false_eq_true, false_and, if_false]

/-- A packet passes every test with a payload of another checksum, but for the last. -/
theorem check_of_other_payload (hc : p.check = .ok ()) (hq : p.header.checksum ≠ Checksum.crc32 q) :
    check { p with payload := q } = .error (.checksumMismatch p.header.checksum (Checksum.crc32 q)) := by
  obtain ⟨hm, hv, hs, hk, hi, -⟩ := check_eq_ok_iff.mp hc
  have hf : ¬ (p.header.isFragment ∧ p.header.fragmentCount ≤ p.header.fragmentIndex) := fun ⟨hf, hle⟩ =>
    UInt32.not_le.mpr (hi hf) hle
  simp only [check, hm, hv, Nat.not_lt.mpr hs, hk, hf, hq, ne_eq, not_true_eq_false, if_false, not_false_eq_true,
    if_true]

theorem checksum_ne_of_differWithin (hc : p.check = .ok ()) (hb : Bytes.DifferWithin 32 p.payload q) :
    p.header.checksum ≠ Checksum.crc32 q := by
  obtain ⟨-, -, -, -, -, hp⟩ := check_eq_ok_iff.mp hc
  rw [hp]
  exact Checksum.crc32_ne_of_differWithin hb

/-- The datagram of a packet: the one that it is sent as, or that it was read from. -/
def OnWire (p : Packet) (datagram : Bytes) : Prop := p.serialize = .ok datagram ∨ deserialize datagram = .ok p

theorem OnWire.eq (h : p.OnWire sent) : p.datagram = sent ∧ p.header.payloadSize.toNat = p.payload.length := by
  rcases h with hs | hd
  · obtain ⟨hl, -, he⟩ := serialize_eq_ok_iff.mp hs
    exact ⟨he, hl⟩
  · exact ⟨encode_append_of_deserialize hd, payloadSize_of_deserialize hd⟩

/-- Behind the header of a datagram another payload of the same length is read as well as its own. -/
theorem OnWire.deserialize_replaced (h : p.OnWire sent) (hl : q.length = p.payload.length) :
    deserialize (sent.take p.header.encodedLength ++ q) = .ok ({ p with payload := q } : Packet).asSent := by
  obtain ⟨rfl, hs⟩ := h.eq
  rw [datagram, ← Header.length_encode, List.take_left, deserialize, Header.decode_encode_append (hl.trans hs.symm)]
  rfl

end Packet

namespace Endpoint
open Packet

/-- An endpoint rejects what does not pass the check, and its table stays as it was. -/
theorem receive_of_check_error {e : Endpoint} {datagram : Bytes} {p : Packet} {cause : ProtocolError}
    (hd : deserialize datagram = .ok p) (hc : p.check = .error cause) (now : Nat) (stamp : UInt64) :
    (∃ reply, (e.receive datagram now stamp).1 = .rejected (.protocol cause) reply) ∧
      (e.receive datagram now stamp).2.table = e.table := by
  have hf : e.fault? p = some (.protocol cause) := by simp only [fault?, hc]
  simp only [receive, hd, hf, reject_eq]
  exact ⟨⟨_, rfl⟩, (e.reply_advances p.header (.protocol cause) stamp).table_eq⟩

/-- A burst of up to 32 bits in the payload of a valid packet is always noticed. The check reports that the checksum is not
that of the payload, and so does an endpoint that receives the packet's datagram with this payload, of whatever session. -/
theorem burst_rejected {p : Packet} {q : Bytes} (hc : p.check = .ok ()) (hb : Bytes.DifferWithin 32 p.payload q) :
    let cause : ProtocolError := .checksumMismatch p.header.checksum (Checksum.crc32 q)
    check { p with payload := q } = .error cause ∧ Checksum.crc32 q ≠ p.header.checksum ∧
      ∀ (e : Endpoint) (sent : Bytes) (now : Nat) (stamp : UInt64), p.OnWire sent →
        let received := e.receive (sent.take p.header.encodedLength ++ q) now stamp
        (∃ reply, received.1 = .rejected (.protocol cause) reply) ∧ received.2.table = e.table := by
  have hne := checksum_ne_of_differWithin hc hb
  have herror := check_of_other_payload hc hne
  refine ⟨herror, hne.symm, ?_⟩
  intro e sent now stamp hs
  exact receive_of_check_error (hs.deserialize_replaced hb.length_eq) ((check_asSent _).trans herror) now stamp

/-- 32 bits of five bytes, from the middle of the first to the middle of the last. -/
theorem burst_rejected_across_bytes :
    let p := whole .data ⟨⟨7, 1, 2⟩, 0⟩ 0 [0x10, 0x20, 0x30, 0x40, 0x50]
    let q : Bytes := [0xE0, 0xDF, 0xCF, 0xBF, 0x5F]
    let cause : ProtocolError := .checksumMismatch p.header.checksum (Checksum.crc32 q)
    p.check = .ok () ∧ Bytes.DifferWithin 32 p.payload q ∧ check { p with payload := q } = .error cause ∧
      ∀ (e : Endpoint) (now : Nat) (stamp : UInt64),
        let received := e.receive (p.datagram.take p.header.encodedLength ++ q) now stamp
        (∃ reply, received.1 = .rejected (.protocol cause) reply) ∧ received.2.table = e.table := by
  intro p q cause
  have hc : p.check = .ok () := check_whole ⟨⟨7, 1, 2⟩, 0⟩ 0 (by decide) (by decide)
  have hwithin : ∀ n < 40, Bytes.bit p.payload n ≠ Bytes.bit q n → 4 ≤ n ∧ n < 36 := by decide +kernel
  have hb : Bytes.DifferWithin 32 p.payload q := by
    refine ⟨rfl, ⟨4, by decide⟩, 4, ?_⟩
    intro n hn
    by_cases hl : n < 40
    · exact hwithin n hl hn
    · rw [Bytes.bit_of_le (Nat.not_lt.mp hl), Bytes.bit_of_le (Nat.not_lt.mp hl)] at hn
      exact absurd rfl hn
  have hs : p.OnWire p.datagram := .inr (deserialize_whole ⟨⟨7, 1, 2⟩, 0⟩ 0 (by decide))
  obtain ⟨hcheck, -, hreceive⟩ := burst_rejected hc hb
  exact ⟨hc, hb, hcheck, fun e now stamp => hreceive e p.datagram now stamp hs⟩

end Endpoint
end LocalPlay
