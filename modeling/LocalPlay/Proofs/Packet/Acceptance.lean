import LocalPlay.Proofs.Packet.Decoding
import LocalPlay.Proofs.Packet.Sealed

/-! What a receiver accepts is what a sender can build: the datagrams that are read and pass the check are those of
sealed packets under a proper header. A datagram settles the payload, and all of the header that is sent and not
computed from the payload. -/
namespace LocalPlay

namespace Header
variable {h h' : Header}

/-- A header that a sender may give to a packet. The length and the checksum are left to sealing. -/
structure Proper (h : Header) : Prop where
  magic : h.magic = protocolMagic
  version : h.version = protocolVersion
  kind : h.kind? ≠ none
  index_lt : h.isFragment → h.fragmentIndex < h.fragmentCount

/-- The headers agree in all that is sent and not computed from the payload. -/
structure Agrees (h h' : Header) : Prop where
  magic : h.magic = h'.magic
  version : h.version = h'.version
  route : h.toRoute = h'.toRoute
  kindCode : h.kindCode = h'.kindCode
  sequence : h.sequence = h'.sequence
  timestamp : h.timestamp = h'.timestamp
  fragment : h.isFragment → h.fragmentIndex = h'.fragmentIndex ∧ h.fragmentCount = h'.fragmentCount

theorem Agrees.isFragment_eq (ha : h.Agrees h') : h.isFragment = h'.isFragment := by
  rw [isFragment, isFragment, ha.kindCode]

theorem agrees_asSent (h : Header) : h.Agrees h.asSent := by
  by_cases hf : h.isFragment
  · simp only [asSent, hf, if_true]
    exact ⟨rfl, rfl, rfl, rfl, rfl, rfl, fun _ => ⟨rfl, rfl⟩⟩
  · simp only [asSent, hf]
    exact ⟨rfl, rfl, rfl, rfl, rfl, rfl, fun hf' => absurd hf' hf⟩

/-- Nothing else of a header is on the wire but the length and the checksum. -/
theorem Agrees.encode_eq (ha : h.Agrees h') (hs : h.payloadSize = h'.payloadSize) (hc : h.checksum = h'.checksum) :
    h.encode = h'.encode := by
  have hf := ha.isFragment_eq
  simp only [encode, ha.magic, ha.version, ha.route, ha.kindCode, ha.sequence, ha.timestamp, hs, hc, hf]
  split
  · rw [(ha.fragment (by rwa [hf])).1, (ha.fragment (by rwa [hf])).2]
  · rfl

end Header

namespace Packet
variable {datagram : Bytes} {p : Packet} {h : Header} {payload : Bytes}

theorem check_eq_ok_iff_proper :
    p.check = .ok () ↔
      p.header.Proper ∧ p.header.payloadSize.toNat ≤ maxPayloadLength ∧
        p.header.checksum = Checksum.crc32 p.payload := by
  rw [check_eq_ok_iff]
  constructor
  · rintro ⟨hm, hv, hs, hk, hi, hc⟩
    exact ⟨⟨hm, hv, hk, hi⟩, hs, hc⟩
  · rintro ⟨⟨hm, hv, hk, hi⟩, hs, hc⟩
    exact ⟨hm, hv, hs, hk, hi, hc⟩

/-- A packet is sealed exactly if it declares its length, as far as 32 bits go, and bears its checksum. -/
theorem sealed_eq_self_iff :
    p.sealed = p ↔
      UInt32.ofNat (min p.payload.length (UInt32.size - 1)) = p.header.payloadSize ∧
        Checksum.crc32 p.payload = p.header.checksum := by
  constructor
  · intro hp
    exact ⟨congrArg (·.header.payloadSize) hp, congrArg (·.header.checksum) hp⟩
  · rintro ⟨hs, hc⟩
    rw [sealed, hs, hc]

theorem payload_length_le_of_valid (hd : deserialize datagram = .ok p) (hc : p.check = .ok ()) :
    p.payload.length ≤ maxPayloadLength := by
  rw [← payloadSize_of_deserialize hd]
  exact (check_eq_ok_iff_proper.mp hc).2.1

/-- The check does not compare the declared length with the payload, but reading does: what passes both is
sealed. -/
theorem sealed_of_valid (hd : deserialize datagram = .ok p) (hc : p.check = .ok ()) : p.sealed = p := by
  have hs : p.sealed.header.payloadSize = p.header.payloadSize := by
    rw [← UInt32.toNat_inj, payloadSize_sealed (payload_length_le_of_valid hd hc), payloadSize_of_deserialize hd]
  exact sealed_eq_self_iff.mpr ⟨hs, (check_eq_ok_iff_proper.mp hc).2.2.symm⟩

theorem length_le_of_valid (hd : deserialize datagram = .ok p) (hc : p.check = .ok ()) :
    datagram.length ≤ maxDatagramLength := by
  rw [← encode_append_of_deserialize hd, List.length_append, Header.length_encode]
  exact encodedLength_le (payload_length_le_of_valid hd hc)

/-- What is built is read as a packet that agrees with it. -/
theorem deserialize_of_built (hb : (sealed ⟨h, payload⟩).serialize = .ok datagram) :
    deserialize datagram = .ok ⟨(sealed ⟨h, payload⟩).header.asSent, payload⟩ :=
  deserialize_of_serialize hb

theorem check_of_built (hp : h.Proper) (hb : (sealed ⟨h, payload⟩).serialize = .ok datagram) :
    check ⟨(sealed ⟨h, payload⟩).header.asSent, payload⟩ = .ok () := by
  obtain ⟨hs, hl, -⟩ := serialize_eq_ok_iff.mp hb
  have ha := (sealed ⟨h, payload⟩).header.agrees_asSent
  have hf := ha.isFragment_eq
  refine check_eq_ok_iff_proper.mpr ⟨⟨ha.magic ▸ hp.magic, ha.version ▸ hp.version, ?_, ?_⟩, ?_, ?_⟩
  · rw [Header.kind?, ← ha.kindCode]
    exact hp.kind
  · intro hf'
    obtain ⟨hi, hn⟩ := ha.fragment (hf ▸ hf')
    rw [← hi, ← hn]
    exact hp.index_lt (hf ▸ hf')
  · rw [Header.payloadSize_asSent, hs]
    exact hl
  · simp only [Header.asSent]
    split <;> rfl

/-- A valid datagram is built from the payload that it is read with, under each header that agrees with the one it
is read with, and from nothing else. -/
theorem built_iff_agrees (hd : deserialize datagram = .ok p) (hc : p.check = .ok ()) :
    (sealed ⟨h, payload⟩).serialize = .ok datagram ↔ payload = p.payload ∧ h.Agrees p.header := by
  constructor
  · intro hb
    obtain rfl := Except.ok.inj ((deserialize_of_built hb).symm.trans hd)
    have ha := (sealed ⟨h, payload⟩).header.agrees_asSent
    exact ⟨rfl, ha.magic, ha.version, ha.route, ha.kindCode, ha.sequence, ha.timestamp, ha.fragment⟩
  · rintro ⟨rfl, ha⟩
    have hl := payload_length_le_of_valid hd hc
    obtain ⟨hs, hk⟩ := sealed_eq_self_iff.mp (sealed_of_valid hd hc)
    have ha' : (sealed ⟨h, p.payload⟩).header.Agrees p.header :=
      ⟨ha.magic, ha.version, ha.route, ha.kindCode, ha.sequence, ha.timestamp, ha.fragment⟩
    refine serialize_eq_ok_iff.mpr ⟨payloadSize_sealed hl, hl, ?_⟩
    rw [payload_sealed, ha'.encode_eq hs hk]
    exact encode_append_of_deserialize hd

/-- A datagram is read as a valid packet exactly if it is the one of a sealed packet with a proper header and a
payload that is not too long. The packet is sealed as it is read, the datagram is not too long, and it is built from
that payload alone, under the headers that agree with that of the packet alone. -/
theorem accepted_iff_built (datagram : Bytes) :
    ((∃ p, deserialize datagram = .ok p ∧ p.check = .ok ()) ↔
      ∃ h payload, h.Proper ∧ payload.length ≤ maxPayloadLength ∧
        (sealed ⟨h, payload⟩).serialize = .ok datagram) ∧
    ∀ p, deserialize datagram = .ok p → p.check = .ok () →
      p.sealed = p ∧ datagram.length ≤ maxDatagramLength ∧
        ∀ h payload, (sealed ⟨h, payload⟩).serialize = .ok datagram ↔ payload = p.payload ∧ h.Agrees p.header := by
  refine ⟨⟨?_, ?_⟩, ?_⟩
  · rintro ⟨p, hd, hc⟩
    have hl := payload_length_le_of_valid hd hc
    refine ⟨p.header, p.payload, (check_eq_ok_iff_proper.mp hc).1, hl, ?_⟩
    exact (sealed_of_valid hd hc).symm ▸ serialize_of_deserialize hd hl
  · rintro ⟨h, payload, hp, -, hb⟩
    exact ⟨_, deserialize_of_built hb, check_of_built hp hb⟩
  · intro p hd hc
    exact ⟨sealed_of_valid hd hc, length_le_of_valid hd hc, fun _ _ => built_iff_agrees hd hc⟩

/-- A fragment that a sender built from a header with a wrong length and a wrong checksum. -/
theorem accepted_iff_built_careless :
    let p := Fragment.packet ⟨⟨7, 1, 2⟩, 3⟩ 5 2 1 [1, 2]
    deserialize p.datagram = .ok p ∧ p.check = .ok () ∧ p.sealed = p ∧ p.datagram.length ≤ maxDatagramLength ∧
      (sealed ⟨{ p.header with payloadSize := 9, checksum := 0 }, [1, 2]⟩).serialize = .ok p.datagram ∧
      ∃ h payload, h.Proper ∧ payload.length ≤ maxPayloadLength ∧
        (sealed ⟨h, payload⟩).serialize = .ok p.datagram := by
  intro p
  have hd : deserialize p.datagram = .ok p := Fragment.deserialize_packet _ _ _ _ (by decide)
  have hc : p.check = .ok () := check_eq_ok_iff.mpr (by decide +kernel)
  obtain ⟨hiff, hall⟩ := accepted_iff_built p.datagram
  obtain ⟨hs, hl, hb⟩ := hall p hd hc
  exact ⟨hd, hc, hs, hl, (hb _ _).mpr ⟨rfl, rfl, rfl, rfl, rfl, rfl, rfl, fun _ => ⟨rfl, rfl⟩⟩, hiff.mp ⟨p, hd, hc⟩⟩

end Packet
end LocalPlay
