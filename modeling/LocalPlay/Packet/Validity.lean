import LocalPlay.Packet.Wire

/-! Which packets are valid. The tests come in a fixed order and the first that fails is reported: magic,
version, declared payload size, kind, fragment index, checksum. -/
namespace LocalPlay.Packet

/-- The first test that a packet fails, if any. -/
def check (p : Packet) : Except ProtocolError Unit :=
  let h := p.header
  if h.magic ≠ protocolMagic then .error (.badMagic h.magic)
  else if h.version ≠ protocolVersion then .error (.unsupportedVersion h.version)
  else if maxPayloadLength < h.payloadSize.toNat then .error (.payloadOverLimit h.payloadSize)
  else if h.kind? = none then .error (.unknownKind h.kindCode)
  else if h.isFragment ∧ h.fragmentCount ≤ h.fragmentIndex then
    .error (.badFragmentIndex h.fragmentIndex h.fragmentCount)
  else if h.checksum ≠ Checksum.crc32 p.payload then
    .error (.checksumMismatch h.checksum (Checksum.crc32 p.payload))
  else .ok ()

/-- Whether a packet passes every test. -/
def isValid (p : Packet) : Bool := p.check.isOk

/-- A packet is valid exactly if nothing is wrong with it. -/
theorem check_eq_ok_iff {p : Packet} :
    p.check = .ok () ↔
      p.header.magic = protocolMagic ∧ p.header.version = protocolVersion ∧
        p.header.payloadSize.toNat ≤ maxPayloadLength ∧ p.header.kind? ≠ none ∧
        (p.header.isFragment → p.header.fragmentIndex < p.header.fragmentCount) ∧
        p.header.checksum = Checksum.crc32 p.payload := by
  simp only [check]
  by_cases hm : p.header.magic = protocolMagic
  case neg => simp [hm]
  by_cases hv : p.header.version = protocolVersion
  case neg => simp [hm, hv]
  by_cases hs : maxPayloadLength < p.header.payloadSize.toNat
  case pos => simp [hm, hv, hs, Nat.not_le.mpr hs]
  by_cases hk : p.header.kind? = none
  case pos => simp [hm, hv, hs, hk]
  by_cases hf : p.header.isFragment ∧ p.header.fragmentCount ≤ p.header.fragmentIndex
  case pos => simp [hm, hv, hs, hk, hf, UInt32.not_lt.mpr hf.2]
  by_cases hc : p.header.checksum = Checksum.crc32 p.payload
  case neg => simp [hm, hv, hs, hk, hf, hc]
  have hi : p.header.isFragment → p.header.fragmentIndex < p.header.fragmentCount := fun h =>
    UInt32.not_le.mp fun hle => hf ⟨h, hle⟩
  simpa [hm, hv, hs, Nat.not_lt.mp hs, hk, hf, hc] using hi
end LocalPlay.Packet
