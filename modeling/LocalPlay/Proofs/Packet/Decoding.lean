import LocalPlay.Packet.Wire

/-! The wire format, read exactly. A datagram is refused for being too short or for the length that it declares,
and for nothing else; any other is taken apart into a header and a payload that write the same bytes again. -/
namespace LocalPlay

namespace Header
variable {datagram : Bytes}

/-- The kind that a datagram names is that of a fragment. -/
def NamesFragment (datagram : Bytes) : Prop :=
  LittleEndian.field datagram 8 2 = PacketKind.fragment.code.toNat

instance (datagram : Bytes) : Decidable (NamesFragment datagram) :=
  inferInstanceAs (Decidable (_ = _))

/-- Bytes of the header with which a datagram has to begin. -/
def lengthIn (datagram : Bytes) : Nat := if NamesFragment datagram then fragmentHeaderLength else headerLength

theorem kindCode_read (datagram : Bytes) :
    (read datagram).kindCode = UInt16.ofNat (LittleEndian.field datagram 8 2) := by
  simp only [read]
  split <;> rfl

theorem payloadSize_read (datagram : Bytes) :
    (read datagram).payloadSize.toNat = LittleEndian.field datagram 24 4 := by
  rw [← LittleEndian.toNat_field_word32]
  simp only [read]
  split <;> rfl

theorem isFragment_read : (read datagram).isFragment = true ↔ NamesFragment datagram := by
  rw [isFragment_iff, kindCode_read, ← UInt16.toNat_inj, LittleEndian.toNat_field_word16, NamesFragment]

theorem encodedLength_read (datagram : Bytes) : (read datagram).encodedLength = lengthIn datagram := by
  simp only [encodedLength, isFragment_read, lengthIn]

open LittleEndian in
/-- A header that is read writes the bytes that it was read from. -/
theorem encode_read (h : lengthIn datagram ≤ datagram.length) :
    (read datagram).encode = datagram.take (lengthIn datagram) := by
  have hk : (read datagram).isFragment = true ↔ NamesFragment datagram := isFragment_read
  simp only [isFragment, kindCode_read] at hk
  by_cases hf : NamesFragment datagram
  · rw [lengthIn, if_pos hf] at h ⊢
    simp only [fragmentHeaderLength, headerLength, fragmentFieldsLength] at h ⊢
    simp only [encode, read, isFragment, hk.mpr hf, reduceIte, toNat_field_byte, toNat_field_word16,
      toNat_field_word32, toNat_field_word64]
    -- the fields lie next to each other
    simp (disch := omega) only [encode_field, List.drop_zero, ← List.append_assoc, ← List.take_add, Nat.reduceAdd]
  · have hk := Bool.eq_false_iff.mpr fun hkind => hf (hk.mp hkind)
    rw [lengthIn, if_neg hf] at h ⊢
    simp only [headerLength] at h ⊢
    simp only [encode, read, isFragment, hk, Bool.false_eq_true, reduceIte, toNat_field_byte, toNat_field_word16,
      toNat_field_word32, toNat_field_word64]
    simp (disch := omega) only [encode_field, List.drop_zero, List.append_nil, ← List.take_add, Nat.reduceAdd]

/-- The datagram does not hold the header that it has to begin with. -/
def Truncated (datagram : Bytes) : Prop :=
  datagram.length < headerLength ∨ NamesFragment datagram ∧ datagram.length < fragmentHeaderLength

theorem length_lt_lengthIn_iff : datagram.length < lengthIn datagram ↔ Truncated datagram := by
  simp only [lengthIn, Truncated]
  split
  · simp [*, headerLength, fragmentHeaderLength, fragmentFieldsLength]
    omega
  · simp [*]

theorem lengthIn_le_of_not_truncated (h : ¬ Truncated datagram) : lengthIn datagram ≤ datagram.length :=
  Nat.not_lt.mp fun hl => h (length_lt_lengthIn_iff.mp hl)

end Header

namespace Packet
open Header
variable {datagram : Bytes} {p : Packet}

/-- What a datagram is taken for, by its length and two of its fields. -/
theorem deserialize_eq (datagram : Bytes) :
    deserialize datagram =
      if datagram.length < lengthIn datagram then .error .tooShort
      else if datagram.length - lengthIn datagram = LittleEndian.field datagram 24 4 then
        .ok ⟨read datagram, datagram.drop (lengthIn datagram)⟩
      else .error (.lengthMismatch (read datagram).payloadSize (datagram.length - lengthIn datagram)) := by
  simp only [deserialize, decode, encodedLength_read, payloadSize_read, List.length_drop]
  split
  · rfl
  split <;> rfl

theorem deserialize_eq_tooShort_iff : deserialize datagram = .error .tooShort ↔ Truncated datagram := by
  rw [deserialize_eq, ← length_lt_lengthIn_iff]
  split
  · simp [*]
  split <;> simp [*]

theorem deserialize_eq_lengthMismatch_iff (h : ¬ Truncated datagram) {declared : UInt32} {actual : Nat} :
    deserialize datagram = .error (.lengthMismatch declared actual) ↔
      declared.toNat = LittleEndian.field datagram 24 4 ∧ actual = datagram.length - lengthIn datagram ∧
        actual ≠ declared.toNat := by
  rw [deserialize_eq, if_neg (Nat.not_lt.mpr (lengthIn_le_of_not_truncated h)), ← payloadSize_read]
  split
  · simp
    omega
  · rename_i hne
    simp only [Except.error.injEq, ProtocolError.lengthMismatch.injEq, UInt32.toNat_inj]
    constructor
    · rintro ⟨rfl, rfl⟩
      exact ⟨rfl, rfl, hne⟩
    · rintro ⟨rfl, rfl, -⟩
      exact ⟨rfl, rfl⟩

theorem deserialize_eq_ok_iff :
    deserialize datagram = .ok p ↔
      ¬ Truncated datagram ∧ datagram.length - lengthIn datagram = LittleEndian.field datagram 24 4 ∧
        p = ⟨read datagram, datagram.drop (lengthIn datagram)⟩ := by
  rw [deserialize_eq, ← length_lt_lengthIn_iff]
  split
  · simp [*]
  split <;> simp [*, eq_comm]

/-- A packet that is read writes the datagram that it was read from. -/
theorem encode_append_of_deserialize (h : deserialize datagram = .ok p) : p.header.encode ++ p.payload = datagram := by
  obtain ⟨ht, -, rfl⟩ := deserialize_eq_ok_iff.mp h
  rw [encode_read (lengthIn_le_of_not_truncated ht), List.take_append_drop]

theorem payloadSize_of_deserialize (h : deserialize datagram = .ok p) :
    p.header.payloadSize.toNat = p.payload.length := by
  obtain ⟨-, hl, rfl⟩ := deserialize_eq_ok_iff.mp h
  rw [payloadSize_read, ← hl, List.length_drop]

/-- What is received can be sent on as it is, if it is not too long. -/
theorem serialize_of_deserialize (h : deserialize datagram = .ok p) (hl : p.payload.length ≤ maxPayloadLength) :
    p.serialize = .ok datagram :=
  serialize_eq_ok_iff.mpr ⟨payloadSize_of_deserialize h, hl, encode_append_of_deserialize h⟩

theorem encodedLength_le (h : p.payload.length ≤ maxPayloadLength) : p.encodedLength ≤ maxDatagramLength := by
  have hh : p.header.encodedLength ≤ fragmentHeaderLength := by
    rw [Header.encodedLength]
    split <;> decide
  exact Nat.add_le_add hh h

/-- Every datagram is refused for being too short, or else for the payload size in its header, or else is read as a
packet that writes it. A packet is sent exactly if it declares its length and is not too long, and it is then read
back, but for the fragment fields of a packet that is no fragment. -/
theorem wire_exact :
    (∀ datagram : Bytes,
      (deserialize datagram = .error .tooShort ↔ Truncated datagram) ∧
      (¬ Truncated datagram →
        let rest := datagram.length - lengthIn datagram
        (∀ declared actual, deserialize datagram = .error (.lengthMismatch declared actual) ↔
          declared.toNat = LittleEndian.field datagram 24 4 ∧ actual = rest ∧ actual ≠ declared.toNat) ∧
        (rest = LittleEndian.field datagram 24 4 →
          ∃ p, deserialize datagram = .ok p ∧ p.header.encode ++ p.payload = datagram ∧
            (p.payload.length ≤ maxPayloadLength → p.serialize = .ok datagram)))) ∧
    ∀ p : Packet,
      ((∃ datagram, p.serialize = .ok datagram) ↔
        p.header.payloadSize.toNat = p.payload.length ∧ p.payload.length ≤ maxPayloadLength) ∧
      ∀ datagram, p.serialize = .ok datagram →
        datagram.length = p.encodedLength ∧ datagram.length ≤ maxDatagramLength ∧
          deserialize datagram = .ok (if p.header.isFragment then p
            else { p with header := { p.header with fragmentIndex := 0, fragmentCount := 0 } }) := by
  constructor
  · intro datagram
    refine ⟨deserialize_eq_tooShort_iff, fun ht => ⟨fun _ _ => deserialize_eq_lengthMismatch_iff ht, ?_⟩⟩
    intro hr
    have hd : deserialize datagram = .ok ⟨read datagram, datagram.drop (lengthIn datagram)⟩ :=
      deserialize_eq_ok_iff.mpr ⟨ht, hr, rfl⟩
    exact ⟨_, hd, encode_append_of_deserialize hd, serialize_of_deserialize hd⟩
  · intro p
    constructor
    · simp only [serialize_eq_ok_iff, ← and_assoc, exists_and_left, exists_eq', and_true]
    · intro datagram hs
      obtain ⟨-, hm, hb⟩ := serialize_eq_ok_iff.mp hs
      have hl : datagram.length = p.encodedLength := by rw [← hb, List.length_append, length_encode, encodedLength]
      refine ⟨hl, hl ▸ encodedLength_le hm, ?_⟩
      rw [deserialize_of_serialize hs, asSent]
      split <;> rfl

end Packet
end LocalPlay
