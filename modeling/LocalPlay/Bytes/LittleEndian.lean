/-! Byte strings, and numbers written as their bytes, least significant first. Writing and reading undo
each other: for a number that fits the width, and for every byte string. A word is read at the place where
it was written. -/
namespace LocalPlay

/-- A byte string. -/
abbrev Bytes := List UInt8

namespace LittleEndian

/-- The lowest `width` bytes of a number, least significant first. -/
def encode : Nat → Nat → Bytes
  | 0, _ => []
  | width + 1, n => UInt8.ofNat n :: encode width (n / 256)

/-- The number that a byte string stands for, its least significant byte first. -/
def decode : Bytes → Nat
  | [] => 0
  | b :: rest => b.toNat + 256 * decode rest

/-- The number in the `width` bytes that start at `offset`. -/
def field (bytes : Bytes) (offset width : Nat) : Nat :=
  decode ((bytes.drop offset).take width)

@[simp] theorem length_encode (width n : Nat) : (encode width n).length = width := by
  induction width generalizing n with
  | zero => rfl
  | succ width ih => simp [encode, ih]

/-- One more than the largest number of so many bytes. -/
def bound : Nat → Nat
  | 0 => 1
  | width + 1 => 256 * bound width

theorem decode_lt (bytes : Bytes) : decode bytes < bound bytes.length := by
  induction bytes with
  | nil => decide
  | cons b rest ih =>
    have hb : b.toNat < 256 := b.toNat_lt
    simp only [decode, List.length_cons, bound]
    omega

/-- A number that fits in `width` bytes reads back. -/
theorem decode_encode {width n : Nat} (h : n < bound width) : decode (encode width n) = n := by
  induction width generalizing n with
  | zero => exact (Nat.lt_one_iff.mp h).symm
  | succ width ih =>
    have hn : n / 256 < bound width := Nat.div_lt_of_lt_mul h
    have hb : (UInt8.ofNat n).toNat = n % 256 := by simp
    simp only [encode, decode, ih hn, hb]
    omega

/-- A byte string is what its own value writes. -/
theorem encode_decode (bytes : Bytes) : encode bytes.length (decode bytes) = bytes := by
  induction bytes with
  | nil => rfl
  | cons b rest ih =>
    have hb : b.toNat < 256 := b.toNat_lt
    have hq : (b.toNat + 256 * decode rest) / 256 = decode rest := by omega
    have hr : UInt8.ofNat (b.toNat + 256 * decode rest) = b := by
      apply UInt8.toNat_inj.mp
      simp
    simp only [List.length_cons, encode, decode, hq, hr, ih]

theorem bound_mono {m n : Nat} (h : m ≤ n) : bound m ≤ bound n := by
  induction h with
  | refl => exact Nat.le_refl _
  | step _ ih => exact Nat.le_trans ih (by simp only [bound]; omega)

theorem field_lt (bytes : Bytes) (offset width : Nat) : field bytes offset width < bound width :=
  Nat.lt_of_lt_of_le (decode_lt _) (bound_mono (List.length_take_le ..))

/-- A number that is read writes the bytes that it was read from. -/
theorem encode_field {bytes : Bytes} {offset width : Nat} (h : offset + width ≤ bytes.length) :
    encode width (field bytes offset width) = (bytes.drop offset).take width := by
  have hl : ((bytes.drop offset).take width).length = width := by
    rw [List.length_take, List.length_drop]
    omega
  have he := encode_decode ((bytes.drop offset).take width)
  rwa [hl] at he

/-- A field behind a written number is a field of the rest. -/
theorem field_skip {width offset : Nat} (h : width ≤ offset) (n : Nat) (rest : Bytes) (wanted : Nat) :
    field (encode width n ++ rest) offset wanted = field rest (offset - width) wanted := by
  simp [field, List.drop_append, List.drop_eq_nil_of_le, h]

/-- A number that was written in its width is read at its place. -/
theorem field_here {width n : Nat} (h : n < bound width) (rest : Bytes) :
    field (encode width n ++ rest) 0 width = n := by
  have ht : (encode width n ++ rest).take width = encode width n := by
    rw [List.take_append_of_le_length (by simp), List.take_of_length_le (by simp)]
  simp only [field, List.drop_zero, ht]
  exact decode_encode h

theorem field_byte (x : UInt8) (rest : Bytes) : field (encode 1 x.toNat ++ rest) 0 1 = x.toNat :=
  field_here x.toNat_lt rest

theorem field_word16 (x : UInt16) (rest : Bytes) : field (encode 2 x.toNat ++ rest) 0 2 = x.toNat :=
  field_here x.toNat_lt rest

theorem field_word32 (x : UInt32) (rest : Bytes) : field (encode 4 x.toNat ++ rest) 0 4 = x.toNat :=
  field_here x.toNat_lt rest

theorem field_word64 (x : UInt64) (rest : Bytes) : field (encode 8 x.toNat ++ rest) 0 8 = x.toNat :=
  field_here x.toNat_lt rest

theorem toNat_field_byte (bytes : Bytes) (offset : Nat) :
    (UInt8.ofNat (field bytes offset 1)).toNat = field bytes offset 1 :=
  UInt8.toNat_ofNat_of_lt' (field_lt bytes offset 1)

theorem toNat_field_word16 (bytes : Bytes) (offset : Nat) :
    (UInt16.ofNat (field bytes offset 2)).toNat = field bytes offset 2 :=
  UInt16.toNat_ofNat_of_lt' (field_lt bytes offset 2)

theorem toNat_field_word32 (bytes : Bytes) (offset : Nat) :
    (UInt32.ofNat (field bytes offset 4)).toNat = field bytes offset 4 :=
  UInt32.toNat_ofNat_of_lt' (field_lt bytes offset 4)

theorem toNat_field_word64 (bytes : Bytes) (offset : Nat) :
    (UInt64.ofNat (field bytes offset 8)).toNat = field bytes offset 8 :=
  UInt64.toNat_ofNat_of_lt' (field_lt bytes offset 8)

end LittleEndian
end LocalPlay
