import Mathlib.Data.List.GetD
import Mathlib.Data.Nat.Bitwise
import Mathlib.Logic.Function.Iterate
import LocalPlay.Checksum

/-! What a checksum detects. The register takes in one bit after the other, it is linear in what it takes, and a shift
loses nothing of it. So byte strings of one length whose differing bits lie within 32 consecutive ones never have the same
checksum: their difference leaves a register that is not zero, and no number of shifts makes it zero. -/
namespace LocalPlay

namespace Bytes

/-- Bit `n` of a byte string: bit `n % 8` of byte `n / 8`, the lowest one being bit 0. -/
def bit (bytes : Bytes) (n : Nat) : Bool := (bytes.getD (n / 8) 0).toNat.testBit (n % 8)

/-- Byte strings of one length that differ, and only in bits that lie within so many consecutive ones. -/
structure DifferWithin (width : Nat) (a b : Bytes) : Prop where
  length_eq : b.length = a.length
  differ : ∃ n, bit a n ≠ bit b n
  within : ∃ first, ∀ n, bit a n ≠ bit b n → first ≤ n ∧ n < first + width

def byteBits (byte : UInt8) : List Bool := (List.range 8).map byte.toNat.testBit

/-- All bits of a byte string, those of each byte from the lowest on. -/
def bits (bytes : Bytes) : List Bool := bytes.flatMap byteBits

@[simp] theorem length_byteBits (byte : UInt8) : (byteBits byte).length = 8 := by simp [byteBits]

theorem bits_cons (byte : UInt8) (rest : Bytes) : bits (byte :: rest) = byteBits byte ++ bits rest := rfl

theorem length_bits (bytes : Bytes) : (bits bytes).length = 8 * bytes.length := by
  induction bytes with
  | nil => rfl
  | cons byte rest ih =>
    rw [bits_cons, List.length_append, length_byteBits, ih, List.length_cons]
    omega

theorem getD_bits (bytes : Bytes) (n : Nat) : (bits bytes).getD n false = bit bytes n := by
  induction bytes generalizing n with
  | nil => simp [bits, bit]
  | cons byte rest ih =>
    rw [bits_cons]
    by_cases hn : n < 8
    · rw [List.getD_append _ _ _ _ (by simpa using hn)]
      simp [bit, byteBits, hn, Nat.div_eq_of_lt hn, Nat.mod_eq_of_lt hn]
    · obtain ⟨m, rfl⟩ := Nat.exists_eq_add_of_le (Nat.not_lt.mp hn)
      rw [List.getD_append_right _ _ _ _ (by simp), length_byteBits, Nat.add_sub_cancel_left, ih]
      simp [bit, Nat.add_div_left]

/-- Behind the end all bits are zero. -/
theorem bit_of_le {bytes : Bytes} {n : Nat} (h : 8 * bytes.length ≤ n) : bit bytes n = false := by
  rw [← getD_bits, List.getD_eq_default _ _ (by rwa [length_bits])]

end Bytes

namespace Checksum
open Bytes
variable {a b : Bytes} {xs ys : List Bool} {r : UInt32}

theorem and_one_eq_one_iff : r &&& 1 = 1 ↔ r.toNat % 2 = 1 := by
  rw [← UInt32.toNat_inj, UInt32.toNat_and, UInt32.toNat_one, Nat.and_one_is_mod]

theorem shiftBit_eq (r : UInt32) : shiftBit r = (r >>> 1) ^^^ if r.toNat % 2 = 1 then 0xEDB88320 else 0 := by
  simp only [shiftBit, and_one_eq_one_iff]
  split
  · rfl
  · rw [UInt32.xor_zero]

theorem shiftBit_xor (r s : UInt32) : shiftBit (r ^^^ s) = shiftBit r ^^^ shiftBit s := by
  have hpoly : (if (r ^^^ s).toNat % 2 = 1 then 0xEDB88320 else 0 : UInt32) =
      (if r.toNat % 2 = 1 then 0xEDB88320 else 0) ^^^ if s.toNat % 2 = 1 then 0xEDB88320 else 0 := by
    rw [UInt32.toNat_xor, Nat.xor_mod_two_eq]
    rcases Nat.mod_two_eq_zero_or_one r.toNat with hr | hr <;>
      rcases Nat.mod_two_eq_zero_or_one s.toNat with hs | hs <;> simp [Nat.add_mod, hr, hs]
  rw [shiftBit_eq, shiftBit_eq r, shiftBit_eq s, hpoly, UInt32.shiftRight_xor]
  ac_rfl

theorem toNat_shiftRight_one (r : UInt32) : (r >>> 1).toNat = r.toNat / 2 := by
  rw [UInt32.toNat_shiftRight]
  exact Nat.shiftRight_eq_div_pow r.toNat 1

theorem toNat_shiftLeft_one (r : UInt32) : (r <<< 1).toNat = 2 * r.toNat % 2 ^ 32 := by
  rw [UInt32.toNat_shiftLeft]
  change r.toNat <<< 1 % 2 ^ 32 = _
  rw [Nat.shiftLeft_eq, Nat.mul_comm]

/-- The polynomial has the highest bit, which a register that was shifted down has not. -/
theorem shiftBit_eq_zero_iff : shiftBit r = 0 ↔ r = 0 := by
  constructor
  · intro h
    rw [shiftBit_eq, UInt32.xor_eq_zero_iff, ← UInt32.toNat_inj, toNat_shiftRight_one] at h
    apply UInt32.toNat_inj.mp
    have hlt := r.toNat_lt
    have hzero : (0 : UInt32).toNat = 0 := rfl
    have hpoly : (0xEDB88320 : UInt32).toNat = 3988292384 := rfl
    split at h <;> omega
  · rintro rfl
    rfl

theorem shiftBit_iterate_eq_zero_iff (n : Nat) : shiftBit^[n] r = 0 ↔ r = 0 := by
  induction n generalizing r with
  | zero => rfl
  | succ n ih => rw [Function.iterate_succ_apply, ih, shiftBit_eq_zero_iff]

/-- A shift takes back a shift in the other direction that loses no bit. -/
theorem shiftBit_shiftLeft (h : r.toNat < 2 ^ 31) : shiftBit (r <<< 1) = r := by
  have hl : (r <<< 1).toNat = 2 * r.toNat := by
    rw [toNat_shiftLeft_one]
    omega
  rw [shiftBit_eq, hl, if_neg (by omega), UInt32.xor_zero, ← UInt32.toNat_inj, toNat_shiftRight_one, hl]
  omega

/-- A bit as the lowest one of a register. -/
def lowest (bit : Bool) : UInt32 := if bit then 1 else 0

/-- Take one bit into the register. -/
def shiftIn (register : UInt32) (bit : Bool) : UInt32 := shiftBit (register ^^^ lowest bit)

theorem shiftIn_xor (r s : UInt32) (x y : Bool) : shiftIn (r ^^^ s) (x ^^ y) = shiftIn r x ^^^ shiftIn s y := by
  have hlow : lowest (x ^^ y) = lowest x ^^^ lowest y := by cases x <;> cases y <;> rfl
  rw [shiftIn, shiftIn, shiftIn, ← shiftBit_xor, hlow]
  congr 1
  ac_rfl

/-- Taking in bits is linear. -/
theorem foldl_shiftIn_xor (h : xs.length = ys.length) (r s : UInt32) :
    (List.zipWith xor xs ys).foldl shiftIn (r ^^^ s) = xs.foldl shiftIn r ^^^ ys.foldl shiftIn s := by
  induction xs generalizing ys r s with
  | nil =>
    obtain rfl := List.eq_nil_of_length_eq_zero h.symm
    rfl
  | cons x xs ih =>
    rcases ys with _ | ⟨y, ys⟩
    · simp at h
    · rw [List.zipWith_cons_cons, List.foldl_cons, List.foldl_cons, List.foldl_cons, shiftIn_xor, ih (Nat.succ.inj h)]

/-- The register that has these bits, from the lowest on. -/
def word : List Bool → UInt32
  | [] => 0
  | bit :: rest => lowest bit ^^^ (word rest <<< 1)

theorem toNat_word_lt (h : xs.length ≤ 32) : (word xs).toNat < 2 ^ xs.length := by
  induction xs with
  | nil => decide
  | cons x rest ih =>
    have hrest := ih (Nat.le_of_succ_le h)
    rw [word, UInt32.toNat_xor, toNat_shiftLeft_one]
    apply Nat.xor_lt_two_pow
    · have hx : (lowest x).toNat ≤ 1 := by cases x <;> decide
      exact Nat.lt_of_le_of_lt hx (Nat.one_lt_two_pow (Nat.succ_ne_zero _))
    · have hmod := Nat.mod_le (2 * (word rest).toNat) (2 ^ 32)
      rw [List.length_cons, Nat.pow_succ]
      omega

theorem toNat_word_lt_of_cons {x : Bool} (h : (x :: xs).length ≤ 32) : (word xs).toNat < 2 ^ 31 :=
  Nat.lt_of_lt_of_le (toNat_word_lt (Nat.le_of_succ_le h)) (Nat.pow_le_pow_right (by decide) (Nat.le_of_succ_le_succ h))

/-- To take in 32 bits or less is to add them all and then to shift as often. -/
theorem foldl_shiftIn (h : xs.length ≤ 32) (r : UInt32) :
    xs.foldl shiftIn r = shiftBit^[xs.length] (r ^^^ word xs) := by
  induction xs generalizing r with
  | nil => exact UInt32.xor_zero.symm
  | cons x rest ih =>
    rw [List.foldl_cons, ih (Nat.le_of_succ_le h), List.length_cons, Function.iterate_succ_apply, word,
      ← UInt32.xor_assoc, shiftBit_xor (r ^^^ lowest x), shiftBit_shiftLeft (toNat_word_lt_of_cons h)]
    rfl

theorem eq_false_of_word_eq_zero (h : xs.length ≤ 32) (hz : word xs = 0) : ∀ x ∈ xs, x = false := by
  induction xs with
  | nil => simp
  | cons x rest ih =>
    rw [word, UInt32.xor_eq_zero_iff] at hz
    cases x with
    | true =>
      have hn := congrArg UInt32.toNat hz
      rw [toNat_shiftLeft_one] at hn
      change 1 = _ at hn
      omega
    | false =>
      have hw := shiftBit_shiftLeft (toNat_word_lt_of_cons h)
      rw [← hz] at hw
      exact List.forall_mem_cons.mpr ⟨rfl, ih (Nat.le_of_succ_le h) hw.symm⟩

theorem foldl_shiftIn_of_false (h : ∀ x ∈ xs, x = false) (r : UInt32) : xs.foldl shiftIn r = shiftBit^[xs.length] r := by
  induction xs generalizing r with
  | nil => rfl
  | cons x rest ih =>
    obtain ⟨rfl, hr⟩ := List.forall_mem_cons.mp h
    rw [List.foldl_cons, ih hr, List.length_cons, Function.iterate_succ_apply, shiftIn, lowest, if_neg Bool.false_ne_true,
      UInt32.xor_zero]

/-- Bits of which some are set, all of these within 32 consecutive ones, do not leave the register zero. -/
theorem foldl_shiftIn_ne_zero {first : Nat} (hset : true ∈ xs)
    (hwithin : ∀ n, xs[n]? = some true → first ≤ n ∧ n < first + 32) : xs.foldl shiftIn 0 ≠ 0 := by
  have houtside : ∀ n x, xs[n]? = some x → ¬ (first ≤ n ∧ n < first + 32) → x = false := by
    rintro n (_ | _) hn hout
    · rfl
    · exact absurd (hwithin n hn) hout
  have hbefore : ∀ x ∈ xs.take first, x = false := by
    intro x hx
    obtain ⟨n, hn⟩ := List.mem_iff_getElem?.mp hx
    rw [List.getElem?_take, Option.ite_none_right_eq_some] at hn
    exact houtside n x hn.2 (by omega)
  have hbehind : ∀ x ∈ (xs.drop first).drop 32, x = false := by
    intro x hx
    obtain ⟨n, hn⟩ := List.mem_iff_getElem?.mp hx
    rw [List.getElem?_drop, List.getElem?_drop] at hn
    exact houtside _ x hn (by omega)
  have hlength : ((xs.drop first).take 32).length ≤ 32 := List.length_take_le ..
  have hsplit : xs = xs.take first ++ ((xs.drop first).take 32 ++ (xs.drop first).drop 32) := by
    rw [List.take_append_drop, List.take_append_drop]
  rw [hsplit, List.foldl_append, List.foldl_append, foldl_shiftIn_of_false hbefore, foldl_shiftIn_of_false hbehind, ne_eq,
    shiftBit_iterate_eq_zero_iff, (shiftBit_iterate_eq_zero_iff _).mpr rfl, foldl_shiftIn hlength,
    shiftBit_iterate_eq_zero_iff, UInt32.zero_xor]
  intro hz
  -- the bit that is set is none of those before, within or behind
  have hmid := eq_false_of_word_eq_zero hlength hz
  rw [hsplit, List.mem_append, List.mem_append] at hset
  rcases hset with hm | hm | hm
  · exact absurd (hbefore true hm) (by decide)
  · exact absurd (hmid true hm) (by decide)
  · exact absurd (hbehind true hm) (by decide)

theorem word_byteBits (byte : UInt8) : word (byteBits byte) = byte.toUInt32 := by
  have hall : ∀ n < 256, word (byteBits (UInt8.ofNat n)) = (UInt8.ofNat n).toUInt32 := by decide +kernel
  simpa using hall byte.toNat byte.toNat_lt

theorem absorb_eq (r : UInt32) (byte : UInt8) : absorb r byte = (byteBits byte).foldl shiftIn r := by
  rw [foldl_shiftIn (by simp), length_byteBits, word_byteBits]
  rfl

theorem crc32_eq (bytes : Bytes) : crc32 bytes = (bits bytes).foldl shiftIn 0xFFFFFFFF ^^^ 0xFFFFFFFF := by
  simp only [crc32, bits, List.foldl_flatMap, ← absorb_eq]

theorem getElem?_zipWith_bits (hl : b.length = a.length) (n : Nat) :
    (List.zipWith xor (bits a) (bits b))[n]? = some true ↔ bit a n ≠ bit b n := by
  rw [← getD_bits, ← getD_bits, List.getElem?_zipWith, List.getD_eq_getElem?_getD, List.getD_eq_getElem?_getD]
  by_cases hn : n < 8 * a.length
  · have ha : n < (bits a).length := by rwa [length_bits]
    have hb : n < (bits b).length := by rwa [length_bits, hl]
    simp [ha, hb]
  · have ha : (bits a).length ≤ n := by rwa [length_bits, ← Nat.not_lt]
    have hb : (bits b).length ≤ n := by rwa [length_bits, hl, ← Nat.not_lt]
    simp [ha, hb]

/-- A checksum tells byte strings apart that differ within 32 consecutive bits. -/
theorem crc32_ne_of_differWithin (h : DifferWithin 32 a b) : crc32 a ≠ crc32 b := by
  intro heq
  rw [crc32_eq, crc32_eq, UInt32.xor_left_inj] at heq
  have hl : (bits a).length = (bits b).length := by rw [length_bits, length_bits, h.length_eq]
  have hzero := foldl_shiftIn_xor hl 0xFFFFFFFF 0xFFFFFFFF
  rw [heq, UInt32.xor_self, UInt32.xor_self] at hzero
  obtain ⟨n, hn⟩ := h.differ
  have hset : true ∈ List.zipWith xor (bits a) (bits b) :=
    List.mem_of_getElem? ((getElem?_zipWith_bits h.length_eq n).mpr hn)
  obtain ⟨first, hwithin⟩ := h.within
  have hrange : ∀ m, (List.zipWith xor (bits a) (bits b))[m]? = some true → first ≤ m ∧ m < first + 32 :=
    fun m hm => hwithin m ((getElem?_zipWith_bits h.length_eq m).mp hm)
  exact foldl_shiftIn_ne_zero hset hrange hzero

/-- The polynomial itself, 33 bits from the first to the last, goes unnoticed. -/
example : crc32 [0x41, 0x06, 0x71, 0xDB, 0x01] = crc32 [0, 0, 0, 0, 0] := by decide +kernel

end Checksum
end LocalPlay
