import LocalPlay.Text.Utf8

/-! Which byte strings are text: those that are cut up into the sequences of bytes that stand for characters. They are
the ones that a text is written as, and the ones that reading and writing leave as they are. -/
namespace LocalPlay.Utf8
variable {bytes : Bytes}

/-- A byte behind the first one of a character. -/
def Follows (b : UInt8) : Prop := 0x80 ≤ b ∧ b ≤ 0xBF

instance (b : UInt8) : Decidable (Follows b) := inferInstanceAs (Decidable (_ ∧ _))

/-- The bytes of one character. -/
inductive Sequence : Bytes → Prop
  | one {a : UInt8} (ha : a ≤ 0x7F) : Sequence [a]
  /-- None that fits into one byte. -/
  | two {a b : UInt8} (ha : 0xC2 ≤ a ∧ a ≤ 0xDF) (hb : Follows b) : Sequence [a, b]
  /-- None that fits into two bytes, and no surrogate. -/
  | three {a b c : UInt8} (ha : 0xE0 ≤ a ∧ a ≤ 0xEF) (hb : Follows b) (hc : Follows c)
      (hlong : a = 0xE0 → 0xA0 ≤ b) (hsurrogate : a = 0xED → b ≤ 0x9F) : Sequence [a, b, c]
  /-- None that fits into three bytes, and none above U+10FFFF. -/
  | four {a b c d : UInt8} (ha : 0xF0 ≤ a ∧ a ≤ 0xF4) (hb : Follows b) (hc : Follows c) (hd : Follows d)
      (hlong : a = 0xF0 → 0x90 ≤ b) (hrange : a = 0xF4 → b ≤ 0x8F) : Sequence [a, b, c, d]

/-- The first byte of a character is told from the ones that follow. -/
theorem Sequence.leads {a : UInt8} {rest : Bytes} (h : Sequence (a :: rest)) :
    ¬ Follows a ∧ ∀ b ∈ rest, Follows b := by
  cases h <;> grind [Follows]

theorem Sequence.first {a : UInt8} {rest : Bytes} (h : Sequence (a :: rest)) :
    a ≤ 0x7F ∨ 0xC2 ≤ a ∧ a ≤ 0xF4 := by
  cases h <;> grind

theorem Sequence.second {a b : UInt8} {rest : Bytes} (h : Sequence (a :: b :: rest)) :
    Follows b ∧ (a = 0xE0 → 0xA0 ≤ b) ∧ (a = 0xED → b ≤ 0x9F) ∧ (a = 0xF0 → 0x90 ≤ b) ∧ (a = 0xF4 → b ≤ 0x8F) := by
  cases h <;> grind

theorem Sequence.third {a b c : UInt8} {rest : Bytes} (h : Sequence (a :: b :: c :: rest)) : Follows c := by
  cases h with
  | three _ _ hc => exact hc
  | four _ _ hc => exact hc

theorem Sequence.fourth {a b c d : UInt8} {rest : Bytes} (h : Sequence (a :: b :: c :: d :: rest)) : Follows d := by
  cases h with
  | four _ _ _ hd => exact hd

theorem follows_ofNat (n : Nat) : Follows (UInt8.ofNat (n % 64 + 128)) := by
  simp only [Follows, UInt8.le_iff_toNat_le, UInt8.toNat_ofNat', UInt8.toNat_ofNat]
  omega

/-- Each character is written as such a sequence. -/
theorem sequence_utf8EncodeChar (c : Char) : Sequence (String.utf8EncodeChar c) := by
  have hv : c.toNat < 0xD800 ∨ 0xDFFF < c.toNat ∧ c.toNat < 0x110000 := c.valid
  have ht : c.val.toNat = c.toNat := rfl
  -- What a character cannot be gives the bounds on the second byte.
  generalize c.toNat = v at hv ht
  simp only [String.utf8EncodeChar, ht]
  split
  · refine .one ?_
    simp only [UInt8.le_iff_toNat_le, UInt8.toNat_ofNat', UInt8.toNat_ofNat]
    omega
  split
  · refine .two ?_ (follows_ofNat _)
    simp only [UInt8.le_iff_toNat_le, UInt8.toNat_ofNat', UInt8.toNat_ofNat]
    omega
  split
  · refine .three ?_ (follows_ofNat _) (follows_ofNat _) ?_ ?_ <;>
    · simp only [UInt8.le_iff_toNat_le, ← UInt8.toNat_inj, UInt8.toNat_ofNat', UInt8.toNat_ofNat]
      omega
  · refine .four ?_ (follows_ofNat _) (follows_ofNat _) (follows_ofNat _) ?_ ?_ <;>
    · simp only [UInt8.le_iff_toNat_le, ← UInt8.toNat_inj, UInt8.toNat_ofNat', UInt8.toNat_ofNat]
      omega

private theorem exists_char {n : Nat} (h : n < 0xD800 ∨ 0xDFFF < n ∧ n < 0x110000) :
    ∃ c : Char, c.val.toNat = n := by
  have hl : n < UInt32.size := by
    rw [UInt32.size]
    omega
  exact ⟨⟨UInt32.ofNatLT n hl, h⟩, rfl⟩

private theorem ofNat_eq {n : Nat} {b : UInt8} (h : n % 256 = b.toNat) : UInt8.ofNat n = b := by
  rw [← UInt8.toNat_inj, UInt8.toNat_ofNat']
  exact h

/-- Each such sequence is written for a character. -/
theorem Sequence.exists_utf8EncodeChar (h : Sequence bytes) :
    ∃ c : Char, String.utf8EncodeChar c = bytes := by
  -- The character has the number that the bytes make up, which the bounds on the second byte keep to its length.
  cases h with
  | @one a ha =>
    simp only [UInt8.le_iff_toNat_le, UInt8.toNat_ofNat] at ha
    obtain ⟨x, hx⟩ := exists_char (n := a.toNat) (by omega)
    refine ⟨x, ?_⟩
    simp only [String.utf8EncodeChar, hx]
    rw [if_pos (by omega), List.singleton_inj]
    exact ofNat_eq (by omega)
  | @two a b ha hb =>
    simp only [Follows, UInt8.le_iff_toNat_le, UInt8.toNat_ofNat] at ha hb
    obtain ⟨x, hx⟩ := exists_char (n := (a.toNat - 192) * 64 + (b.toNat - 128)) (by omega)
    refine ⟨x, ?_⟩
    simp only [String.utf8EncodeChar, hx]
    rw [if_neg (by omega), if_pos (by omega)]
    simp only [List.cons.injEq, and_true]
    refine ⟨ofNat_eq ?_, ofNat_eq ?_⟩ <;> omega
  | @three a b c ha hb hc hl hs =>
    simp only [Follows, UInt8.le_iff_toNat_le, ← UInt8.toNat_inj, UInt8.toNat_ofNat] at ha hb hc hl hs
    obtain ⟨x, hx⟩ := exists_char (n := ((a.toNat - 224) * 64 + (b.toNat - 128)) * 64 + (c.toNat - 128)) (by omega)
    refine ⟨x, ?_⟩
    simp only [String.utf8EncodeChar, hx]
    rw [if_neg (by omega), if_neg (by omega), if_pos (by omega)]
    simp only [List.cons.injEq, and_true]
    refine ⟨ofNat_eq ?_, ofNat_eq ?_, ofNat_eq ?_⟩ <;> omega
  | @four a b c d ha hb hc hd hl hr =>
    simp only [Follows, UInt8.le_iff_toNat_le, ← UInt8.toNat_inj, UInt8.toNat_ofNat] at ha hb hc hd hl hr
    obtain ⟨x, hx⟩ := exists_char
      (n := (((a.toNat - 240) * 64 + (b.toNat - 128)) * 64 + (c.toNat - 128)) * 64 + (d.toNat - 128)) (by omega)
    refine ⟨x, ?_⟩
    simp only [String.utf8EncodeChar, hx]
    rw [if_neg (by omega), if_neg (by omega), if_neg (by omega)]
    simp only [List.cons.injEq, and_true]
    refine ⟨ofNat_eq ?_, ofNat_eq ?_, ofNat_eq ?_, ofNat_eq ?_⟩ <;> omega

/-- A byte string is well-formed if it is made of the bytes of characters. -/
inductive WellFormed : Bytes → Prop
  | nil : WellFormed []
  | append {one rest : Bytes} (h : Sequence one) (hr : WellFormed rest) : WellFormed (one ++ rest)

theorem wellFormed_encode (text : List Char) : WellFormed (encode text) := by
  induction text with
  | nil => exact .nil
  | cons c rest ih => exact .append (sequence_utf8EncodeChar c) ih

theorem WellFormed.exists_encode (h : WellFormed bytes) : ∃ text, encode text = bytes := by
  induction h with
  | nil => exact ⟨[], rfl⟩
  | append h hr ih =>
    obtain ⟨c, rfl⟩ := h.exists_utf8EncodeChar
    obtain ⟨text, rfl⟩ := ih
    exact ⟨c :: text, rfl⟩

/-- Well-formed bytes, and no others, are what a text is written as. -/
theorem wellFormed_iff : WellFormed bytes ↔ ∃ text, encode text = bytes := by
  constructor
  · exact WellFormed.exists_encode
  · rintro ⟨text, rfl⟩
    exact wellFormed_encode text

/-- Well-formed bytes, and no others, are written again as they were read. -/
theorem encode_decode_eq_iff : encode (decode bytes) = bytes ↔ WellFormed bytes := by
  constructor
  · intro h
    exact wellFormed_iff.mpr ⟨_, h⟩
  · intro h
    obtain ⟨text, rfl⟩ := h.exists_encode
    rw [decode_encode]

instance (bytes : Bytes) : Decidable (WellFormed bytes) := decidable_of_iff _ encode_decode_eq_iff

/-- A character in too many bytes, a surrogate, one above U+10FFFF, and one that is cut off. -/
example : ¬ WellFormed [0xC0, 0x80] ∧ ¬ WellFormed [0xED, 0xA0, 0x80] ∧ ¬ WellFormed [0xF4, 0x90, 0x80, 0x80] ∧
    ¬ WellFormed [0xE2, 0x82] := by
  decide +kernel

end LocalPlay.Utf8
