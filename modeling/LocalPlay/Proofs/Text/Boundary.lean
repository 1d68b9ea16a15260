import LocalPlay.Proofs.Text.WellFormed

/-! Cutting a text as the bytes that it is written as. The byte behind a place tells whether the place lies between two
characters, and the last such place up to a limit is found by going back from the limit. -/
namespace LocalPlay.Utf8
variable {bytes : Bytes} {text start : List Char} {place : Nat}

/-- Whether a place in the bytes of a text lies between two characters: at an end, or in front of a byte that does not
go on with a character. -/
def isBoundary (bytes : Bytes) (place : Nat) : Bool :=
  place == 0 || match bytes[place]? with
    | some b => ¬ Follows b
    | none => place == bytes.length

/-- The last place between two characters, going back from a place. There is none if the search leaves the text at its
beginning. -/
def boundaryUpTo? (bytes : Bytes) : Nat → Option Nat
  | 0 => if isBoundary bytes 0 then some 0 else none
  | place + 1 => if isBoundary bytes (place + 1) then some (place + 1) else boundaryUpTo? bytes place

/-- The bytes of a text up to the last place between two characters that fits. -/
def cutBack? (limit : Nat) (bytes : Bytes) : Option Bytes :=
  if bytes.length ≤ limit then some bytes else (boundaryUpTo? bytes limit).map bytes.take

theorem encode_append (start rest : List Char) : encode (start ++ rest) = encode start ++ encode rest :=
  List.flatMap_append

theorem encode_isPrefix (h : start <+: text) : encode start <+: encode text := by
  obtain ⟨rest, rfl⟩ := h
  exact ⟨encode rest, (encode_append start rest).symm⟩

/-- The search comes to an end within the text, at the last place between two characters. -/
theorem exists_boundaryUpTo? (bytes : Bytes) (place : Nat) :
    ∃ last ≤ place, boundaryUpTo? bytes place = some last ∧ isBoundary bytes last = true ∧
      ∀ other ≤ place, isBoundary bytes other = true → other ≤ last := by
  induction place with
  | zero => exact ⟨0, Nat.le_refl 0, rfl, rfl, fun other ho _ => ho⟩
  | succ place ih =>
    by_cases hb : isBoundary bytes (place + 1) = true
    · exact ⟨place + 1, Nat.le_refl _, by rw [boundaryUpTo?, if_pos hb], hb, fun other ho _ => ho⟩
    · obtain ⟨last, hle, hs, hlast, hmax⟩ := ih
      refine ⟨last, by omega, by rw [boundaryUpTo?, if_neg hb, hs], hlast, ?_⟩
      intro other ho hother
      rcases Nat.le_succ_iff.mp ho with h | rfl
      · exact hmax other h hother
      · exact absurd hother hb

theorem exists_utf8EncodeChar_eq_cons (c : Char) :
    ∃ a more, String.utf8EncodeChar c = a :: more ∧ ¬ Follows a ∧ ∀ b ∈ more, Follows b := by
  have hs := sequence_utf8EncodeChar c
  cases hc : String.utf8EncodeChar c with
  | nil => exact absurd hc String.utf8EncodeChar_ne_nil
  | cons a more => exact ⟨a, more, rfl, (hc ▸ hs).leads⟩

@[simp] theorem isBoundary_zero (bytes : Bytes) : isBoundary bytes 0 = true := rfl

/-- Inside a character there is no boundary. -/
theorem isBoundary_inside {c : Char} (h0 : place ≠ 0) (hc : place < c.utf8Size) (rest : Bytes) :
    isBoundary (String.utf8EncodeChar c ++ rest) place = false := by
  obtain ⟨a, more, he, -, hmore⟩ := exists_utf8EncodeChar_eq_cons c
  have hl : more.length + 1 = c.utf8Size := by rw [← String.length_utf8EncodeChar, he, List.length_cons]
  obtain ⟨k, rfl⟩ := Nat.exists_eq_succ_of_ne_zero h0
  have hk : k < more.length := by omega
  have hb := hmore more[k] (List.getElem_mem hk)
  simp [isBoundary, he, List.getElem?_append_left, hk, hb]

/-- Behind a character, the boundaries are those of the rest. -/
theorem isBoundary_behind (c : Char) (text : List Char) (place : Nat) :
    isBoundary (encode (c :: text)) (c.utf8Size + place) = isBoundary (encode text) place := by
  have hget : (encode (c :: text))[c.utf8Size + place]? = (encode text)[place]? := by
    rw [show encode (c :: text) = String.utf8EncodeChar c ++ encode text from rfl,
      List.getElem?_append_right (by simp), String.length_utf8EncodeChar, Nat.add_sub_cancel_left]
  cases place with
  | zero =>
    cases text with
    | nil => simp [isBoundary, encode]
    | cons d more =>
      obtain ⟨a, after, he, ha, -⟩ := exists_utf8EncodeChar_eq_cons d
      have hfirst : (encode (d :: more))[0]? = some a := by simp [encode, he]
      rw [isBoundary, hget, hfirst]
      simp [ha]
  | succ k =>
    have h0 : (c.utf8Size + (k + 1) == 0) = false := by simp
    have hl : (c.utf8Size + (k + 1) == (encode (c :: text)).length) = (k + 1 == (encode text).length) := by
      rw [length_encode_cons]
      grind
    simp only [isBoundary, hget, h0, hl]
    rfl

/-- The boundaries of a text are where its beginnings end. -/
theorem isBoundary_encode_iff :
    isBoundary (encode text) place = true ↔ ∃ start, start <+: text ∧ (encode start).length = place := by
  -- A place is in front of the first character, or inside it, or behind it and so a place of the rest.
  induction text generalizing place with
  | nil =>
    constructor
    · intro h
      have h0 : place = 0 := by simpa [isBoundary, encode] using h
      exact ⟨[], List.nil_prefix, h0.symm⟩
    · rintro ⟨start, hp, rfl⟩
      rw [List.prefix_nil.mp hp]
      rfl
  | cons c rest ih =>
    constructor
    · intro h
      by_cases h0 : place = 0
      · exact ⟨[], List.nil_prefix, h0 ▸ rfl⟩
      by_cases hc : place < c.utf8Size
      · have hin := isBoundary_inside h0 hc (encode rest)
        exact absurd (h.symm.trans hin) (by decide)
      · obtain ⟨k, rfl⟩ := Nat.exists_eq_add_of_le (Nat.not_lt.mp hc)
        rw [isBoundary_behind] at h
        obtain ⟨start, hp, hl⟩ := ih.mp h
        exact ⟨c :: start, (List.prefix_cons_inj c).mpr hp, by rw [length_encode_cons, hl]⟩
    · rintro ⟨start, hp, rfl⟩
      cases start with
      | nil => rfl
      | cons d more =>
        obtain ⟨rfl, hm⟩ := List.cons_prefix_cons.mp hp
        rw [length_encode_cons, isBoundary_behind]
        exact ih.mpr ⟨more, hm, rfl⟩

end LocalPlay.Utf8
