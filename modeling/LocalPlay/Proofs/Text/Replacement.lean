import LocalPlay.Proofs.Text.WellFormed

/-! How bytes that are no text are read. Where no character stands, the longest beginning of one is replaced, or one
byte if there is none; all else is read as it was written. -/
namespace LocalPlay.Utf8
variable {bytes part rest : Bytes} {text : List Char}

/-- A beginning of the bytes of a character. -/
def Begins (part : Bytes) : Prop := ∃ c : Char, part <+: String.utf8EncodeChar c

/-- Bytes that are replaced, in front of other ones. -/
structure Stray (part rest : Bytes) : Prop where
  no_char : ∀ c : Char, ¬ String.utf8EncodeChar c <+: part ++ rest
  ne_nil : part ≠ []
  begins : Begins part ∨ part.length = 1
  longest : ∀ longer, longer <+: part ++ rest → part.length < longer.length → ¬ Begins longer

/-- The text that a byte string is read as. -/
inductive ReadAs : Bytes → List Char → Prop
  | nil : ReadAs [] []
  | char (c : Char) {rest : Bytes} {text : List Char} (h : ReadAs rest text) :
      ReadAs (String.utf8EncodeChar c ++ rest) (c :: text)
  | stray {part rest : Bytes} {text : List Char} (hs : Stray part rest) (h : ReadAs rest text) :
      ReadAs (part ++ rest) (replacement :: text)

theorem Begins.of_isPrefix {short long : Bytes} (h : short <+: long) (hl : Begins long) : Begins short := by
  obtain ⟨c, hc⟩ := hl
  exact ⟨c, h.trans hc⟩

theorem Begins.exists_sequence (h : Begins part) : ∃ more, Sequence (part ++ more) := by
  obtain ⟨c, more, hc⟩ := h
  exact ⟨more, hc ▸ sequence_utf8EncodeChar c⟩

/-- No character begins another one. -/
theorem char_eq_of_isPrefix {c d : Char} (h : String.utf8EncodeChar c <+: String.utf8EncodeChar d) : c = d := by
  -- From the bytes of both, a reader gives out the shorter one first.
  obtain ⟨more, hm⟩ := h
  have hd := Reader.run_utf8EncodeChar d []
  rw [List.append_nil, ← hm, Reader.run_utf8EncodeChar] at hd
  exact (List.cons.inj hd).1

/-- Bytes that do not go on as a character stop there. -/
theorem Stray.of_stop (hne : part ≠ []) (hb : Begins part ∨ part.length = 1)
    (hc : ∀ c : Char, ¬ String.utf8EncodeChar c <+: part)
    (hstop : ∀ b more, rest = b :: more → ¬ Begins (part ++ [b])) : Stray part rest := by
  -- All that is longer has the byte that stops it.
  have hlonger : ∀ longer, longer <+: part ++ rest → Begins longer → longer <+: part := by
    intro longer hp hl
    rcases List.prefix_or_prefix_of_prefix hp (List.prefix_append part rest) with h | ⟨more, rfl⟩
    · exact h
    · cases more with
      | nil => exact (List.append_nil part).symm ▸ List.prefix_rfl
      | cons b more =>
        obtain ⟨after, ha⟩ := (List.prefix_append_right_inj part).mp hp
        have hbegins : Begins (part ++ [b]) := by
          refine hl.of_isPrefix ⟨more, ?_⟩
          simp
        exact absurd hbegins (hstop b (more ++ after) ha.symm)
  refine ⟨?_, hne, hb, ?_⟩
  · intro c hp
    exact hc c (hlonger _ hp ⟨c, List.prefix_rfl⟩)
  · intro longer hp hlt hl
    exact absurd (hlonger longer hp hl).length_le (Nat.not_le.mpr hlt)

/-- Only one piece of a byte string is replaced at its beginning. -/
theorem Stray.unique {part' rest' : Bytes} (h : Stray part rest) (h' : Stray part' rest')
    (he : part ++ rest = part' ++ rest') : part = part' ∧ rest = rest' := by
  have not_lt {p q r s : Bytes} (hp : Stray p r) (hq : Stray q s) (he : p ++ r = q ++ s) : ¬ p.length < q.length := by
    intro hlt
    rcases hq.begins with hb | hone
    · exact hp.longest q (he ▸ List.prefix_append q s) hlt hb
    · exact hp.ne_nil (List.length_eq_zero_iff.mp (by omega))
  have hl : part.length = part'.length := by
    have := not_lt h h' he
    have := not_lt h' h he.symm
    omega
  exact List.append_inj he hl

private theorem narrowed_iff {p q : Prop} [Decidable p] [Decidable q] {low high b : UInt8} (hl : 0x80 ≤ low)
    (hh : high ≤ 0xBF) : ((if p then low else 0x80) ≤ b ∧ b ≤ if q then high else 0xBF) ↔
      Follows b ∧ (p → low ≤ b) ∧ (q → b ≤ high) := by
  simp only [Follows]
  grind

namespace Reader

/-- No byte in a range comes next. -/
def Stops (low high : UInt8) (bytes : Bytes) : Prop := ∀ b after, bytes = b :: after → ¬ (low ≤ b ∧ b ≤ high)

theorem goesOn_or_stops (low high : UInt8) (bytes : Bytes) :
    (∃ b after, bytes = b :: after ∧ low ≤ b ∧ b ≤ high) ∨ Stops low high bytes := by
  cases bytes with
  | nil => exact .inr (by rintro _ _ ⟨⟩)
  | cons b after =>
    by_cases hb : low ≤ b ∧ b ≤ high
    · exact .inl ⟨b, after, rfl, hb⟩
    · exact .inr (by rintro _ _ ⟨⟩; exact hb)

theorem run_of_stops {more bits : Nat} {low high : UInt8} (h : Stops low high bytes) :
    (inside more low high bits).run bytes = replacement :: ready.run bytes := by
  cases bytes with
  | nil => rfl
  | cons b after => simp [run, step, h b after rfl]

end Reader

/-- What a reader awaits behind some bytes: the bytes in its range go on with a character, and no others do. -/
inductive Awaits : Bytes → Nat → UInt8 → UInt8 → Prop
  | last {part : Bytes} {low high : UInt8} (hr : low ≤ high)
      (hin : ∀ b, low ≤ b ∧ b ≤ high → Sequence (part ++ [b]))
      (hout : ∀ b, ¬ (low ≤ b ∧ b ≤ high) → ¬ Begins (part ++ [b])) : Awaits part 0 low high
  | more {part : Bytes} {low high : UInt8} {more : Nat} (hr : low ≤ high)
      (hin : ∀ b, low ≤ b ∧ b ≤ high → Awaits (part ++ [b]) more 0x80 0xBF)
      (hout : ∀ b, ¬ (low ≤ b ∧ b ≤ high) → ¬ Begins (part ++ [b])) : Awaits part (more + 1) low high

namespace Awaits
variable {more : Nat} {low high : UInt8}

/-- Some character goes on behind the bytes. -/
theorem exists_char (h : Awaits part more low high) :
    ∃ (c : Char) (b : UInt8) (after : Bytes), part ++ b :: after = String.utf8EncodeChar c := by
  induction h with
  | last hr hin hout =>
    obtain ⟨c, hc⟩ := (hin _ ⟨UInt8.le_refl _, hr⟩).exists_utf8EncodeChar
    exact ⟨c, _, [], hc.symm⟩
  | more hr hin hout ih =>
    obtain ⟨c, b, after, hc⟩ := ih _ ⟨UInt8.le_refl _, hr⟩
    exact ⟨c, _, b :: after, by rw [← hc, List.append_assoc, List.singleton_append]⟩

theorem not_begins (h : Awaits part more low high) {b : UInt8} (hb : ¬ (low ≤ b ∧ b ≤ high)) :
    ¬ Begins (part ++ [b]) := by
  cases h with
  | last hr hin hout => exact hout b hb
  | more hr hin hout => exact hout b hb

/-- A reader that is stopped replaces what it has read of the character. -/
theorem stray (h : Awaits part more low high) (hne : part ≠ [])
    (hstop : Reader.Stops low high rest) : Stray part rest := by
  obtain ⟨c, b, after, hc⟩ := h.exists_char
  refine .of_stop hne (.inl ⟨c, b :: after, hc⟩) ?_ ?_
  · intro d hd
    obtain rfl := char_eq_of_isPrefix (hd.trans ⟨b :: after, hc⟩)
    have hl := hd.length_le
    rw [← hc, List.length_append, List.length_cons] at hl
    omega
  · intro b after hr
    exact h.not_begins (hstop b after hr)

/-- From inside a character, a reader comes to its end, or replaces what it has read of it. -/
theorem sequence_or_stray (h : Awaits part more low high) (hne : part ≠ []) (bits : Nat) (bytes : Bytes) :
    (∃ one rest, Sequence one ∧ part ++ bytes = one ++ rest) ∨
      ∃ middle rest, bytes = middle ++ rest ∧ Stray (part ++ middle) rest ∧
        (Reader.inside more low high bits).run bytes = replacement :: Reader.ready.run rest := by
  -- Over what is awaited: a byte in the range leaves one less, and any other one stops the reader.
  induction h generalizing bits bytes with
  | @last part low high hr hin hout =>
    rcases Reader.goesOn_or_stops low high bytes with ⟨b, after, rfl, hb⟩ | hstop
    · exact .inl ⟨part ++ [b], after, hin b hb, by simp⟩
    · have hs := (Awaits.last hr hin hout).stray hne hstop
      exact .inr ⟨[], bytes, rfl, by rwa [List.append_nil], Reader.run_of_stops hstop⟩
  | @more part low high n hr hin hout ih =>
    rcases Reader.goesOn_or_stops low high bytes with ⟨b, after, rfl, hb⟩ | hstop
    · have hrun : (Reader.inside (n + 1) low high bits).run (b :: after) =
          (Reader.inside n 0x80 0xBF (bits * 64 + (b.toNat - 0x80))).run after := by
        simp [Reader.run, Reader.step, hb]
      rcases ih b hb (by simp) (bits * 64 + (b.toNat - 0x80)) after with
        ⟨one, rest, ho, he⟩ | ⟨middle, rest, rfl, hs, he⟩
      · exact .inl ⟨one, rest, ho, by simpa using he⟩
      · exact .inr ⟨b :: middle, rest, rfl, by simpa using hs, hrun.trans he⟩
    · have hs := (Awaits.more hr hin hout).stray hne hstop
      exact .inr ⟨[], bytes, rfl, by rwa [List.append_nil], Reader.run_of_stops hstop⟩

end Awaits

/-- What the first byte of a character says of the others. -/
theorem awaits_two {a : UInt8} (ha : 0xC2 ≤ a ∧ a ≤ 0xDF) : Awaits [a] 0 0x80 0xBF := by
  refine .last (by decide) (fun b hb => .two ha hb) ?_
  intro b hb h
  obtain ⟨_, h⟩ := h.exists_sequence
  exact hb h.second.1

theorem awaits_three {a : UInt8} (ha : 0xE0 ≤ a ∧ a ≤ 0xEF) :
    Awaits [a] 1 (if a = 0xE0 then 0xA0 else 0x80) (if a = 0xED then 0x9F else 0xBF) := by
  refine .more (by grind) ?_ ?_
  · intro b hb
    obtain ⟨hb, hlong, hsurrogate⟩ := (narrowed_iff (by decide) (by decide)).mp hb
    refine .last (by decide) (fun c hc => .three ha hb hc hlong hsurrogate) ?_
    intro c hc h
    obtain ⟨_, h⟩ := h.exists_sequence
    exact hc h.third
  · intro b hb h
    obtain ⟨_, h⟩ := h.exists_sequence
    obtain ⟨hf, hlong, hsurrogate, -, -⟩ := h.second
    exact hb ((narrowed_iff (by decide) (by decide)).mpr ⟨hf, hlong, hsurrogate⟩)

theorem awaits_four {a : UInt8} (ha : 0xF0 ≤ a ∧ a ≤ 0xF4) :
    Awaits [a] 2 (if a = 0xF0 then 0x90 else 0x80) (if a = 0xF4 then 0x8F else 0xBF) := by
  refine .more (by grind) ?_ ?_
  · intro b hb
    obtain ⟨hb, hlong, hrange⟩ := (narrowed_iff (by decide) (by decide)).mp hb
    refine .more (by decide) ?_ ?_
    · intro c hc
      refine .last (by decide) (fun d hd => .four ha hb hc hd hlong hrange) ?_
      intro d hd h
      obtain ⟨_, h⟩ := h.exists_sequence
      exact hd h.fourth
    · intro c hc h
      obtain ⟨_, h⟩ := h.exists_sequence
      exact hc h.third
  · intro b hb h
    obtain ⟨_, h⟩ := h.exists_sequence
    obtain ⟨hf, -, -, hlong, hrange⟩ := h.second
    exact hb ((narrowed_iff (by decide) (by decide)).mpr ⟨hf, hlong, hrange⟩)

/-- A first byte is a character, or no character starts with it, or a reader awaits the rest of one. -/
theorem start_cases (a : UInt8) :
    a ≤ 0x7F ∨ (¬ Begins [a] ∧ Reader.start a = ([replacement], .ready)) ∨
      ∃ more low high bits, Reader.start a = ([], .inside more low high bits) ∧ Awaits [a] more low high := by
  have hbad (h : ¬ (a ≤ 0x7F ∨ 0xC2 ≤ a ∧ a ≤ 0xF4)) : ¬ Begins [a] := by
    intro hb
    obtain ⟨_, hs⟩ := hb.exists_sequence
    exact h hs.first
  rw [Reader.start]
  split
  · exact .inl (by grind)
  split
  · exact .inr (.inl ⟨hbad (by grind), rfl⟩)
  split
  · exact .inr (.inr ⟨_, _, _, _, rfl, awaits_two (by grind)⟩)
  split
  · exact .inr (.inr ⟨_, _, _, _, rfl, awaits_three (by grind)⟩)
  split
  · exact .inr (.inr ⟨_, _, _, _, rfl, awaits_four (by grind)⟩)
  · exact .inr (.inl ⟨hbad (by grind), rfl⟩)

theorem not_begins_stray {a : UInt8} (h : ¬ Begins [a]) (rest : Bytes) : Stray [a] rest := by
  refine .of_stop (by simp) (.inr rfl) ?_ ?_
  · intro c hc
    cases hs : String.utf8EncodeChar c with
    | nil => exact String.utf8EncodeChar_ne_nil hs
    | cons b more =>
      refine h ⟨c, ?_⟩
      obtain ⟨rfl, -⟩ := List.cons_prefix_cons.mp (hs ▸ hc)
      exact hs ▸ ⟨more, rfl⟩
  · intro b more hr hb
    exact h (hb.of_isPrefix ⟨[b], rfl⟩)

/-- A byte string that is not empty begins with a character, or with bytes that are replaced. -/
theorem char_or_stray (hne : bytes ≠ []) :
    (∃ (c : Char) (rest : Bytes), bytes = String.utf8EncodeChar c ++ rest) ∨
      ∃ part rest, bytes = part ++ rest ∧ Stray part rest ∧ decode bytes = replacement :: decode rest := by
  have of_sequence {one rest : Bytes} (h : Sequence one) :
      ∃ (c : Char) (more : Bytes), one ++ rest = String.utf8EncodeChar c ++ more := by
    obtain ⟨c, rfl⟩ := h.exists_utf8EncodeChar
    exact ⟨c, rest, rfl⟩
  cases bytes with
  | nil => exact absurd rfl hne
  | cons a bytes =>
    rcases start_cases a with ha | ⟨ha, hstart⟩ | ⟨more, low, high, bits, hstart, h⟩
    · exact .inl (of_sequence (.one ha))
    · refine .inr ⟨[a], bytes, rfl, not_begins_stray ha bytes, ?_⟩
      simp [decode, Reader.run, Reader.step, hstart]
    · have hrun : decode (a :: bytes) = (Reader.inside more low high bits).run bytes := by
        simp [decode, Reader.run, Reader.step, hstart]
      rcases h.sequence_or_stray (by simp) bits bytes with ⟨one, rest, ho, he⟩ | ⟨middle, rest, rfl, hs, he⟩
      · left
        rw [← List.singleton_append, he]
        exact of_sequence ho
      · exact .inr ⟨a :: middle, rest, rfl, hs, hrun.trans he⟩

theorem decode_stray (h : Stray part rest) : decode (part ++ rest) = replacement :: decode rest := by
  have hne : part ++ rest ≠ [] := by simp [h.ne_nil]
  rcases char_or_stray hne with ⟨c, more, hc⟩ | ⟨part', rest', he, hs, hd⟩
  · exact absurd ⟨more, hc.symm⟩ (h.no_char c)
  · obtain ⟨rfl, rfl⟩ := h.unique hs he
    exact hd

theorem decode_char (c : Char) (rest : Bytes) : decode (String.utf8EncodeChar c ++ rest) = c :: decode rest :=
  Reader.run_utf8EncodeChar c rest

theorem readAs_decode (bytes : Bytes) : ReadAs bytes (decode bytes) := by
  induction hn : bytes.length using Nat.strongRecOn generalizing bytes with
  | ind n ih =>
    subst hn
    by_cases hne : bytes = []
    · subst hne
      exact .nil
    rcases char_or_stray hne with ⟨c, rest, rfl⟩ | ⟨part, rest, rfl, hs, hd⟩
    · rw [decode_char]
      exact .char c (ih _ (by simp [c.utf8Size_pos]) rest rfl)
    · rw [hd]
      exact .stray hs (ih _ (by simp [List.length_pos_iff, hs.ne_nil]) rest rfl)

/-- A byte string is read as one text. -/
theorem readAs_iff : ReadAs bytes text ↔ decode bytes = text := by
  constructor
  · intro h
    induction h with
    | nil => rfl
    | char c h ih => rw [decode_char, ih]
    | stray hs h ih => rw [decode_stray hs, ih]
  · rintro rfl
    exact readAs_decode bytes

/-- Three bytes that begin a character are replaced together, those of a surrogate one by one. -/
example : decode [0xF0, 0x9F, 0x98, 0x41] = [replacement, 'A'] ∧
    decode [0xED, 0xA0, 0x80] = [replacement, replacement, replacement] := by
  decide

end LocalPlay.Utf8
