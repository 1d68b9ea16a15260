import LocalPlay.Proofs.Reassembly.Gathering

/-! Repeated fragments. While its message is gathered, a fragment that has come changes nothing when it comes again.
A message that is handed out leaves nothing behind, and for the next time each of its fragments has to come again. -/
namespace LocalPlay.Reassembly.Table

/-- The message of a fragment is gathered, and the fragment has come. -/
def Keeps (t : Table) (p : Packet) : Prop :=
  fault? p.header = none ∧ ∃ e, t.pending.find? p.header.key = some e ∧
    e.fragmentCount = p.header.fragmentCount ∧ (e.slots.get? p.header.fragmentIndex.toNat).isSome

/-- Whether the table holds a chunk of a message. -/
def holdsChunk (t : Table) (key : MessageKey) (i : Nat) : Bool :=
  (t.pending.find? key).any fun e => (e.slots.get? i).isSome

/-- The answer ends the gathering of a message: it is handed out, or given up because it is too long. -/
def Ends (answer : Except SessionError (Option Bytes)) : Prop :=
  (∃ message, answer = .ok (some message)) ∨ ∃ length, answer = .error (.messageTooLarge length)

section
variable {t t' : Table} {p q : Packet} {now : Nat} {answer : Except SessionError (Option Bytes)} {key : MessageKey}
  {chunks : List Bytes} {i : Nat}

/-- A fragment that has come is ignored. -/
theorem Keeps.insert_eq (h : t.Keeps p) (now : Nat) : t.insert p now = (.ok none, t) := by
  obtain ⟨hf, e, hk, hc, hs⟩ := h
  exact (Insertion.repeated hf hk hc hs).insert_eq

theorem Keeps.congr (h : t.Keeps p) (hk : t'.pending.find? p.header.key = t.pending.find? p.header.key) :
    t'.Keeps p := by
  obtain ⟨hf, e, he, hc, hs⟩ := h
  exact ⟨hf, e, hk.trans he, hc, hs⟩

/-- A fragment that is taken while others are missing has come. -/
theorem Insertion.keeps_self (h : t.WellFormed) (hi : Insertion t p now (.ok none) t') : t'.Keeps p := by
  cases hi with
  | repeated hf hk hc hs => exact ⟨hf, _, hk, hc, hs⟩
  | stored hf he hs =>
    have hb := (he.consistent h hf).size_slots ▸ he.index_lt hf
    refine ⟨hf, _, find?_put_self .., ?_, (Pending.isSome_get?_store hb _ _).mpr (.inr rfl)⟩
    rcases he with ⟨-, hc⟩ | ⟨-, -, -, rfl⟩
    · exact hc
    · rfl

/-- Until its message ends, a fragment that has come stays. -/
theorem Insertion.keeps (h : t.WellFormed) (hk : t.Keeps p) (hi : Insertion t q now answer t')
    (hq : q.header.key = p.header.key → q.header.fragmentCount = p.header.fragmentCount ∧ ¬ Ends answer) :
    t'.Keeps p := by
  by_cases hkey : q.header.key = p.header.key
  case neg => exact hk.congr (hi.find?_of_ne (Ne.symm hkey))
  obtain ⟨hcount, hends⟩ := hq hkey
  cases hi with
  | refused | aloneTooLong | alone | full | repeated => exact hk
  | contradicted _ hk' hc =>
    obtain ⟨-, e, he, hce, -⟩ := hk
    obtain rfl := Option.some.inj (hk'.symm.trans (hkey ▸ he))
    exact absurd (hce.trans hcount.symm) hc
  | outgrown => exact absurd (.inr ⟨_, rfl⟩) hends
  | completed => exact absurd (.inl ⟨_, rfl⟩) hends
  | stored hf he =>
    have hb := (he.consistent h hf).size_slots ▸ he.index_lt hf
    obtain ⟨hp, e, hk, hc, hs⟩ := hk
    rw [← hkey] at hk
    rcases he with ⟨hk', -⟩ | ⟨hk', -⟩
    · obtain rfl := Option.some.inj (hk.symm.trans hk')
      have hput := find?_put_self t q.header.key (e.store q.header.fragmentIndex.toNat q.payload)
      rw [hkey] at hput ⊢
      exact ⟨hp, _, hput, hc, (Pending.isSome_get?_store hb _ _).mpr (.inl hs)⟩
    · simp [hk] at hk'

theorem holdsChunk_eq_false (hk : t.pending.find? key = none) (i : Nat) : t.holdsChunk key i = false := by
  simp [holdsChunk, hk]

theorem holdsChunk_congr (hk : t'.pending.find? key = t.pending.find? key) (i : Nat) :
    t'.holdsChunk key i = t.holdsChunk key i := by
  rw [holdsChunk, hk, holdsChunk]

/-- A chunk is there only after its fragment came. -/
theorem Insertion.holdsChunk_le (h : t.WellFormed) (hi : Insertion t p now answer t')
    (hh : t'.holdsChunk p.header.key i = true) :
    t.holdsChunk p.header.key i = true ∨ p.header.fragmentIndex.toNat = i := by
  cases hi with
  | refused | aloneTooLong | alone | full | repeated => exact .inl hh
  | contradicted | outgrown | completed => simp [holdsChunk] at hh
  | stored hf he =>
    have hb := (he.consistent h hf).size_slots ▸ he.index_lt hf
    simp only [holdsChunk, find?_put_self, Option.any_some, Pending.isSome_get?_store hb] at hh
    rcases hh with hs | rfl
    · rcases he with ⟨hk, -⟩ | ⟨-, -, -, rfl⟩
      · exact .inl (by simpa [holdsChunk, hk] using hs)
      · simp [Pending.new] at hs
    · exact .inr rfl

/-- A message that is handed out is gone from the table. -/
theorem Insertion.absent_of_message {message : Bytes} (hi : Insertion t p now (.ok (some message)) t') :
    t'.pending.find? p.header.key = none := by
  cases hi with
  | alone _ hk => exact hk
  | completed => exact find?_drop_self ..

/-- For a message of two fragments or more that is handed out, each chunk was there or came last. -/
theorem Insertion.holdsChunk_of_message (h : t.WellFormed) {message : Bytes}
    (hi : Insertion t p now (.ok (some message)) t') (hp : p.Carries chunks) (h2 : 2 ≤ chunks.length)
    (hg : ∀ e, t.pending.find? p.header.key = some e → e.Gathers chunks) (hlt : i < chunks.length) :
    t.holdsChunk p.header.key i = true ∨ p.header.fragmentIndex.toNat = i := by
  cases hi with
  | alone _ _ h1 => exact absurd h1 (count_ne_one_of_carries hp h2)
  | completed hf he hs _ hd =>
    have hall := (complete_store_iff (he.consistent h hf) hp (he.gathers hp hg) hs).mp hd
    by_cases hne : i = p.header.fragmentIndex.toNat
    · exact .inr hne.symm
    have hi := hall i hlt hne
    rcases he with ⟨hk, -⟩ | ⟨-, -, -, rfl⟩
    · exact .inl (by simpa [holdsChunk, hk] using hi)
    · simp [Pending.new] at hi

end
end LocalPlay.Reassembly.Table
