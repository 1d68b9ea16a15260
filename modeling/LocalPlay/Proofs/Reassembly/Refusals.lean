import LocalPlay.Proofs.Reassembly.Isolation
import LocalPlay.Proofs.Reassembly.Repetition

/-! What an insertion leaves behind. A packet that is refused leaves the table as it was, unless it contradicts or
outgrows a message that is being gathered: then the entry of that message goes, and no other. A fragment that is taken
while others are missing may come again at any time. -/
namespace LocalPlay.Reassembly.Table
variable {t t' : Table} {key : MessageKey} {e : Pending} {p : Packet} {now : Nat} {reason : SessionError}

/-- The entry of a key is gone, and all else is as before. -/
structure Removes (t : Table) (key : MessageKey) (t' : Table) : Prop where
  limits : t.SameLimits t'
  pending : t.contains key = true
  gone : t'.contains key = false
  others : ∀ other ≠ key, t'.pending.find? other = t.pending.find? other

theorem removes_drop (hk : t.pending.find? key = some e) : t.Removes key (t.drop key) where
  limits := .refl t
  pending := by rw [contains_eq, hk, Option.isSome_some]
  gone := by rw [contains_eq, find?_drop_self, Option.isSome_none]
  others := fun _ h => find?_drop_of_ne t h

/-- The table that a refusal leaves. A packet is refused for no other reasons. -/
def LeftBy (t : Table) (key : MessageKey) (t' : Table) : SessionError → Prop
  | .protocol .notAFragment | .protocol (.badFragmentIndex _ _) | .protocol (.tooManyFragments _) | .tableFull _ =>
    t' = t
  | .protocol (.fragmentCountMismatch _ _) => t.Removes key t'
  | .messageTooLarge _ => if t.contains key then t.Removes key t' else t' = t
  | _ => False

theorem Insertion.leftBy (h : Insertion t p now (.error reason) t') : t.LeftBy p.header.key t' reason := by
  cases h with
  | refused hf => rcases fault?_cases hf with rfl | ⟨_, _, rfl⟩ | ⟨_, rfl⟩ <;> rfl
  | aloneTooLong _ hk => simp [LeftBy, contains_eq, hk]
  | full => rfl
  | contradicted _ hk => exact removes_drop hk
  | outgrown _ he =>
    -- the first fragment of a message was never put into the table
    rcases he with ⟨hk, -⟩ | ⟨hk, -⟩
    · simpa [LeftBy, contains_eq, hk] using removes_drop hk
    · simpa [LeftBy, contains_eq, hk] using drop_of_absent hk

/-- The table has no room exactly for a fragment of a message that it does not hold and that is not complete with
it, if it holds as many others as it may. -/
theorem insert_full_iff {limit : Nat} :
    (t.insert p now).1 = .error (.tableFull limit) ↔
      limit = t.maxPending ∧ p.header.isFragment = true ∧ p.header.fragmentIndex < p.header.fragmentCount ∧
        2 ≤ p.header.fragmentCount.toNat ∧ p.header.fragmentCount.toNat ≤ maxFragments ∧
        t.contains p.header.key = false ∧ t.maxPending ≤ t.size := by
  -- an index below the number of fragments leaves one and more
  have hcount (hi : p.header.fragmentIndex < p.header.fragmentCount) :
      p.header.fragmentCount ≠ 1 ↔ 2 ≤ p.header.fragmentCount.toNat := by
    have hlt := UInt32.lt_iff_toNat_lt.mp hi
    rw [ne_eq, ← UInt32.toNat_inj, UInt32.toNat_one]
    omega
  rw [insert_eq_tableFull_iff, fault?_eq_none_iff, contains_eq, Option.isSome_eq_false_iff, Option.isNone_iff_eq_none]
  constructor
  · rintro ⟨rfl, ⟨hf, hi, hm⟩, hk, hc, hr⟩
    exact ⟨rfl, hf, hi, (hcount hi).mp hc, hm, hk, hr⟩
  · rintro ⟨rfl, hf, hi, hc, hm, hk, hr⟩
    exact ⟨rfl, ⟨hf, hi, hm⟩, hk, (hcount hi).mpr hc, hr⟩

/-- Insert any packet into any table that a run leaves. The entries of other keys stay. A refusal leaves the table as it
was, or without the entry that it ends. There is no room exactly for a packet that would open an entry when the table
holds as many as it may. A fragment that is taken while others are missing is taken again at any time, and nothing
changes. -/
theorem insert_leaves (timeout maxPending maxMessageSize : Nat) (ops : List Op) (p : Packet) (now : Nat) :
    let t := ((new timeout maxPending maxMessageSize).run ops).2
    let h := p.header
    let answer := (t.insert p now).1
    let t' := (t.insert p now).2
    (∀ other ≠ h.key, t'.pending.find? other = t.pending.find? other) ∧
      (∀ reason, answer = .error reason → t.LeftBy h.key t' reason) ∧
      (∀ limit, answer = .error (.tableFull limit) ↔
        limit = maxPending ∧ h.isFragment = true ∧ h.fragmentIndex < h.fragmentCount ∧
          2 ≤ h.fragmentCount.toNat ∧ h.fragmentCount.toNat ≤ maxFragments ∧ t.contains h.key = false ∧
          maxPending ≤ t.size) ∧
      (answer = .ok none → ∀ now', t'.insert p now' = (.ok none, t')) := by
  intro t h answer t'
  have hwf : t.WellFormed := (WellFormed.of_new timeout maxPending maxMessageSize).run ops
  have hmax : t.maxPending = maxPending := (sameLimits_run (new timeout maxPending maxMessageSize) ops).2.1
  have hi : Insertion t p now answer t' := insertion t p now
  refine ⟨fun _ ho => hi.find?_of_ne ho, ?_, ?_, ?_⟩
  · intro reason ha
    rw [ha] at hi
    exact hi.leftBy
  · intro limit
    rw [← hmax]
    exact insert_full_iff
  · intro ha now'
    rw [ha] at hi
    exact (hi.keeps_self hwf).insert_eq now'

/-- Room for one message of at most four bytes: message 0 is begun, message 1 finds no room, and a second fragment with
another count ends message 0. Its first fragment may come twice. -/
theorem insert_leaves_crowded :
    let t := ((new 10 1 4).run [.insert (piece 0 3 0) 0]).2
    (t.insert (piece 1 2 0) 1).1 = .error (.tableFull 1) ∧ (t.insert (piece 1 2 0) 1).2 = t ∧
      (t.insert (piece 0 2 1) 1).1 = .error (.protocol (.fragmentCountMismatch 3 2)) ∧
      t.Removes (piece 0 2 1).header.key (t.insert (piece 0 2 1) 1).2 ∧
      t.insert (piece 0 3 0) 9 = (.ok none, t) := by
  intro t
  have hfull : (t.insert (piece 1 2 0) 1).1 = .error (.tableFull 1) :=
    ((insert_leaves 10 1 4 _ (piece 1 2 0) 1).2.2.1 1).mpr (by decide +kernel)
  have hcount : (t.insert (piece 0 2 1) 1).1 = .error (.protocol (.fragmentCountMismatch 3 2)) := by decide +kernel
  refine ⟨hfull, (insert_leaves 10 1 4 _ (piece 1 2 0) 1).2.1 _ hfull, hcount,
    (insert_leaves 10 1 4 _ (piece 0 2 1) 1).2.1 _ hcount, ?_⟩
  exact (insert_leaves 10 1 4 [] (piece 0 3 0) 0).2.2.2 (by decide +kernel) 9

end LocalPlay.Reassembly.Table
