import LocalPlay.Fragment.Split
import LocalPlay.Proofs.Reassembly.Invariant

/-! Messages do not disturb each other. What a table answers to the packets of one key, and what it holds under
that key, is the same with and without the packets of all others, as long as the table is not full for it. -/
namespace LocalPlay

/-- The report that a message with this key was given up. -/
def SessionError.isTimeoutOf (key : MessageKey) : SessionError → Bool
  | .reassemblyTimeout other _ _ => other = key
  | _ => false

namespace Reassembly

/-- The step is no insertion of a packet with another key. -/
def Op.concerns (key : MessageKey) : Op → Bool
  | .insert p _ => p.header.key = key
  | .sweep _ | .clear => true

/-- What an answer says of a key: the messages with other keys that a sweep gives up are left out. -/
def Outcome.about (key : MessageKey) : Outcome → Outcome
  | .swept expired => .swept (expired.filter (·.isTimeoutOf key))
  | outcome => outcome

/-- A packet was refused for want of room. -/
def Outcome.isFull : Outcome → Bool
  | .inserted (.error (.tableFull _)) => true
  | _ => false

/-- There was room for a packet with this key. -/
def HasRoom (key : MessageKey) (op : Op) (outcome : Outcome) : Prop := op.concerns key → outcome.isFull = false

instance (key : MessageKey) : DecidableRel (HasRoom key) := fun _ _ => inferInstanceAs (Decidable (_ → _))

namespace Table

/-- A table that holds the same as another one under a key, and nothing else. -/
structure Alone (key : MessageKey) (t u : Table) : Prop where
  limits : t.SameLimits u
  same : u.pending.find? key = t.pending.find? key
  others : ∀ other ≠ key, u.pending.find? other = none

section
variable {t t' u : Table} {p : Packet} {now : Nat} {answer : Except SessionError (Option Bytes)} {key : MessageKey}

theorem Alone.refl_new (timeout maxPending maxMessageSize : Nat) (key : MessageKey) :
    Alone key (new timeout maxPending maxMessageSize) (new timeout maxPending maxMessageSize) :=
  ⟨.refl _, rfl, fun _ _ => rfl⟩

/-- Room in the one table is room in the other: without an entry of the key it is empty. -/
theorem Alone.size_lt (h : Alone key t u) (hk : t.pending.find? key = none) (hr : t.size < t.maxPending) :
    u.size < u.maxPending := by
  have hz : u.size = 0 := by
    apply KeyedList.size_eq_zero
    intro other
    by_cases ho : other = key
    · rw [ho, h.same, hk]
    · exact h.others other ho
  rw [hz, h.limits.2.1]
  omega

theorem Alone.admits (h : Alone p.header.key t u) {e : Pending} (he : t.Admits p now e) : u.Admits p now e := by
  rcases he with ⟨hk, hc⟩ | ⟨hk, hc, hr, he⟩
  · exact .inl ⟨h.same.trans hk, hc⟩
  · exact .inr ⟨h.same.trans hk, hc, h.size_lt hk hr, he⟩

theorem Alone.drop (h : Alone key t u) : Alone key (t.drop key) (u.drop key) where
  limits := h.limits
  same := by rw [find?_drop_self, find?_drop_self]
  others := by
    intro other ho
    rw [find?_drop_of_ne u ho]
    exact h.others other ho

theorem Alone.put (h : Alone key t u) (e : Pending) : Alone key (t.put key e) (u.put key e) where
  limits := h.limits
  same := by rw [find?_put_self, find?_put_self]
  others := by
    intro other ho
    rw [find?_put_of_ne u e ho]
    exact h.others other ho

/-- An insertion goes out the same way, unless the table is full. -/
theorem Insertion.isolated (hi : Insertion t p now answer t') (h : Alone p.header.key t u)
    (hn : ∀ limit, answer ≠ .error (.tableFull limit)) :
    ∃ u', Insertion u p now answer u' ∧ Alone p.header.key t' u' := by
  have hm := h.limits.2.2
  cases hi with
  | refused hf => exact ⟨u, .refused hf, h⟩
  | aloneTooLong hf hk hc hl => exact ⟨u, .aloneTooLong hf (h.same.trans hk) hc (hm ▸ hl), h⟩
  | alone hf hk hc hl => exact ⟨u, .alone hf (h.same.trans hk) hc (hm ▸ hl), h⟩
  | full => exact absurd rfl (hn t.maxPending)
  | contradicted hf hk hc => exact ⟨_, .contradicted hf (h.same.trans hk) hc, h.drop⟩
  | repeated hf hk hc hs => exact ⟨u, .repeated hf (h.same.trans hk) hc hs, h⟩
  | outgrown hf he hs hl => exact ⟨_, .outgrown hf (h.admits he) hs (hm ▸ hl), h.drop⟩
  | completed hf he hs hl hd => exact ⟨_, .completed hf (h.admits he) hs (hm ▸ hl) hd, h.drop⟩
  | stored hf he hs hl hd => exact ⟨_, .stored hf (h.admits he) hs (hm ▸ hl) hd, h.put _⟩

/-- Of the messages that a sweep gives up, at most one has a given key: its entry, if that is too old. -/
theorem filter_sweep (t : Table) (now : Nat) (key : MessageKey) :
    (t.sweep now).1.filter (·.isTimeoutOf key) =
      (((t.pending.find? key).filter (·.isOlderThan t.timeout now)).map fun e =>
        SessionError.reassemblyTimeout key e.received e.fragmentCount).toList := by
  have hp : (SessionError.isTimeoutOf key ∘ fun entry : MessageKey × Pending =>
      .reassemblyTimeout entry.1 entry.2.received entry.2.fragmentCount) = fun entry => decide (entry.1 = key) := by
    rfl
  simp only [sweep, List.filter_map, hp, KeyedList.filter_entries, KeyedList.find?_filter]
  cases (t.pending.find? key).filter (·.isOlderThan t.timeout now) <;> rfl

theorem Alone.sweep (h : Alone key t u) (now : Nat) : Alone key (t.sweep now).2 (u.sweep now).2 where
  limits := h.limits
  same := by rw [find?_sweep, find?_sweep, h.same, h.limits.1]
  others := by
    intro other ho
    rw [find?_sweep, h.others other ho]
    rfl

theorem Alone.step (h : Alone key t u) {op : Op} (hop : op.concerns key = true) (hr : HasRoom key op (t.step op).1) :
    (t.step op).1.about key = (u.step op).1.about key ∧ Alone key (t.step op).2 (u.step op).2 := by
  cases op with
  | insert p now =>
    obtain rfl : p.header.key = key := by simpa [Op.concerns] using hop
    have hn : ∀ limit, (t.insert p now).1 ≠ .error (.tableFull limit) := by
      intro limit hl
      simpa [Table.step, hl, Outcome.isFull] using hr hop
    obtain ⟨u', hu, ha⟩ := (insertion t p now).isolated h hn
    simp only [Table.step, hu.insert_eq]
    exact ⟨trivial, ha⟩
  | sweep now =>
    refine ⟨?_, h.sweep now⟩
    simp only [Table.step, Outcome.about, filter_sweep, h.same, h.limits.1]
  | clear => exact ⟨rfl, h.limits, rfl, fun _ _ => rfl⟩

/-- The packet of another key leaves the entry alone. -/
theorem Alone.skip (h : Alone key t u) {op : Op} (hop : op.concerns key = false) : Alone key (t.step op).2 u := by
  cases op with
  | insert p now =>
    have hk : key ≠ p.header.key := by
      rintro rfl
      simp [Op.concerns] at hop
    have hi := insertion t p now
    exact ⟨hi.sameLimits.symm.trans h.limits, h.same.trans (hi.find?_of_ne hk).symm, h.others⟩
  | sweep | clear => simp [Op.concerns] at hop

/-- Only a packet that would open an entry is refused for want of room. -/
theorem Insertion.opens_of_full {limit : Nat} (hi : Insertion t p now (.error (.tableFull limit)) t') :
    t.pending.find? p.header.key = none ∧ p.header.fragmentCount ≠ 1 ∧ t.maxPending ≤ t.size :=
  (insert_eq_tableFull_iff.mp (congrArg Prod.fst hi.insert_eq)).2.2

end

/-- Let a table always have room for the packets of a key. Without all packets of other keys, each step gets the
same answer, as far as it is about the key, and the table ends with the same entry. Room is needed only for a packet
that opens an entry. -/
theorem run_isolated {timeout maxPending maxMessageSize : Nat} {ops : List Op} {key : MessageKey}
    (h : List.Forall₂ (HasRoom key) ops ((new timeout maxPending maxMessageSize).run ops).1) :
    let full := (new timeout maxPending maxMessageSize).run ops
    let alone := (new timeout maxPending maxMessageSize).run (ops.filter (·.concerns key))
    ((ops.zip full.1).filter (·.1.concerns key)).map (·.2.about key) = alone.1.map (·.about key) ∧
      full.2.pending.find? key = alone.2.pending.find? key ∧
      ∀ (t : Table) (p : Packet) (now limit : Nat), (t.insert p now).1 = .error (.tableFull limit) →
        t.pending.find? p.header.key = none ∧ p.header.fragmentCount ≠ 1 ∧ t.maxPending ≤ t.size := by
  simp only [run_eq] at h ⊢
  have hkeep : ∀ op t u, op.concerns key = true → Alone key t u → HasRoom key op (t.step op).1 →
      (t.step op).1.about key = (u.step op).1.about key ∧ Alone key (t.step op).2 (u.step op).2 :=
    fun _ _ _ hop ha hr => ha.step hop hr
  have hskip : ∀ op t u, op.concerns key = false → Alone key t u → HasRoom key op (t.step op).1 →
      Alone key (t.step op).2 u :=
    fun _ _ _ hop ha _ => ha.skip hop
  obtain ⟨hv, ha⟩ := Machine.run_filter (Op.concerns key) (Outcome.about key) (Alone key) (HasRoom key) hkeep hskip
    (.refl_new timeout maxPending maxMessageSize key) h
  refine ⟨hv, ha.same.symm, ?_⟩
  intro t p now limit hf
  have hi := insertion t p now
  rw [hf] at hi
  exact hi.opens_of_full

/-- A fragment of a message of node 1. -/
def piece (number count : UInt32) (index : Nat) : Packet :=
  Fragment.packet ⟨⟨7, 1, 2⟩, number⟩ 0 count index [1, 2]

/-- Message 0 between packets of message 1 that complete it, open it again and contradict it. -/
def mixed : List Op :=
  [.insert (piece 1 2 0) 0, .insert (piece 0 3 1) 1, .insert (piece 1 2 1) 2, .insert (piece 1 3 0) 3,
    .insert (piece 0 3 0) 4, .insert (piece 1 2 0) 5, .insert (piece 1 9 4) 6, .sweep 12, .insert (piece 0 3 2) 13]

theorem run_isolated_mixed :
    let key : MessageKey := ⟨⟨7, 1, 2⟩, 0⟩
    let full := (new 10 2 100).run mixed
    let alone := (new 10 2 100).run (mixed.filter (·.concerns key))
    List.Forall₂ (HasRoom key) mixed full.1 ∧
      ((mixed.zip full.1).filter (·.1.concerns key)).map (·.2.about key) = alone.1.map (·.about key) ∧
      full.2.pending.find? key = alone.2.pending.find? key := by
  intro key full alone
  have h : List.Forall₂ (HasRoom key) mixed full.1 := by decide +kernel
  obtain ⟨hv, he, -⟩ := run_isolated h
  exact ⟨h, hv, he⟩

end Table
end Reassembly
end LocalPlay
