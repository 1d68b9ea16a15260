import LocalPlay.Proofs.Reassembly.Invariant

/-! Insertion with every access tested: an entry is put into the table first and looked up there, a slot is
reached by its index, and a message is put together from an entry that is there and has no empty slot. On a
well-formed table no test fails, and the answer and the table are those of plain insertion. -/
namespace LocalPlay

namespace Slots

/-- The payload of every slot, one after the other, if no slot is empty. -/
def whole? (s : Slots) : Option Bytes := (s.cells.toList.mapM id).map List.flatten

theorem whole?_eq_contents {s : Slots} (h : ∀ cell ∈ s.cells.toList, cell.isSome) : s.whole? = some s.contents := by
  have hm : ∀ l : List (Option Bytes), (∀ cell ∈ l, cell.isSome) → l.mapM id = some (l.filterMap id) := by
    intro l hl
    induction l with
    | nil => rfl
    | cons cell rest ih =>
      obtain ⟨payload, rfl⟩ := Option.isSome_iff_exists.mp (hl cell List.mem_cons_self)
      have hr := ih fun c hc => hl c (List.mem_cons_of_mem _ hc)
      simp [List.mapM_cons, hr]
  rw [whole?, hm _ h, contents_eq_flatten]
  rfl

end Slots

namespace Reassembly.Table

/-- Add a fragment to the entry that the table holds for its message. -/
def extendChecked (t : Table) (p : Packet) : Option (Except SessionError (Option Bytes) × Table) := do
  let key := p.header.key
  let index := p.header.fragmentIndex.toNat
  let e ← t.pending.find? key
  if e.fragmentCount ≠ p.header.fragmentCount then
    return (.error (.protocol (.fragmentCountMismatch e.fragmentCount p.header.fragmentCount)), t.drop key)
  let cell ← e.slots.cells[index]?
  if cell.isSome then return (.ok none, t)
  let grown := e.store index p.payload
  let t := t.put key grown
  if t.maxMessageSize < grown.size then return (.error (.messageTooLarge grown.size), t.drop key)
  if !grown.isComplete then return (.ok none, t)
  let removed ← t.pending.find? key
  let message ← removed.slots.whole?
  return (.ok (some message), t.drop key)

def insertChecked (t : Table) (p : Packet) (now : Nat) : Option (Except SessionError (Option Bytes) × Table) :=
  match fault? p.header with
  | some cause => some (.error (.protocol cause), t)
  | none =>
    let key := p.header.key
    let count := p.header.fragmentCount
    if t.contains key then t.extendChecked p
    else if count = 1 then
      if t.maxMessageSize < p.payload.length then some (.error (.messageTooLarge p.payload.length), t)
      else some (.ok (some p.payload), t)
    else if t.maxPending ≤ t.size then some (.error (.tableFull t.maxPending), t)
    else (t.put key (.new count now)).extendChecked p

variable {t : Table} {p : Packet} {e : Pending}

private theorem extendChecked_eq (hk : t.pending.find? p.header.key = some e)
    (hc : e.fragmentCount = p.header.fragmentCount) (he : e.Consistent)
    (hi : p.header.fragmentIndex.toNat < e.fragmentCount.toNat) :
    t.extendChecked p = some (t.extend e p) := by
  have hs : p.header.fragmentIndex.toNat < e.slots.size := he.size_slots.symm ▸ hi
  have hb : e.slots.cells[p.header.fragmentIndex.toNat]? = some (e.slots.get? p.header.fragmentIndex.toNat) := by
    rw [Slots.get?, Array.getElem?_eq_getElem hs]
    rfl
  simp only [extendChecked, extend, hk, hc, hb, Option.bind_eq_bind, Option.bind_some, ne_eq,
    not_true_eq_false, if_false]
  cases hg : e.slots.get? p.header.fragmentIndex.toNat with
  | some payload => rfl
  | none =>
    by_cases hl : t.maxMessageSize < (e.store p.header.fragmentIndex.toNat p.payload).size
    · simp [put, hl, drop]
    · by_cases hd : (e.store p.header.fragmentIndex.toNat p.payload).isComplete = true
      · have hr := (he.store hi hg p.payload).complete_iff.mp (by simpa [Pending.isComplete] using hd)
        have hw := Slots.whole?_eq_contents (Slots.forall_isSome_iff.mpr hr)
        simp [put, hl, hd, hw, drop]
      · simp [put, hl, hd]

/-- On a well-formed table no test of a checked insertion fails. -/
theorem WellFormed.insertChecked_eq (h : t.WellFormed) (p : Packet) (now : Nat) :
    t.insertChecked p now = some (t.insert p now) := by
  simp only [insertChecked, insert, contains, KeyedList.contains]
  cases hf : fault? p.header with
  | some cause => rfl
  | none =>
    obtain ⟨-, hi, hm⟩ := fault?_eq_none_iff.mp hf
    rcases Option.eq_none_or_eq_some (t.pending.find? p.header.key) with hk | ⟨e, hk⟩
    · simp only [hk, openEntry, Option.isSome_none, Bool.false_eq_true, if_false]
      by_cases hc : p.header.fragmentCount = 1
      · simp only [if_pos hc]
        split <;> rfl
      by_cases hr : t.maxPending ≤ t.size
      · simp [hc, hr]
      · have ha : t.Admits p now (.new p.header.fragmentCount now) := .inr ⟨hk, hc, Nat.not_le.mp hr, rfl⟩
        simp only [if_neg hc, if_neg hr]
        rw [extendChecked_eq (find?_put_self ..) rfl (ha.consistent h hf) (ha.index_lt hf),
          extend_put (Slots.get?_empty ..)]
    · by_cases hc : e.fragmentCount = p.header.fragmentCount
      · have he := (h.entries hk).toConsistent
        have hi := UInt32.lt_iff_toNat_lt.mp hi
        simp [hk, hc, extendChecked_eq hk hc he (hc ▸ hi)]
      · simp [extendChecked, hk, hc]

/-- The bytes that all entries hold. -/
def bufferedBytes (t : Table) : Nat :=
  (t.pending.entries.map fun entry => (entry.2.slots.payloads.map List.length).sum).sum

theorem WellFormed.bufferedBytes_le (h : t.WellFormed) : t.bufferedBytes ≤ t.maxPending * t.maxMessageSize := by
  have hb : ∀ n ∈ t.pending.entries.map fun entry => (entry.2.slots.payloads.map List.length).sum,
      n ≤ t.maxMessageSize := by
    intro n hn
    obtain ⟨⟨key, e⟩, he, rfl⟩ := List.mem_map.mp hn
    have hw := h.entries (KeyedList.find?_eq_some_iff.mpr he)
    exact hw.size_eq ▸ hw.size_le
  calc
    t.bufferedBytes ≤ t.pending.entries.length * t.maxMessageSize := by
      simpa [bufferedBytes] using List.sum_le_card_nsmul _ _ hb
    _ ≤ t.maxPending * t.maxMessageSize := Nat.mul_le_mul_right _ h.size_le

/-- Whatever is done to an empty table, it keeps its limits, the counters of its entries say what their slots
hold, and it takes any packet without an access that fails. -/
theorem run_new_wellFormed (timeout maxPending maxMessageSize : Nat) (ops : List Op) :
    let t := ((new timeout maxPending maxMessageSize).run ops).2
    t.size ≤ maxPending ∧
      (∀ key e, t.pending.find? key = some e → e.WellFormed maxMessageSize) ∧
      (∀ p now, t.insertChecked p now = some (t.insert p now)) ∧
      t.bufferedBytes ≤ maxPending * maxMessageSize := by
  intro t
  have h : t.WellFormed := (WellFormed.of_new timeout maxPending maxMessageSize).run ops
  obtain ⟨-, hp, hm⟩ := sameLimits_run (new timeout maxPending maxMessageSize) ops
  change t.maxPending = maxPending at hp
  change t.maxMessageSize = maxMessageSize at hm
  rw [← hp, ← hm]
  exact ⟨h.size_le, fun _ _ => h.entries, h.insertChecked_eq, h.bufferedBytes_le⟩

end Reassembly.Table
end LocalPlay
