import Mathlib.Algebra.Order.BigOperators.Group.List
import Mathlib.Algebra.Order.Ring.Nat
import LocalPlay.Proofs.Machine
import LocalPlay.Proofs.Reassembly.Insertion

/-! The representation invariant of the table: what its counters say of its slots, and the limits that it keeps.
Every insertion, sweep and clearing keeps it, so every table that a run leaves has it. -/
namespace LocalPlay.Reassembly

/-- The counters of an entry agree with its slots. -/
structure Pending.Consistent (e : Pending) : Prop where
  two_le : 2 ≤ e.fragmentCount.toNat
  le_max : e.fragmentCount.toNat ≤ maxFragments
  size_slots : e.slots.size = e.fragmentCount.toNat
  received_eq : e.received = e.slots.payloads.length
  size_eq : e.size = (e.slots.payloads.map List.length).sum

/-- An entry that waits: something has come, something is missing, and it is not too long. -/
structure Pending.WellFormed (limit : Nat) (e : Pending) : Prop extends e.Consistent where
  received_pos : 1 ≤ e.received
  received_lt : e.received < e.fragmentCount.toNat
  size_le : e.size ≤ limit

structure Table.WellFormed (t : Table) : Prop where
  size_le : t.size ≤ t.maxPending
  entries : ∀ {key e}, t.pending.find? key = some e → e.WellFormed t.maxMessageSize

namespace Pending

theorem Consistent.of_new {count : UInt32} (now : Nat) (h2 : 2 ≤ count.toNat) (hm : count.toNat ≤ maxFragments) :
    (new count now).Consistent where
  two_le := h2
  le_max := hm
  size_slots := Slots.size_empty _
  received_eq := by simp [new]
  size_eq := by simp [new]

theorem Consistent.store {e : Pending} (h : e.Consistent) {index : Nat} (hi : index < e.fragmentCount.toNat)
    (hs : e.slots.get? index = none) (payload : Bytes) : (e.store index payload).Consistent := by
  obtain ⟨before, behind, hp, hq⟩ := Slots.payloads_fill (h.size_slots ▸ hi) hs payload
  refine ⟨h.two_le, h.le_max, (Slots.size_fill ..).trans h.size_slots, ?_, ?_⟩
  · have hr := h.received_eq
    simp only [Pending.store, hq, hp, hr, List.length_append, List.length_cons]
    omega
  · have hb := h.size_eq
    simp only [Pending.store, hq, hp, hb, List.map_append, List.map_cons, List.sum_append, List.sum_cons]
    omega

theorem Consistent.length_contents {e : Pending} (h : e.Consistent) : e.slots.contents.length = e.size := by
  rw [Slots.contents_eq_flatten, List.length_flatten, h.size_eq]

/-- An entry is complete exactly if none of its slots is empty. -/
theorem Consistent.complete_iff {e : Pending} (h : e.Consistent) :
    e.received = e.slots.size ↔ ∀ i < e.slots.size, (e.slots.get? i).isSome := by
  rw [h.received_eq, Slots.length_payloads_eq_size_iff, Slots.forall_isSome_iff]

theorem isSome_get?_store {e : Pending} {index : Nat} (hi : index < e.slots.size) (payload : Bytes) (i : Nat) :
    ((e.store index payload).slots.get? i).isSome ↔ (e.slots.get? i).isSome ∨ i = index := by
  rw [Pending.store, Slots.get?_fill hi]
  by_cases hj : index = i
  · simp [hj]
  · simp [hj, Ne.symm hj]

/-- An entry that is not complete after one more fragment still waits. -/
theorem Consistent.wellFormed_store {e : Pending} (h : e.Consistent) {index limit : Nat} {payload : Bytes}
    (hi : index < e.fragmentCount.toNat) (hs : e.slots.get? index = none)
    (hl : e.size + payload.length ≤ limit) (hd : e.received + 1 ≠ e.slots.size) :
    (e.store index payload).WellFormed limit := by
  have hc := h.store hi hs payload
  have hp : (e.store index payload).received ≤ (e.store index payload).slots.size :=
    hc.received_eq ▸ Slots.length_payloads_le _
  have hle : e.received + 1 ≤ e.slots.size := by rwa [Pending.store, Slots.size_fill] at hp
  have hn := h.size_slots
  refine ⟨hc, Nat.le_add_left 1 e.received, ?_, hl⟩
  change e.received + 1 < e.fragmentCount.toNat
  omega

end Pending

namespace Table
variable {t t' : Table} {p : Packet} {now : Nat} {answer : Except SessionError (Option Bytes)} {e : Pending}

theorem WellFormed.of_new (timeout maxPending maxMessageSize : Nat) :
    (new timeout maxPending maxMessageSize).WellFormed where
  size_le := Nat.zero_le _
  entries := by
    intro key e h
    simp [new] at h

theorem Admits.index_lt (he : t.Admits p now e) (hf : fault? p.header = none) :
    p.header.fragmentIndex.toNat < e.fragmentCount.toNat := by
  have hi := UInt32.lt_iff_toNat_lt.mp (fault?_eq_none_iff.mp hf).2.1
  rcases he with ⟨-, hc⟩ | ⟨-, -, -, rfl⟩
  · rwa [hc]
  · exact hi

/-- The entry that takes a fragment has consistent counters, new or not. -/
theorem Admits.consistent (h : t.WellFormed) (hf : fault? p.header = none) (he : t.Admits p now e) :
    e.Consistent := by
  rcases he with ⟨hk, -⟩ | ⟨-, hc, -, rfl⟩
  · exact (h.entries hk).toConsistent
  · obtain ⟨-, hi, hm⟩ := fault?_eq_none_iff.mp hf
    have hi := UInt32.lt_iff_toNat_lt.mp hi
    have hne : p.header.fragmentCount.toNat ≠ 1 := fun h1 => hc (UInt32.toNat_inj.mp h1)
    exact .of_new now (by omega) hm

theorem WellFormed.drop (h : t.WellFormed) (key : MessageKey) : (t.drop key).WellFormed where
  size_le := Nat.le_trans (KeyedList.size_filter_le ..) h.size_le
  entries := by
    intro k e hk
    by_cases hkey : k = key
    · subst hkey
      simp at hk
    · exact h.entries (by rwa [find?_drop_of_ne t hkey] at hk)

/-- Room is needed only for a key that the table does not hold yet. -/
theorem Admits.size_insert_le (h : t.WellFormed) (he : t.Admits p now e) (e' : Pending) :
    (t.pending.insert p.header.key e').size ≤ t.maxPending := by
  rw [KeyedList.size_insert]
  rcases he with ⟨hk, -⟩ | ⟨hk, -, hr, -⟩
  · have hlt := KeyedList.size_erase_lt hk
    have hle : t.pending.size ≤ t.maxPending := h.size_le
    omega
  · rw [KeyedList.erase_of_find?_eq_none hk]
    exact hr

theorem Insertion.wellFormed (h : t.WellFormed) (hi : Insertion t p now answer t') : t'.WellFormed := by
  cases hi with
  | refused | aloneTooLong | alone | full | repeated => exact h
  | contradicted | outgrown | completed => exact h.drop _
  | stored hf he hs hl hd =>
    refine ⟨he.size_insert_le h _, ?_⟩
    intro key e' hk
    by_cases hkey : key = p.header.key
    · subst hkey
      obtain rfl := Option.some.inj ((find?_put_self ..).symm.trans hk)
      exact (he.consistent h hf).wellFormed_store (he.index_lt hf) hs hl hd
    · exact h.entries (by rwa [find?_put_of_ne t _ hkey] at hk)

theorem find?_sweep (t : Table) (now : Nat) (key : MessageKey) :
    (t.sweep now).2.pending.find? key =
      (t.pending.find? key).filter fun e => !e.isOlderThan t.timeout now :=
  KeyedList.find?_filter ..

theorem WellFormed.sweep (h : t.WellFormed) (now : Nat) : (t.sweep now).2.WellFormed where
  size_le := Nat.le_trans (KeyedList.size_filter_le ..) h.size_le
  entries := by
    intro key e hk
    rw [find?_sweep, Option.filter_eq_some_iff] at hk
    exact h.entries hk.1

theorem WellFormed.step (h : t.WellFormed) (op : Op) : (t.step op).2.WellFormed := by
  cases op with
  | insert p now => exact (insertion t p now).wellFormed h
  | sweep now => exact h.sweep now
  | clear => exact .of_new t.timeout t.maxPending t.maxMessageSize

theorem WellFormed.run (h : t.WellFormed) (ops : List Op) : (t.run ops).2.WellFormed := by
  rw [run_eq]
  exact (Machine.run_invariant WellFormed (fun _ _ => True) (fun op _ _ hs => ⟨trivial, hs.step op⟩) h).2

/-- The limits of a table. They are fixed when it is made. -/
def SameLimits (t t' : Table) : Prop :=
  t'.timeout = t.timeout ∧ t'.maxPending = t.maxPending ∧ t'.maxMessageSize = t.maxMessageSize

theorem SameLimits.refl (t : Table) : t.SameLimits t := ⟨rfl, rfl, rfl⟩

theorem SameLimits.symm (h : t.SameLimits t') : t'.SameLimits t := ⟨h.1.symm, h.2.1.symm, h.2.2.symm⟩

theorem SameLimits.trans {t'' : Table} (h : t.SameLimits t') (h' : t'.SameLimits t'') : t.SameLimits t'' :=
  ⟨h'.1.trans h.1, h'.2.1.trans h.2.1, h'.2.2.trans h.2.2⟩

theorem Insertion.sameLimits (h : Insertion t p now answer t') : t.SameLimits t' :=
  ⟨h.timeout_eq, h.maxPending_eq, h.maxMessageSize_eq⟩

theorem sameLimits_step (t : Table) (op : Op) : t.SameLimits (t.step op).2 := by
  cases op with
  | insert p now => exact (insertion t p now).sameLimits
  | sweep | clear => exact .refl t

theorem sameLimits_run (t : Table) (ops : List Op) : t.SameLimits (t.run ops).2 := by
  rw [run_eq]
  exact (Machine.run_invariant t.SameLimits (fun _ _ => True)
    (fun op _ s hs => ⟨trivial, hs.trans (sameLimits_step s op)⟩) (.refl t)).2

end Table
end LocalPlay.Reassembly
