import Mathlib.Data.List.Induction
import Mathlib.Data.List.Perm.Subperm
import LocalPlay.Fragment.Split
import LocalPlay.Proofs.Fragment.Joining
import LocalPlay.Proofs.Reassembly.Checked

/-! Joining accepts complete sets of fragments and nothing else. No slot is looked at to see whether it is filled: with
different indices below the number of fragments, and as many fragments as that, each index must come. -/
namespace LocalPlay

namespace Slots
open Fragment (indices indices_cons)
variable {s : Slots} {p : Packet} {ps : List Packet} {i : Nat}

@[simp] theorem size_fillAll (s : Slots) (ps : List Packet) : (s.fillAll ps).size = s.size := by
  induction ps generalizing s with
  | nil => rfl
  | cons p rest ih => rw [fillAll_cons, ih, size_fill]

theorem get?_fillAll_of_notMem (h : i ∉ indices ps) : (s.fillAll ps).get? i = s.get? i := by
  induction ps generalizing s with
  | nil => rfl
  | cons p rest ih =>
    obtain ⟨hp, hr⟩ := List.ne_and_not_mem_of_not_mem_cons h
    rw [fillAll_cons, ih hr, get?_fill_of_ne s (Ne.symm hp)]

/-- Each of these packets is found in its slot if no other one has the same index. -/
theorem get?_fillAll_of_mem (hn : (indices ps).Nodup) (hp : p ∈ ps) (hi : p.header.fragmentIndex.toNat < s.size) :
    (s.fillAll ps).get? p.header.fragmentIndex.toNat = some p.payload := by
  induction ps generalizing s with
  | nil => simp at hp
  | cons q rest ih =>
    obtain ⟨hq, hr⟩ := List.nodup_cons.mp hn
    rw [fillAll_cons]
    rcases List.mem_cons.mp hp with rfl | hp
    · rw [get?_fillAll_of_notMem hq, get?_fill hi, if_pos rfl]
    · exact ih hr hp (by rwa [size_fill])

end Slots

namespace Fragment
variable {p : Packet} {ps qs : List Packet} {s : Slots} {count : UInt32} {message : Bytes}

/-- These packets in the order of their indices. -/
def ordered (ps : List Packet) : List Packet :=
  ps.mergeSort fun p q => p.header.fragmentIndex.toNat ≤ q.header.fragmentIndex.toNat

/-- The payloads in the order of the indices, one after the other. -/
def concatenated (ps : List Packet) : Bytes := (ordered ps).flatMap Packet.payload

/-- All fragments of a message of so many, in any order. -/
structure Complete (count : UInt32) (ps : List Packet) : Prop where
  nonempty : ps ≠ []
  belong : ∀ p ∈ ps, p.header.isFragment = true ∧ p.header.fragmentCount = count
  indices : (indices ps).Perm (List.range count.toNat)

theorem pairwise_ordered (ps : List Packet) :
    (ordered ps).Pairwise fun p q => p.header.fragmentIndex.toNat ≤ q.header.fragmentIndex.toNat := by
  have hp : (ordered ps).Pairwise fun p q => decide (p.header.fragmentIndex.toNat ≤ q.header.fragmentIndex.toNat) :=
    List.pairwise_mergeSort (by grind) (by grind) ps
  simpa only [decide_eq_true_eq] using hp

theorem ordered_perm (ps : List Packet) : (ordered ps).Perm ps := List.mergeSort_perm ..

/-- Packets with different indices have one order. -/
theorem ordered_eq_of_perm (hn : (indices ps).Nodup) (h : ps.Perm qs) : ordered qs = ordered ps := by
  refine List.Perm.eq_of_pairwise ?_ (pairwise_ordered qs) (pairwise_ordered ps)
    ((ordered_perm qs).trans (h.symm.trans (ordered_perm ps).symm))
  intro p q hp hq hle hge
  have hp := h.symm.subset ((ordered_perm qs).subset hp)
  have hq := (ordered_perm ps).subset hq
  exact List.inj_on_of_nodup_map hn hp hq (Nat.le_antisymm hle hge)

theorem ordered_of_indices {n : Nat} (h : indices ps = List.range n) : ordered ps = ps := by
  apply List.mergeSort_of_pairwise
  have hp : (indices ps).Pairwise (· ≤ ·) := h ▸ List.pairwise_le_range
  simpa [indices, List.pairwise_map] using hp

theorem Complete.perm (h : Complete count ps) (hp : ps.Perm qs) : Complete count qs where
  nonempty := by
    rintro rfl
    exact h.nonempty hp.eq_nil
  belong := fun p hq => h.belong p (hp.symm.subset hq)
  indices := (hp.symm.map _).trans h.indices

theorem Complete.nodup (h : Complete count ps) : (Fragment.indices ps).Nodup :=
  h.indices.nodup_iff.mpr List.nodup_range

theorem Complete.fault?_eq_none (h : Complete count ps) : ∀ p ∈ ps, fault? count p = none := by
  intro p hp
  obtain ⟨hf, hc⟩ := h.belong p hp
  have hi := h.indices.subset (List.mem_map.mpr ⟨p, hp, rfl⟩)
  exact fault?_eq_none_iff.mpr ⟨hf, hc, UInt32.lt_iff_toNat_lt.mpr (List.mem_range.mp hi)⟩

/-- As many fragments as the message has, with different indices, are all of them. -/
theorem Complete.of_nodup (hne : ps ≠ []) (hf : ∀ p ∈ ps, fault? count p = none) (hn : (Fragment.indices ps).Nodup)
    (hl : count.toNat ≤ ps.length) : Complete count ps where
  nonempty := hne
  belong := fun p hp => ⟨(fault?_eq_none_iff.mp (hf p hp)).1, (fault?_eq_none_iff.mp (hf p hp)).2.1⟩
  indices := by
    have hs : Fragment.indices ps ⊆ List.range count.toNat := fun i hi =>
      List.mem_range.mpr (indices_lt_of_fault?_eq_none hf i hi)
    apply (hn.subperm hs).perm_of_length_le
    simpa [Fragment.indices] using hl

/-- The indices in order are all numbers below the number of fragments. -/
theorem Complete.indices_ordered (h : Complete count ps) : Fragment.indices (ordered ps) = List.range count.toNat := by
  have hp : (Fragment.indices (ordered ps)).Pairwise (· ≤ ·) := List.pairwise_map.mpr (pairwise_ordered ps)
  exact List.Perm.eq_of_pairwise (fun _ _ _ _ => Nat.le_antisymm) hp List.pairwise_le_range
    (((ordered_perm ps).map _).trans h.indices)

theorem Complete.get?_fillAll (h : Complete count ps) (hp : p ∈ ps) :
    ((Slots.empty count.toNat).fillAll ps).get? p.header.fragmentIndex.toNat = some p.payload := by
  apply Slots.get?_fillAll_of_mem h.nodup hp
  rw [Slots.size_empty]
  exact indices_lt_of_fault?_eq_none h.fault?_eq_none _ (List.mem_map.mpr ⟨p, hp, rfl⟩)

/-- No slot stays empty. -/
theorem Complete.isSome_fillAll (h : Complete count ps) :
    ∀ cell ∈ ((Slots.empty count.toNat).fillAll ps).cells.toList, cell.isSome := by
  rw [Slots.forall_isSome_iff, Slots.size_fillAll, Slots.size_empty]
  intro i hi
  obtain ⟨p, hp, rfl⟩ := List.mem_map.mp (h.indices.symm.subset (List.mem_range.mpr hi))
  rw [h.get?_fillAll hp]
  rfl

/-- The slots hold the payloads in order. -/
theorem Complete.contents_fillAll (h : Complete count ps) :
    ((Slots.empty count.toNat).fillAll ps).contents = concatenated ps := by
  rw [Slots.contents_eq_flatMap, Slots.size_fillAll, Slots.size_empty, ← h.indices_ordered, Fragment.indices,
    List.flatMap_map, concatenated]
  apply List.flatMap_congr
  intro p hp
  rw [h.get?_fillAll ((ordered_perm ps).subset hp)]
  rfl

theorem join_eq_ok_iff_complete : join ps = .ok message ↔ ∃ count, Complete count ps ∧ message = concatenated ps := by
  rcases ps with _ | ⟨first, rest⟩
  · simp only [join, reduceCtorEq, false_iff]
    rintro ⟨_, h, -⟩
    exact h.nonempty rfl
  rw [join_eq_ok_iff]
  constructor
  · rintro ⟨hf, hn, hl, rfl⟩
    have hc := Complete.of_nodup (List.cons_ne_nil first rest) hf hn (Nat.le_of_eq hl.symm)
    exact ⟨_, hc, hc.contents_fillAll⟩
  · rintro ⟨count, h, rfl⟩
    obtain rfl := (h.belong first List.mem_cons_self).2
    refine ⟨h.fault?_eq_none, h.nodup, ?_, h.contents_fillAll.symm⟩
    simpa [Fragment.indices] using h.indices.length_eq

theorem Complete.join_eq (h : Complete count ps) : join ps = .ok (concatenated ps) :=
  join_eq_ok_iff_complete.mpr ⟨count, h, rfl⟩

/-- A list in which an index comes twice has a first packet that repeats one. -/
theorem exists_first_repeat (h : ¬ (indices ps).Nodup) :
    ∃ before p after, ps = before ++ p :: after ∧ (indices before).Nodup ∧
      p.header.fragmentIndex.toNat ∈ indices before := by
  induction ps using List.reverseRecOn with
  | nil => simp [indices] at h
  | append_singleton before p ih =>
    by_cases hn : (indices before).Nodup
    · refine ⟨before, p, [], rfl, hn, ?_⟩
      by_contra hp
      apply h
      rw [indices, List.map_append]
      exact hn.append (List.nodup_singleton _) (by simpa [indices] using hp)
    · obtain ⟨earlier, q, later, rfl, hq⟩ := ih hn
      exact ⟨earlier, q, later ++ [p], by simp, hq⟩

theorem place_append (s : Slots) (ps qs : List Packet) :
    place s (ps ++ qs) = (place s ps).bind fun s => place s qs := by
  induction ps generalizing s with
  | nil => rfl
  | cons p rest ih =>
    simp only [List.cons_append, place, ih]
    split <;> rfl

/-- The first packet that finds its slot filled is reported. -/
theorem place_of_repeat {before after : List Packet} (hb : ∀ i ∈ indices (before ++ p :: after), i < s.size)
    (he : ∀ i ∈ indices before, s.get? i = none) (hn : (indices before).Nodup)
    (hp : p.header.fragmentIndex.toNat ∈ indices before) :
    place s (before ++ p :: after) = .error (.duplicateFragment p.header.fragmentIndex) := by
  rw [indices, List.map_append, List.forall_mem_append] at hb
  have hplace := (place_eq_ok_iff hb.1).mpr ⟨he, hn, rfl⟩
  obtain ⟨q, hq, hi⟩ := List.mem_map.mp hp
  have hfilled := Slots.get?_fillAll_of_mem hn hq (hb.1 _ (List.mem_map.mpr ⟨q, hq, rfl⟩))
  rw [hi] at hfilled
  rw [place_append, hplace]
  simp only [Except.bind, place, hfilled, Option.isSome_some, if_true]

/-- Fragments that belong together, but are not all of them: there are too few, or one repeats another. -/
theorem join_of_incomplete (hne : ps ≠ []) (hf : ∀ p ∈ ps, fault? count p = none) (hc : ¬ Complete count ps) :
    if ps.length < count.toNat then join ps = .error (.missingFragments ps.length count)
    else ∃ before p after, ps = before ++ p :: after ∧ (indices before).Nodup ∧
      p.header.fragmentIndex.toNat ∈ indices before ∧
      join ps = .error (.duplicateFragment p.header.fragmentIndex) := by
  obtain ⟨first, rest, rfl⟩ := List.exists_cons_of_ne_nil hne
  obtain rfl := (fault?_eq_none_iff.mp (hf first List.mem_cons_self)).2.1
  have hfind : (first :: rest).findSome? (fault? first.header.fragmentCount) = none :=
    List.findSome?_eq_none_iff.mpr hf
  simp only [join, hfind]
  split
  · rfl
  · rename_i hl
    have hn : ¬ (indices (first :: rest)).Nodup := fun hn =>
      hc (.of_nodup hne hf hn (Nat.not_lt.mp hl))
    obtain ⟨before, p, after, hps, hb, hp⟩ := exists_first_repeat hn
    have hlt := indices_lt_of_fault?_eq_none hf
    rw [hps] at hlt ⊢
    rw [place_of_repeat (by rwa [Slots.size_empty]) (fun i _ => Slots.get?_empty _ i) hb hp]
    exact ⟨before, p, after, rfl, hb, hp, rfl⟩

/-- Placing with every access to a slot tested. -/
def placeChecked : Slots → List Packet → Option (Except ProtocolError Slots)
  | slots, [] => some (.ok slots)
  | slots, p :: rest => do
    let index := p.header.fragmentIndex
    let cell ← slots.cells[index.toNat]?
    if cell.isSome then return .error (.duplicateFragment index)
    placeChecked (slots.fill index.toNat p.payload) rest

/-- Joining with every access to a slot tested, the message put together from slots of which none is empty. -/
def joinChecked : List Packet → Option (Except ProtocolError Bytes)
  | [] => some (.error .noFragments)
  | first :: rest =>
    let packets := first :: rest
    let count := first.header.fragmentCount
    match packets.findSome? (fault? count) with
    | some e => some (.error e)
    | none =>
      if packets.length < count.toNat then some (.error (.missingFragments packets.length count))
      else do
        match ← placeChecked (Slots.empty count.toNat) packets with
        | .error e => return .error e
        | .ok slots => return .ok (← slots.whole?)

theorem placeChecked_eq (hb : ∀ i ∈ indices ps, i < s.size) : placeChecked s ps = some (place s ps) := by
  induction ps generalizing s with
  | nil => rfl
  | cons p rest ih =>
    rw [indices_cons, List.forall_mem_cons] at hb
    have hcell : s.cells[p.header.fragmentIndex.toNat]? = some (s.get? p.header.fragmentIndex.toNat) := by
      have hlt : p.header.fragmentIndex.toNat < s.cells.size := hb.1
      simp [Slots.get?, hlt]
    have hrest := ih (s := s.fill p.header.fragmentIndex.toNat p.payload) (by simpa only [Slots.size_fill] using hb.2)
    simp only [placeChecked, place, hcell, hrest, Option.bind_eq_bind, Option.bind_some]
    split <;> rfl

/-- No access to a slot fails, whatever the packets are. -/
theorem joinChecked_eq (ps : List Packet) : joinChecked ps = some (join ps) := by
  rcases ps with _ | ⟨first, rest⟩
  · rfl
  simp only [joinChecked, join]
  generalize hcount : first.header.fragmentCount = count
  cases hf : (first :: rest).findSome? (fault? count) with
  | some cause => rfl
  | none =>
    have hall : ∀ p ∈ first :: rest, fault? count p = none := by simpa using hf
    have hb : ∀ i ∈ indices (first :: rest), i < (Slots.empty count.toNat).size := by
      rw [Slots.size_empty]
      exact indices_lt_of_fault?_eq_none hall
    by_cases hl : (first :: rest).length < count.toNat
    · simp only [if_pos hl]
    · simp only [if_neg hl, placeChecked_eq hb, Option.bind_eq_bind, Option.bind_some]
      cases hp : place (Slots.empty count.toNat) (first :: rest) with
      | error cause => rfl
      | ok slots =>
        obtain ⟨-, hn, rfl⟩ := (place_eq_ok_iff hb).mp hp
        have hc := Complete.of_nodup (List.cons_ne_nil first rest) hall hn (Nat.not_lt.mp hl)
        simp only [Slots.whole?_eq_contents hc.isSome_fillAll, Option.bind_some]
        rfl

/-- Take any list of packets. It is joined exactly if it is all fragments of a message, in any order; the message is made
of their payloads in the order of the indices, and no other order of the list gives another one. Fragments that belong
together but are not all of them are reported as too few, or else the first is named that repeats an index. No slot is
looked for that is not there, and none is empty when the message is put together. -/
theorem join_exact (ps : List Packet) :
    (∀ message, join ps = .ok message ↔ ∃ count, Complete count ps ∧ message = concatenated ps) ∧
      (∀ message qs, join ps = .ok message → ps.Perm qs → join qs = .ok message) ∧
      (∀ count, ps ≠ [] →
        (∀ p ∈ ps, p.header.isFragment = true ∧ p.header.fragmentCount = count ∧ p.header.fragmentIndex < count) →
        ¬ (indices ps).Perm (List.range count.toNat) →
        if ps.length < count.toNat then join ps = .error (.missingFragments ps.length count)
        else ∃ before p after, ps = before ++ p :: after ∧ (indices before).Nodup ∧
          p.header.fragmentIndex.toNat ∈ indices before ∧
          join ps = .error (.duplicateFragment p.header.fragmentIndex)) ∧
      joinChecked ps = some (join ps) := by
  refine ⟨fun message => join_eq_ok_iff_complete, ?_, ?_, joinChecked_eq ps⟩
  · intro message qs h hp
    obtain ⟨count, hc, rfl⟩ := join_eq_ok_iff_complete.mp h
    rw [(hc.perm hp).join_eq, concatenated, ordered_eq_of_perm hc.nodup hp, concatenated]
  · intro count hne hf hn
    exact join_of_incomplete hne (fun p hp => fault?_eq_none_iff.mpr (hf p hp)) fun hc => hn hc.indices

/-- Index 0 comes twice and index 1 never: three packets are enough to name the one that repeats, two are too few. -/
example :
    let part (index : Nat) := packet ⟨⟨7, 1, 2⟩, 0⟩ 0 3 index [1]
    join [part 2, part 0, part 0, part 2] = .error (.duplicateFragment 0) ∧
      join [part 2, part 2] = .error (.missingFragments 2 3) := by
  decide +kernel

end Fragment
end LocalPlay
