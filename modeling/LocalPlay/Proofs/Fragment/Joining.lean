import Mathlib.Algebra.Order.BigOperators.Group.List
import Mathlib.Algebra.Order.Ring.Nat
import Mathlib.Data.List.Nodup
import LocalPlay.Fragment.Join

/-! Joining, step by step undone: fragments are joined exactly if each belongs to the message, no index comes twice and
there are as many as they say. By counting, every slot is then filled, so that nothing is left out of the message. -/
namespace LocalPlay

/-- The places of these fragments in their message. -/
def Fragment.indices (ps : List Packet) : List Nat := ps.map (·.header.fragmentIndex.toNat)

theorem Fragment.indices_cons (p : Packet) (ps : List Packet) :
    indices (p :: ps) = p.header.fragmentIndex.toNat :: indices ps := rfl

theorem Fragment.nodup_indices_iff {ps : List Packet} :
    (indices ps).Nodup ↔ (ps.map (·.header.fragmentIndex)).Nodup := by
  have hm : indices ps = (ps.map (·.header.fragmentIndex)).map UInt32.toNat := by simp [indices]
  rw [hm]
  exact List.nodup_map_iff fun _ _ h => UInt32.toNat_inj.mp h

namespace Slots
open Fragment (indices indices_cons)
variable {s s' : Slots} {p : Packet} {ps : List Packet} {i j : Nat}

/-- Put the payload of each packet into its slot, the last one winning. -/
def fillAll (s : Slots) (ps : List Packet) : Slots :=
  ps.foldl (fun s p => s.fill p.header.fragmentIndex.toNat p.payload) s

@[simp] theorem fillAll_nil (s : Slots) : s.fillAll [] = s := rfl

@[simp] theorem fillAll_cons (s : Slots) (p : Packet) (ps : List Packet) :
    s.fillAll (p :: ps) = (s.fill p.header.fragmentIndex.toNat p.payload).fillAll ps := rfl

/-- Filling one slot leaves the others empty. -/
theorem empty_fill_iff (hi : i < s.size) (payload : Bytes) {others : List Nat} :
    (∀ j ∈ others, (s.fill i payload).get? j = none) ↔ i ∉ others ∧ ∀ j ∈ others, s.get? j = none := by
  constructor
  · intro h
    refine ⟨fun hm => ?_, fun j hj => ?_⟩
    · have hn := h i hm
      simp [get?_fill hi] at hn
    · have hn := h j hj
      rw [get?_fill hi] at hn
      split at hn
      · simp at hn
      · exact hn
  · rintro ⟨hm, h⟩ j hj
    rw [get?_fill_of_ne s (by rintro rfl; exact hm hj)]
    exact h j hj

theorem length_contents_fill (hi : i < s.size) (he : s.get? i = none) (payload : Bytes) :
    (s.fill i payload).contents.length = s.contents.length + payload.length := by
  obtain ⟨before, behind, hp, hq⟩ := payloads_fill hi he payload
  simp only [contents_eq_flatten, hp, hq, List.flatten_append, List.flatten_cons, List.length_append]
  omega

/-- Payloads that go into different empty slots all stay. -/
theorem length_contents_fillAll (hb : ∀ i ∈ indices ps, i < s.size) (he : ∀ i ∈ indices ps, s.get? i = none)
    (hn : (indices ps).Nodup) :
    (s.fillAll ps).contents.length = s.contents.length + (ps.map (·.payload.length)).sum := by
  induction ps generalizing s with
  | nil => simp
  | cons p rest ih =>
    rw [indices_cons, List.forall_mem_cons] at hb he
    obtain ⟨hp, hr⟩ := List.nodup_cons.mp hn
    have hrest := ih (s := s.fill p.header.fragmentIndex.toNat p.payload) (by simpa only [size_fill] using hb.2)
      ((empty_fill_iff hb.1 p.payload).mpr ⟨hp, he.2⟩) hr
    rw [fillAll_cons, hrest, length_contents_fill hb.1 he.1, List.map_cons, List.sum_cons, Nat.add_assoc]

end Slots

namespace Fragment
variable {p : Packet} {ps : List Packet} {s s' : Slots} {count : UInt32} {message : Bytes}

theorem fault?_eq_none_iff :
    fault? count p = none ↔
      p.header.isFragment = true ∧ p.header.fragmentCount = count ∧ p.header.fragmentIndex < count := by
  simp only [fault?]
  by_cases hf : p.header.isFragment = true
  case neg => simp [hf]
  by_cases hc : p.header.fragmentCount = count
  case neg => simp [hf, hc]
  by_cases hi : count ≤ p.header.fragmentIndex
  case pos => simp [hf, hc, hi, UInt32.not_lt.mpr hi]
  simp [hf, hc, hi, UInt32.not_le.mp hi]

theorem indices_lt_of_fault?_eq_none (h : ∀ p ∈ ps, fault? count p = none) :
    ∀ i ∈ indices ps, i < count.toNat := by
  intro i hi
  obtain ⟨p, hp, rfl⟩ := List.mem_map.mp hi
  exact UInt32.lt_iff_toNat_lt.mp (fault?_eq_none_iff.mp (h p hp)).2.2

/-- Placing succeeds exactly if each packet has an empty slot of its own. -/
theorem place_eq_ok_iff (hb : ∀ i ∈ indices ps, i < s.size) :
    place s ps = .ok s' ↔ (∀ i ∈ indices ps, s.get? i = none) ∧ (indices ps).Nodup ∧ s' = s.fillAll ps := by
  induction ps generalizing s with
  | nil => simp [place, indices, eq_comm]
  | cons p rest ih =>
    rw [indices_cons, List.forall_mem_cons] at hb
    simp only [place, indices_cons, List.forall_mem_cons, List.nodup_cons]
    cases hs : s.get? p.header.fragmentIndex.toNat with
    | some payload => simp
    | none =>
      have hr : ∀ i ∈ indices rest, i < (s.fill p.header.fragmentIndex.toNat p.payload).size := by
        simpa only [Slots.size_fill] using hb.2
      simp only [Option.isSome_none, Bool.false_eq_true, if_false, ih hr, Slots.empty_fill_iff hb.1,
        Slots.fillAll_cons, true_and]
      tauto

/-- Of different indices below a bound there are no more than the bound. -/
theorem length_le_of_indices_lt {n : Nat} (hb : ∀ i ∈ indices ps, i < n) (hn : (indices ps).Nodup) : ps.length ≤ n := by
  have hs : indices ps ⊆ List.range n := fun i hi => List.mem_range.mpr (hb i hi)
  simpa [indices] using hn.length_le_of_subset hs

/-- Nothing of fragments that belong to a message is lost in it. -/
theorem length_contents_fillAll_empty (hf : ∀ p ∈ ps, fault? count p = none) (hn : (indices ps).Nodup) :
    ((Slots.empty count.toNat).fillAll ps).contents.length = (ps.map (·.payload.length)).sum := by
  have hb : ∀ i ∈ indices ps, i < (Slots.empty count.toNat).size := by
    rw [Slots.size_empty]
    exact indices_lt_of_fault?_eq_none hf
  have he : ∀ i ∈ indices ps, (Slots.empty count.toNat).get? i = none := fun i _ => Slots.get?_empty _ i
  rw [Slots.length_contents_fillAll hb he hn, Slots.contents_empty, List.length_nil, Nat.zero_add]

/-- Fragments are joined exactly if they all belong to a message of so many and each index comes once. -/
theorem join_eq_ok_iff {first : Packet} {rest : List Packet} :
    join (first :: rest) = .ok message ↔
      (∀ p ∈ first :: rest, fault? first.header.fragmentCount p = none) ∧ (indices (first :: rest)).Nodup ∧
        (first :: rest).length = first.header.fragmentCount.toNat ∧
        message = ((Slots.empty first.header.fragmentCount.toNat).fillAll (first :: rest)).contents := by
  simp only [join]
  generalize first :: rest = ps
  generalize first.header.fragmentCount = count
  cases hf : ps.findSome? (fault? count) with
  | some cause =>
    obtain ⟨p, hp, hc⟩ := List.exists_of_findSome?_eq_some hf
    simp only [reduceCtorEq, false_iff]
    rintro ⟨hall, -⟩
    simp [hall p hp] at hc
  | none =>
    have hall : ∀ p ∈ ps, fault? count p = none := by simpa using hf
    have hlt := indices_lt_of_fault?_eq_none hall
    have hb : ∀ i ∈ indices ps, i < (Slots.empty count.toNat).size := by rwa [Slots.size_empty]
    have hplace (s' : Slots) : place (Slots.empty count.toNat) ps = .ok s' ↔ _ := place_eq_ok_iff hb
    simp only [Slots.get?_empty, implies_true, true_and] at hplace
    by_cases hl : ps.length < count.toNat
    · simp only [if_pos hl, reduceCtorEq, false_iff]
      rintro ⟨-, -, hn, -⟩
      omega
    · -- not too few, and with no index twice not too many
      simp only [if_neg hl]
      cases hr : place (Slots.empty count.toNat) ps with
      | error cause =>
        simp only [Except.map, reduceCtorEq, false_iff]
        rintro ⟨-, hn, -⟩
        have hok := (hplace _).mpr ⟨hn, rfl⟩
        simp [hr] at hok
      | ok filled =>
        obtain ⟨hn, rfl⟩ := (hplace _).mp hr
        have hle := length_le_of_indices_lt hlt hn
        simp only [Except.map, Except.ok.injEq]
        constructor
        · rintro rfl
          exact ⟨hall, hn, by omega, rfl⟩
        · rintro ⟨-, -, -, rfl⟩
          rfl

end Fragment
end LocalPlay
