import LocalPlay.Bytes.LittleEndian

/-! The slots of a message that is being gathered, one for the payload of each fragment. -/
namespace LocalPlay

/-- A place for each fragment of a message, empty or filled. -/
structure Slots where
  cells : Array (Option Bytes)
  deriving DecidableEq

namespace Slots

/-- So many empty slots. -/
def empty (count : Nat) : Slots := ⟨Array.replicate count none⟩

def size (s : Slots) : Nat := s.cells.size

/-- The payload in a slot, if it is filled. -/
def get? (s : Slots) (i : Nat) : Option Bytes := s.cells[i]?.join

/-- Put a payload into a slot. -/
def fill (s : Slots) (i : Nat) (payload : Bytes) : Slots := ⟨s.cells.setIfInBounds i (some payload)⟩

/-- The payloads of the filled slots, one after the other. -/
def contents (s : Slots) : Bytes := s.cells.toList.flatMap (·.getD [])

/-- The payloads of the filled slots, in order. -/
def payloads (s : Slots) : List Bytes := s.cells.toList.filterMap id

@[simp] theorem size_empty (count : Nat) : (empty count).size = count := by simp [empty, size]

@[simp] theorem size_fill (s : Slots) (i : Nat) (payload : Bytes) : (s.fill i payload).size = s.size := by
  simp [fill, size]

@[simp] theorem get?_empty (count i : Nat) : (empty count).get? i = none := by
  simp only [empty, get?, Array.getElem?_replicate]
  split <;> rfl

/-- A filled slot holds its payload, and the others are as before. -/
theorem get?_fill {s : Slots} {i : Nat} (h : i < s.size) (payload : Bytes) (j : Nat) :
    (s.fill i payload).get? j = if i = j then some payload else s.get? j := by
  simp only [size] at h
  simp only [fill, get?, Array.getElem?_setIfInBounds]
  by_cases hij : i = j
  · subst hij
    simp [h]
  · simp [hij]

theorem get?_fill_of_ne (s : Slots) {i j : Nat} (h : i ≠ j) (payload : Bytes) :
    (s.fill i payload).get? j = s.get? j := by
  simp [fill, get?, h]

@[simp] theorem payloads_empty (count : Nat) : (empty count).payloads = [] := by
  simp [empty, payloads]

theorem contents_eq_flatten (s : Slots) : s.contents = s.payloads.flatten := by
  simp only [contents, payloads]
  induction s.cells.toList with
  | nil => rfl
  | cons cell rest ih => cases cell <;> simp [ih]

@[simp] theorem contents_empty (count : Nat) : (empty count).contents = [] := by
  rw [contents_eq_flatten, payloads_empty, List.flatten_nil]

theorem toList_cells (s : Slots) : s.cells.toList = (List.range s.size).map s.get? := by
  apply List.ext_getElem
  · simp [size]
  · intro i hi _
    have hb : i < s.cells.size := hi
    simp [get?, hb]

/-- The contents slot by slot. -/
theorem contents_eq_flatMap (s : Slots) : s.contents = (List.range s.size).flatMap fun i => (s.get? i).getD [] := by
  rw [contents, toList_cells, List.flatMap_map]

/-- Filling an empty slot puts its payload between those of the slots before and behind it. -/
theorem payloads_fill {s : Slots} {i : Nat} (hi : i < s.size) (he : s.get? i = none) (payload : Bytes) :
    ∃ before behind, s.payloads = before ++ behind ∧ (s.fill i payload).payloads = before ++ payload :: behind := by
  have hl : i < s.cells.toList.length := hi
  have hb : i < s.cells.size := hi
  have hc : s.cells.toList[i] = none := by simpa [get?, hb] using he
  have hs : s.cells.toList = s.cells.toList.take i ++ none :: s.cells.toList.drop (i + 1) := by
    rw [← hc, ← List.drop_eq_getElem_cons hl, List.take_append_drop]
  refine ⟨(s.cells.toList.take i).filterMap id, (s.cells.toList.drop (i + 1)).filterMap id, ?_, ?_⟩
  · simpa [payloads] using congrArg (List.filterMap id) hs
  · simp [payloads, fill, List.set_eq_take_append_cons_drop, hb]

theorem length_payloads_le (s : Slots) : s.payloads.length ≤ s.size := by
  simpa [payloads, size] using List.length_filterMap_le id s.cells.toList

/-- There are as many payloads as slots exactly if no slot is empty. -/
theorem length_payloads_eq_size_iff {s : Slots} :
    s.payloads.length = s.size ↔ ∀ cell ∈ s.cells.toList, cell.isSome := by
  simp only [payloads, size, ← Array.length_toList, List.filterMap_length_eq_length, id]

theorem forall_isSome_iff {s : Slots} :
    (∀ cell ∈ s.cells.toList, cell.isSome) ↔ ∀ i < s.size, (s.get? i).isSome := by
  constructor
  · intro h i hi
    have hb : i < s.cells.size := hi
    simpa [get?, hb] using h s.cells[i] (Array.getElem_mem_toList hb)
  · intro h cell hc
    obtain ⟨i, hi, rfl⟩ := List.mem_iff_getElem.mp hc
    have hb : i < s.cells.size := hi
    simpa [get?, hb] using h i hb

end Slots
end LocalPlay
