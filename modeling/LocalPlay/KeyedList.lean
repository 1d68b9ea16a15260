/-! Finite maps as lists of pairs in which no key comes twice. Each operation is described by what it does
to look-up. -/
namespace LocalPlay

/-- Values by key. -/
structure KeyedList (κ ν : Type) where
  entries : List (κ × ν)
  nodup : (entries.map Prod.fst).Nodup
  deriving DecidableEq

namespace KeyedList
variable {κ ν : Type}

@[ext] theorem ext {m n : KeyedList κ ν} (h : m.entries = n.entries) : m = n := by
  cases m
  cases n
  cases h
  rfl

def empty : KeyedList κ ν := ⟨[], List.nodup_nil⟩

def size (m : KeyedList κ ν) : Nat := m.entries.length

/-- The entries that pass a test. -/
def filter (m : KeyedList κ ν) (test : κ × ν → Bool) : KeyedList κ ν :=
  ⟨m.entries.filter test, m.nodup.sublist (List.filter_sublist.map Prod.fst)⟩

theorem size_filter_le (m : KeyedList κ ν) (test : κ × ν → Bool) : (m.filter test).size ≤ m.size :=
  List.length_filter_le test m.entries

variable [DecidableEq κ]

/-- The value of a key. -/
def find? (m : KeyedList κ ν) (k : κ) : Option ν := (m.entries.find? (·.1 = k)).map Prod.snd

def contains (m : KeyedList κ ν) (k : κ) : Bool := (m.find? k).isSome

/-- All entries but that of a key. -/
def erase (m : KeyedList κ ν) (k : κ) : KeyedList κ ν := m.filter (·.1 ≠ k)

/-- Give a key a value, in place of the one it had. -/
def insert (m : KeyedList κ ν) (k : κ) (v : ν) : KeyedList κ ν where
  entries := (k, v) :: (m.erase k).entries
  nodup := by
    rw [List.map_cons, List.nodup_cons]
    exact ⟨by simp [erase, filter], (m.erase k).nodup⟩

/-- Look-up finds exactly the entries. -/
theorem find?_eq_some_iff {m : KeyedList κ ν} {k : κ} {v : ν} :
    m.find? k = some v ↔ (k, v) ∈ m.entries := by
  obtain ⟨entries, nodup⟩ := m
  simp only [find?]
  induction entries with
  | nil => simp
  | cons e rest ih =>
    obtain ⟨a, b⟩ := e
    rw [List.map_cons, List.nodup_cons] at nodup
    by_cases hk : a = k
    · subst hk
      have ha : (a, v) ∉ rest := fun hm => nodup.1 (List.mem_map.mpr ⟨(a, v), hm, rfl⟩)
      simp [ha, eq_comm]
    · have hne : ¬ k = a := fun h => hk h.symm
      simp [hk, hne, ih nodup.2]

theorem find?_eq_none_iff {m : KeyedList κ ν} {k : κ} : m.find? k = none ↔ ∀ v, (k, v) ∉ m.entries := by
  simp only [Option.eq_none_iff_forall_ne_some, ne_eq, find?_eq_some_iff]

/-- Of pairs in which no key comes twice, one has the key of a given pair. -/
theorem filter_eq_singleton {entries : List (κ × ν)} (h : (entries.map Prod.fst).Nodup) {entry : κ × ν}
    (he : entry ∈ entries) : entries.filter (·.1 = entry.1) = [entry] := by
  induction entries with
  | nil => simp at he
  | cons first rest ih =>
    obtain ⟨hf, hr⟩ := List.nodup_cons.mp h
    rcases List.mem_cons.mp he with rfl | he
    · rw [List.filter_cons_of_pos (by simp), List.filter_eq_nil_iff.mpr]
      intro other ho hk
      exact hf (List.mem_map.mpr ⟨other, ho, by simpa using hk⟩)
    · rw [List.filter_cons_of_neg, ih hr he]
      intro hk
      exact hf (List.mem_map.mpr ⟨entry, he, (by simpa using hk : first.1 = entry.1).symm⟩)

/-- The entries with a key are the one that look-up finds, or none. -/
theorem filter_entries (m : KeyedList κ ν) (k : κ) :
    m.entries.filter (·.1 = k) = ((m.find? k).map fun v => (k, v)).toList := by
  cases hv : m.find? k with
  | none =>
    rw [find?_eq_none_iff] at hv
    apply List.filter_eq_nil_iff.mpr
    rintro ⟨k', v⟩ he hk
    obtain rfl : k' = k := by simpa using hk
    exact hv v he
  | some v => exact filter_eq_singleton m.nodup (find?_eq_some_iff.mp hv)

/-- A list without a key is empty. -/
theorem size_eq_zero {m : KeyedList κ ν} (h : ∀ k, m.find? k = none) : m.size = 0 := by
  apply List.length_eq_zero_iff.mpr
  apply List.eq_nil_iff_forall_not_mem.mpr
  rintro ⟨k, v⟩
  exact find?_eq_none_iff.mp (h k) v

@[simp] theorem find?_empty (k : κ) : (empty : KeyedList κ ν).find? k = none := rfl

@[simp] theorem find?_insert_self (m : KeyedList κ ν) (k : κ) (v : ν) :
    (m.insert k v).find? k = some v := by
  simp [find?, insert]

@[simp] theorem find?_erase_self (m : KeyedList κ ν) (k : κ) : (m.erase k).find? k = none := by
  simp [find?, erase, filter]

theorem find?_erase_of_ne (m : KeyedList κ ν) {k j : κ} (h : j ≠ k) :
    (m.erase k).find? j = m.find? j := by
  apply Option.ext
  intro v
  simp [find?_eq_some_iff, erase, filter, h]

theorem find?_insert_of_ne (m : KeyedList κ ν) {k j : κ} (v : ν) (h : j ≠ k) :
    (m.insert k v).find? j = m.find? j := by
  rw [← find?_erase_of_ne m h]
  simp [find?, insert, Ne.symm h]

/-- A key without a value has nothing to erase. -/
theorem erase_of_find?_eq_none {m : KeyedList κ ν} {k : κ} (h : m.find? k = none) : m.erase k = m := by
  apply ext
  simp only [erase, filter, List.filter_eq_self]
  intro e he
  have hn : e.1 ≠ k := by
    rintro rfl
    rw [find?_eq_some_iff.mpr he] at h
    contradiction
  simpa using hn

theorem find?_filter (m : KeyedList κ ν) (test : κ × ν → Bool) (k : κ) :
    (m.filter test).find? k = (m.find? k).filter fun v => test (k, v) := by
  apply Option.ext
  intro v
  simp [find?_eq_some_iff, filter, Option.filter_eq_some_iff]

theorem size_insert (m : KeyedList κ ν) (k : κ) (v : ν) : (m.insert k v).size = (m.erase k).size + 1 := rfl

/-- Erasing the entry of a key makes the list shorter. -/
theorem size_erase_lt {m : KeyedList κ ν} {k : κ} {v : ν} (h : m.find? k = some v) :
    (m.erase k).size < m.size := by
  apply List.length_filter_lt_length_iff_exists.mpr
  exact ⟨(k, v), find?_eq_some_iff.mp h, by simp⟩

@[simp] theorem erase_insert_self (m : KeyedList κ ν) (k : κ) (v : ν) :
    (m.insert k v).erase k = m.erase k := by
  apply ext
  simp [insert, erase, filter]

@[simp] theorem insert_insert_self (m : KeyedList κ ν) (k : κ) (v w : ν) :
    (m.insert k v).insert k w = m.insert k w := by
  apply ext
  change (k, w) :: ((m.insert k v).erase k).entries = (k, w) :: (m.erase k).entries
  rw [erase_insert_self]

end KeyedList
end LocalPlay
