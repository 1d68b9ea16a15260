import Mathlib.Data.List.Flatten
import LocalPlay.Proofs.Packet.Sealed
import LocalPlay.Proofs.Reassembly.Invariant

/-! Gathering a message: fragments that carry its chunks fill the slots of its entry with them, each in its
place, and the last one that was missing gives the message. -/
namespace LocalPlay.Reassembly

theorem count_ne_one_of_carries {p : Packet} {chunks : List Bytes} (h : p.Carries chunks) (h2 : 2 ≤ chunks.length) :
    p.header.fragmentCount ≠ 1 := by
  intro h1
  have hn := h.1
  rw [h1] at hn
  change 1 = chunks.length at hn
  omega

structure Pending.Gathers (chunks : List Bytes) (e : Pending) : Prop where
  count : e.fragmentCount.toNat = chunks.length
  slots : ∀ {i payload}, e.slots.get? i = some payload → chunks[i]? = some payload

private theorem filterMap_sublist {cells : List (Option Bytes)} {chunks : List Bytes}
    (hl : cells.length = chunks.length)
    (hc : ∀ (i : Nat) payload, cells[i]?.join = some payload → chunks[i]? = some payload) :
    (cells.filterMap id).Sublist chunks := by
  induction cells generalizing chunks with
  | nil => exact List.nil_sublist chunks
  | cons cell rest ih =>
    rcases chunks with _ | ⟨chunk, chunks⟩
    · simp at hl
    have hr := ih (Nat.succ.inj hl) fun i payload h => hc (i + 1) payload h
    cases cell with
    | none => exact hr.cons chunk
    | some payload =>
      obtain rfl : chunk = payload := by simpa using hc 0 payload rfl
      exact hr.cons_cons chunk

namespace Pending
variable {e : Pending} {chunks : List Bytes}

theorem Gathers.payloads_sublist (h : e.Gathers chunks) (he : e.Consistent) :
    e.slots.payloads.Sublist chunks := by
  apply filterMap_sublist
  · exact he.size_slots.trans h.count
  · intro i payload hi
    exact h.slots (by rwa [Array.getElem?_toList] at hi)

theorem Gathers.contents_eq (h : e.Gathers chunks) (he : e.Consistent) (hd : e.received = e.slots.size) :
    e.slots.contents = chunks.flatten := by
  rw [Slots.contents_eq_flatten, (h.payloads_sublist he).eq_of_length]
  rw [← he.received_eq, hd, he.size_slots, h.count]

theorem Gathers.size_le (h : e.Gathers chunks) (he : e.Consistent) : e.size ≤ chunks.flatten.length := by
  rw [he.size_eq, ← List.length_flatten]
  exact (h.payloads_sublist he).flatten.length_le

theorem Gathers.of_new {count : UInt32} (now : Nat) (hc : count.toNat = chunks.length) :
    (new count now).Gathers chunks where
  count := hc
  slots := by
    intro i payload h
    simp [new] at h

theorem Gathers.store {p : Packet} (h : e.Gathers chunks) (he : e.Consistent) (hp : p.Carries chunks) :
    (e.store p.header.fragmentIndex.toNat p.payload).Gathers chunks where
  count := h.count
  slots := by
    intro i payload hi
    have hb : p.header.fragmentIndex.toNat < e.slots.size := by
      rw [he.size_slots, h.count]
      exact (List.getElem?_eq_some_iff.mp hp.2).1
    rw [Pending.store, Slots.get?_fill hb] at hi
    split at hi
    · rename_i hj
      obtain rfl := Option.some.inj hi
      exact hj ▸ hp.2
    · exact h.slots hi

end Pending

namespace Table
variable {t t' : Table} {p : Packet} {now : Nat} {answer : Except SessionError (Option Bytes)} {chunks : List Bytes}

theorem Admits.gathers {e : Pending} (he : t.Admits p now e) (hp : p.Carries chunks)
    (hg : ∀ e, t.pending.find? p.header.key = some e → e.Gathers chunks) : e.Gathers chunks := by
  rcases he with ⟨hk, -⟩ | ⟨-, -, -, rfl⟩
  · exact hg e hk
  · exact .of_new now hp.1

/-- A fragment of a message goes to an entry that gathers it, and what it completes is the message. -/
theorem Insertion.gathers (h : t.WellFormed) (hi : Insertion t p now answer t') (hp : p.Carries chunks)
    (hg : ∀ e, t.pending.find? p.header.key = some e → e.Gathers chunks) :
    (∀ e, t'.pending.find? p.header.key = some e → e.Gathers chunks) ∧
      ∀ message, answer = .ok (some message) → message = chunks.flatten := by
  cases hi with
  | refused | aloneTooLong | full | repeated => exact ⟨hg, by simp⟩
  | alone hf hk hc hl =>
    refine ⟨hg, ?_⟩
    rintro _ ⟨⟩
    obtain ⟨hn, hx⟩ := hp
    obtain ⟨hlt, hx⟩ := List.getElem?_eq_some_iff.mp hx
    obtain ⟨chunk, rfl⟩ := List.length_eq_one_iff.mp (hn.symm.trans (congrArg UInt32.toNat hc))
    simpa using hx.symm
  | contradicted | outgrown => exact ⟨by simp, by simp⟩
  | completed hf he hs hl hd =>
    refine ⟨by simp, ?_⟩
    rintro _ ⟨⟩
    have hc := he.consistent h hf
    exact ((he.gathers hp hg).store hc hp).contents_eq (hc.store (he.index_lt hf) hs _)
      (by simpa [Pending.store] using hd)
  | stored hf he hs hl hd =>
    refine ⟨?_, by simp⟩
    intro e hk
    obtain rfl := Option.some.inj ((find?_put_self ..).symm.trans hk)
    exact (he.gathers hp hg).store (he.consistent h hf) hp

theorem Admits.unique {e e' : Pending} (he : t.Admits p now e) (he' : t.Admits p now e') : e = e' := by
  rcases he with ⟨hk, -⟩ | ⟨hk, -, -, rfl⟩ <;> rcases he' with ⟨hk', -⟩ | ⟨hk', -, -, rfl⟩
  · exact Option.some.inj (hk.symm.trans hk')
  · simp [hk] at hk'
  · simp [hk'] at hk
  · rfl

/-- The last chunk is the one whose slot is the only empty one. -/
theorem complete_store_iff {e : Pending} (he : e.Consistent) (hp : p.Carries chunks) (hg : e.Gathers chunks)
    (hs : e.slots.get? p.header.fragmentIndex.toNat = none) :
    e.received + 1 = e.slots.size ↔
      ∀ i < chunks.length, i ≠ p.header.fragmentIndex.toNat → (e.slots.get? i).isSome := by
  have hn : e.slots.size = chunks.length := he.size_slots.trans hg.count
  have hb : p.header.fragmentIndex.toNat < e.slots.size := hn ▸ (List.getElem?_eq_some_iff.mp hp.2).1
  have hc := (he.store (he.size_slots ▸ hb) hs p.payload).complete_iff
  simp only [Pending.isSome_get?_store hb] at hc
  simp only [Pending.store, Slots.size_fill] at hc
  rw [hc, hn]
  constructor
  · intro h i hi hne
    exact (h i hi).resolve_right hne
  · intro h i hi
    by_cases hj : i = p.header.fragmentIndex.toNat
    · exact .inr hj
    · exact .inl (h i hi hj)

/-- What becomes of a fragment of a message that is not too long: it repeats one that came, it is the last, or
it is stored. -/
theorem Insertion.trichotomy {e : Pending} (h : t.WellFormed) (hi : Insertion t p now answer t')
    (hf : fault? p.header = none) (hp : p.Carries chunks) (h2 : 2 ≤ chunks.length)
    (hl : chunks.flatten.length ≤ t.maxMessageSize) (he : t.Admits p now e) (hg : e.Gathers chunks) :
    (e.slots.get? p.header.fragmentIndex.toNat).isSome ∧ answer = .ok none ∧ t' = t ∨
      e.slots.get? p.header.fragmentIndex.toNat = none ∧
        (∀ i < chunks.length, i ≠ p.header.fragmentIndex.toNat → (e.slots.get? i).isSome) ∧
        answer = .ok (some chunks.flatten) ∧ t' = t.drop p.header.key ∨
      e.slots.get? p.header.fragmentIndex.toNat = none ∧
        (∃ i < chunks.length, i ≠ p.header.fragmentIndex.toNat ∧ e.slots.get? i = none) ∧ answer = .ok none ∧
        t' = t.put p.header.key (e.store p.header.fragmentIndex.toNat p.payload) := by
  have hu : ∀ e', t.pending.find? p.header.key = some e' → e' = e := by
    intro e' hk'
    rcases he with ⟨hk, -⟩ | ⟨hk, -⟩
    · exact Option.some.inj (hk'.symm.trans hk)
    · simp [hk] at hk'
  have hm := (hi.gathers h hp fun e' hk' => hu e' hk' ▸ hg).2
  have hc := he.consistent h hf
  cases hi with
  | refused hf' => simp [hf] at hf'
  | aloneTooLong _ _ h1 | alone _ _ h1 => exact absurd h1 (count_ne_one_of_carries hp h2)
  | full _ hk _ hr =>
    rcases he with ⟨hk', -⟩ | ⟨-, -, hr', -⟩
    · simp [hk] at hk'
    · omega
  | contradicted _ hk hc =>
    exact absurd (UInt32.toNat_inj.mp ((hu _ hk ▸ hg).count.trans hp.1.symm)) hc
  | repeated _ hk _ hs =>
    obtain rfl := hu _ hk
    exact .inl ⟨hs, rfl, rfl⟩
  | outgrown _ he' hs hl' =>
    obtain rfl := he'.unique he
    have hle := (hg.store hc hp).size_le (hc.store (he.index_lt hf) hs _)
    simp only [Pending.store] at hle
    omega
  | completed _ he' hs _ hd =>
    obtain rfl := he'.unique he
    exact .inr (.inl ⟨hs, (complete_store_iff hc hp hg hs).mp hd, by rw [hm _ rfl], rfl⟩)
  | stored _ he' hs _ hd =>
    obtain rfl := he'.unique he
    have hd := (complete_store_iff hc hp hg hs).not.mp hd
    push Not at hd
    exact .inr (.inr ⟨hs, by simpa using hd, rfl, rfl⟩)

/-- The table gathers a message since a given time and holds the chunks with these indices. -/
def Holds (t : Table) (key : MessageKey) (chunks : List Bytes) (start : Nat) (came : Nat → Prop) : Prop :=
  ∃ e, t.pending.find? key = some e ∧ e.Gathers chunks ∧ e.firstSeen = start ∧
    ∀ i < chunks.length, (e.slots.get? i).isSome ↔ came i

private theorem holds_put {e : Pending} {came : Nat → Prop} (he : e.Consistent) (hp : p.Carries chunks)
    (hg : e.Gathers chunks) (hc : ∀ i < chunks.length, (e.slots.get? i).isSome ↔ came i) :
    (t.put p.header.key (e.store p.header.fragmentIndex.toNat p.payload)).Holds p.header.key chunks e.firstSeen
      fun i => came i ∨ i = p.header.fragmentIndex.toNat := by
  refine ⟨_, find?_put_self .., hg.store he hp, rfl, ?_⟩
  intro i hi
  have hb : p.header.fragmentIndex.toNat < e.slots.size := by
    rw [he.size_slots, hg.count]
    exact (List.getElem?_eq_some_iff.mp hp.2).1
  rw [Pending.isSome_get?_store hb, hc i hi]

variable {start : Nat} {came : Nat → Prop}

/-- The first fragment of a message opens an entry. -/
theorem Insertion.holds_of_open (h : t.WellFormed) (hi : Insertion t p now answer t') (hf : fault? p.header = none)
    (hp : p.Carries chunks) (h2 : 2 ≤ chunks.length) (hl : chunks.flatten.length ≤ t.maxMessageSize)
    (hk : t.pending.find? p.header.key = none) (hr : t.size < t.maxPending) :
    answer = .ok none ∧ t'.Holds p.header.key chunks now fun i => i = p.header.fragmentIndex.toNat := by
  have h1 := count_ne_one_of_carries hp h2
  have he : t.Admits p now (.new p.header.fragmentCount now) := .inr ⟨hk, h1, hr, rfl⟩
  have hg := Pending.Gathers.of_new now hp.1
  have hc : ∀ i < chunks.length, ((Pending.new p.header.fragmentCount now).slots.get? i).isSome ↔ False := by
    simp [Pending.new]
  rcases hi.trichotomy h hf hp h2 hl he hg with ⟨hs, -⟩ | ⟨-, hd, -⟩ | ⟨-, -, rfl, rfl⟩
  · simp [Pending.new] at hs
  · -- of two chunks, the other one has not come
    obtain ⟨i, hi, hne⟩ : ∃ i < chunks.length, i ≠ p.header.fragmentIndex.toNat := by
      by_cases h0 : p.header.fragmentIndex.toNat = 0
      · exact ⟨1, by omega, by omega⟩
      · exact ⟨0, by omega, by omega⟩
    exact ((hc i hi).mp (hd i hi hne)).elim
  · have hput := holds_put (t := t) (he.consistent h hf) hp hg hc
    simp only [false_or] at hput
    exact ⟨rfl, hput⟩

/-- While another chunk is missing, a fragment is taken and nothing is handed out. -/
theorem Insertion.holds_of_missing (h : t.WellFormed) (hi : Insertion t p now answer t')
    (hf : fault? p.header = none) (hp : p.Carries chunks) (h2 : 2 ≤ chunks.length)
    (hl : chunks.flatten.length ≤ t.maxMessageSize) (hh : t.Holds p.header.key chunks start came)
    (hm : ∃ i < chunks.length, i ≠ p.header.fragmentIndex.toNat ∧ ¬ came i) :
    answer = .ok none ∧
      t'.Holds p.header.key chunks start fun i => came i ∨ i = p.header.fragmentIndex.toNat := by
  obtain ⟨e, hk, hg, rfl, hc⟩ := hh
  have he : t.Admits p now e := .inl ⟨hk, UInt32.toNat_inj.mp (hg.count.trans hp.1.symm)⟩
  rcases hi.trichotomy h hf hp h2 hl he hg with ⟨hs, rfl, rfl⟩ | ⟨-, hd, -⟩ | ⟨-, -, rfl, rfl⟩
  · refine ⟨rfl, e, hk, hg, rfl, ?_⟩
    intro i hi
    rw [hc i hi]
    constructor
    · exact .inl
    · rintro (hcame | rfl)
      · exact hcame
      · exact (hc _ hi).mp hs
  · obtain ⟨i, hi, hne, hcame⟩ := hm
    exact absurd ((hc i hi).mp (hd i hi hne)) hcame
  · exact ⟨rfl, holds_put (he.consistent h hf) hp hg hc⟩

/-- The last chunk gives the message, and the entry goes. -/
theorem Insertion.delivers (h : t.WellFormed) (hi : Insertion t p now answer t') (hf : fault? p.header = none)
    (hp : p.Carries chunks) (h2 : 2 ≤ chunks.length) (hl : chunks.flatten.length ≤ t.maxMessageSize)
    (hh : t.Holds p.header.key chunks start came) (hn : ¬ came p.header.fragmentIndex.toNat)
    (hm : ∀ i < chunks.length, i ≠ p.header.fragmentIndex.toNat → came i) :
    answer = .ok (some chunks.flatten) ∧ t' = t.drop p.header.key := by
  obtain ⟨e, hk, hg, -, hc⟩ := hh
  have he : t.Admits p now e := .inl ⟨hk, UInt32.toNat_inj.mp (hg.count.trans hp.1.symm)⟩
  have hx := (List.getElem?_eq_some_iff.mp hp.2).1
  rcases hi.trichotomy h hf hp h2 hl he hg with ⟨hs, -⟩ | ⟨-, -, ha, ht⟩ | ⟨-, ⟨i, hi, hne, hs⟩, -⟩
  · exact absurd ((hc _ hx).mp hs) hn
  · exact ⟨ha, ht⟩
  · have hcame := (hc i hi).mpr (hm i hi hne)
    simp [hs] at hcame

theorem Holds.congr {key : MessageKey} (h : t.Holds key chunks start came)
    (hk : t'.pending.find? key = t.pending.find? key) : t'.Holds key chunks start came := by
  obtain ⟨e, he, hg⟩ := h
  exact ⟨e, hk.trans he, hg⟩

theorem Holds.of_iff {key : MessageKey} {came' : Nat → Prop} (h : t.Holds key chunks start came)
    (hc : ∀ i < chunks.length, came i ↔ came' i) : t.Holds key chunks start came' := by
  obtain ⟨e, he, hg, hs, hcame⟩ := h
  exact ⟨e, he, hg, hs, fun i hi => (hcame i hi).trans (hc i hi)⟩

/-- A sweep within the timeout spares the entry. -/
theorem Holds.sweep {key : MessageKey} (h : t.Holds key chunks start came) (hn : now ≤ start + t.timeout) :
    (t.sweep now).2.Holds key chunks start came := by
  apply h.congr
  obtain ⟨e, he, -, hs, -⟩ := h
  have hy : e.isOlderThan t.timeout now = false := by
    simp only [Pending.isOlderThan, hs, decide_eq_false_iff_not]
    omega
  rw [find?_sweep, he, Option.filter_some, hy]
  rfl

end Table
end LocalPlay.Reassembly
