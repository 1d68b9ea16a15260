import Mathlib.Data.List.Dedup
import LocalPlay.Proofs.Fragment.Joining
import LocalPlay.Proofs.Reassembly.History
import LocalPlay.Proofs.Reassembly.Isolation

/-! Sweeping gives up the messages that are too old, and no others. The age of a message counts from the packet that
opened its entry: later fragments do not make it younger, and a key that is dropped and opened again starts anew. -/
namespace LocalPlay.Reassembly

/-- There are as many filled slots as different indices among the fragments that came. -/
theorem Pending.Tracks.received_eq {ps : List Packet} {e : Pending} (h : e.Tracks ps) (hc : e.Consistent) :
    e.received = (Fragment.indices ps).dedup.length := by
  have hfilled : ∀ i, i ∈ (List.range e.fragmentCount.toNat).filter (fun i => (e.slots.get? i).isSome) ↔
      i ∈ (Fragment.indices ps).dedup := by
    intro i
    rw [List.mem_filter, List.mem_range, List.mem_dedup]
    constructor
    · rintro ⟨hi, hs⟩
      rw [h.slots i hi, Option.isSome_map] at hs
      obtain ⟨q, hq⟩ := Option.isSome_iff_exists.mp hs
      exact List.mem_map.mpr ⟨q, List.mem_of_find?_eq_some hq, by simpa using List.find?_some hq⟩
    · intro hi
      obtain ⟨q, hq, rfl⟩ := List.mem_map.mp hi
      have hlt := UInt32.lt_iff_toNat_lt.mp (h.count q hq).2
      refine ⟨hlt, ?_⟩
      rw [h.slots _ hlt, Option.isSome_map, earliest, List.find?_isSome]
      exact ⟨q, hq, by simp⟩
  have hperm := (List.perm_ext_iff_of_nodup (List.nodup_range.filter _) (List.nodup_dedup _)).mpr hfilled
  rw [← hperm.length_eq, hc.received_eq, Slots.payloads, Slots.toList_cells, hc.size_slots, List.filterMap_map,
    List.length_filterMap_eq_countP, List.countP_eq_length_filter]
  rfl

theorem Pending.isOlderThan_mono {e : Pending} {timeout now later : Nat} (hl : now ≤ later)
    (h : e.isOlderThan timeout now = true) : e.isOlderThan timeout later = true := by
  simp only [isOlderThan, decide_eq_true_eq] at h ⊢
  omega

namespace Table
variable {start t t' : Table} {key : MessageKey} {past : List Op} {p : Packet} {now : Nat} {e e' : Pending}
  {answer : Except SessionError (Option Bytes)}

theorem OpenedAfter.unique {before before' : List Op} (h : OpenedAfter start key before past)
    (h' : OpenedAfter start key before' past) : before = before' :=
  (h'.latest before h.initial h.absent).eq_of_length_le (h.latest before' h'.initial h'.absent).length_le

/-- How the entry that a key has after the steps `past` was opened. -/
structure Opening (start : Table) (key : MessageKey) (past : List Op) where
  before : List Op
  /-- The packet that opened the entry. -/
  first : Packet
  time : Nat
  later : List Op
  past_eq : past = before ++ .insert first time :: later
  key_eq : first.header.key = key
  openedAfter : OpenedAfter start key before past

namespace Opening

/-- The steps from the opening on. -/
def since (o : Opening start key past) : List Op := .insert o.first o.time :: o.later

/-- How many different fragments were stored since the opening. -/
def received (o : Opening start key past) : Nat := (Fragment.indices (fragments key o.since)).dedup.length

theorem unique (o o' : Opening start key past) : o = o' := by
  obtain ⟨before, first, time, later, hp, -, ho⟩ := o
  obtain ⟨before', first', time', later', hp', -, ho'⟩ := o'
  obtain rfl := ho.unique ho'
  cases List.append_cancel_left (hp.symm.trans hp')
  rfl

/-- A step that leaves the entry there leaves its opening behind. -/
def concat (o : Opening start key past) (op : Op) (hk : (start.run (past ++ [op])).2.pending.find? key ≠ none) :
    Opening start key (past ++ [op]) where
  before := o.before
  first := o.first
  time := o.time
  later := o.later ++ [op]
  past_eq := (congrArg (· ++ [op]) o.past_eq).trans (List.append_assoc ..)
  key_eq := o.key_eq
  openedAfter := o.openedAfter.concat hk

/-- A packet opens an entry. -/
def ofAbsent (p : Packet) (now : Nat) (hn : (start.run past).2.pending.find? p.header.key = none)
    (hk : (start.run (past ++ [.insert p now])).2.pending.find? p.header.key ≠ none) :
    Opening start p.header.key (past ++ [.insert p now]) where
  before := past
  first := p
  time := now
  later := []
  past_eq := rfl
  key_eq := rfl
  openedAfter := (openedAfter_of_absent hn).concat hk

/-- The entry behind an opening is there: steps after which it is gone would be among those before it. -/
theorem find?_ne_none (o : Opening start key past) : (start.run past).2.pending.find? key ≠ none := by
  intro hn
  have hle := (o.openedAfter.latest past List.prefix_rfl hn).length_le
  have hlen := congrArg List.length o.past_eq
  rw [List.length_append, List.length_cons] at hlen
  omega

end Opening

/-- After an insertion, the entry of the packet's key has the number of fragments and the time that it had, or those of
the packet that opens it. -/
theorem Insertion.dated (hi : Insertion t p now answer t') (he' : t'.pending.find? p.header.key = some e') :
    (∃ e, t.pending.find? p.header.key = some e ∧ e'.firstSeen = e.firstSeen ∧ e'.fragmentCount = e.fragmentCount) ∨
      t.pending.find? p.header.key = none ∧ e'.firstSeen = now ∧ e'.fragmentCount = p.header.fragmentCount := by
  cases hi with
  | refused | aloneTooLong | alone | full | repeated => exact .inl ⟨e', he', rfl, rfl⟩
  | contradicted | outgrown | completed => simp at he'
  | stored _ he =>
    obtain rfl := Option.some.inj ((find?_put_self ..).symm.trans he')
    rcases he with ⟨hk, -⟩ | ⟨hk, -, -, rfl⟩
    · exact .inl ⟨_, hk, rfl, rfl⟩
    · exact .inr ⟨hk, rfl, rfl⟩

theorem step_dated {op : Op} (he' : (t.step op).2.pending.find? key = some e') :
    (∃ e, t.pending.find? key = some e ∧ e'.firstSeen = e.firstSeen ∧ e'.fragmentCount = e.fragmentCount) ∨
      t.pending.find? key = none ∧ ∃ p, op = .insert p e'.firstSeen ∧ p.header.key = key ∧
        e'.fragmentCount = p.header.fragmentCount := by
  cases op with
  | insert p now =>
    have hi := insertion t p now
    by_cases hk : key = p.header.key
    · subst hk
      rcases hi.dated he' with h | ⟨hn, rfl, hc⟩
      · exact .inl h
      · exact .inr ⟨hn, p, rfl, rfl, hc⟩
    · exact .inl ⟨e', (hi.find?_of_ne hk).symm.trans he', rfl, rfl⟩
  | sweep now =>
    have hs : (t.sweep now).2.pending.find? key = some e' := he'
    rw [find?_sweep, Option.filter_eq_some_iff] at hs
    exact .inl ⟨e', hs.1, rfl, rfl⟩
  | clear => simp [step, clear] at he'

/-- The time and the number of fragments of each entry are those of its opening. -/
structure Dated (start : Table) (past : List Op) (t : Table) : Prop where
  reached : (start.run past).2 = t
  entries : ∀ {key e}, t.pending.find? key = some e →
    ∃ o : Opening start key past, e.firstSeen = o.time ∧ e.fragmentCount = o.first.header.fragmentCount

theorem Dated.step (h : Dated start past t) (op : Op) : Dated start (past ++ [op]) (t.step op).2 := by
  have hr : (start.run (past ++ [op])).2 = (t.step op).2 := by
    rw [run_eq, Machine.run_concat, ← run_eq, h.reached]
  refine ⟨hr, ?_⟩
  intro key e' he'
  have hk : (start.run (past ++ [op])).2.pending.find? key ≠ none := by simp [hr, he']
  rcases step_dated he' with ⟨e, he, hs, hc⟩ | ⟨hn, p, rfl, rfl, hc⟩
  · obtain ⟨o, ht, hf⟩ := h.entries he
    exact ⟨o.concat op hk, hs.trans ht, hc.trans hf⟩
  · exact ⟨.ofAbsent p _ (h.reached ▸ hn) hk, rfl, hc⟩

theorem dated_run (timeout maxPending maxMessageSize : Nat) (past : List Op) :
    let start := new timeout maxPending maxMessageSize
    Dated start past (start.run past).2 := by
  intro start
  have h0 : Dated start [] start := ⟨rfl, by simp [start, new]⟩
  rw [run_eq]
  exact (Machine.run_history (Dated start) (fun _ _ => True) (fun op _ _ _ hs => ⟨trivial, hs.step op⟩) [] h0).2

/-- What an entry says of itself is what the run says of its opening. -/
theorem Opening.entry {timeout maxPending maxMessageSize : Nat}
    (o : Opening (new timeout maxPending maxMessageSize) key past) :
    ∃ e, ((new timeout maxPending maxMessageSize).run past).2.pending.find? key = some e ∧
      e.firstSeen = o.time ∧ e.fragmentCount = o.first.header.fragmentCount ∧ e.received = o.received := by
  have hd := dated_run timeout maxPending maxMessageSize past
  have hr := recorded_run timeout maxPending maxMessageSize past
  obtain ⟨e, he⟩ := Option.ne_none_iff_exists'.mp o.find?_ne_none
  obtain ⟨o', ht, hc⟩ := hd.entries he
  obtain rfl := o'.unique o
  obtain ⟨before, range, hp, ho, htracks⟩ := hr.entries he
  -- both histories of the entry begin behind the same steps
  obtain rfl := ho.unique o'.openedAfter
  have hrange : range = o'.since := List.append_cancel_left (hp.symm.trans o'.past_eq)
  rw [hrange] at htracks
  exact ⟨e, he, ht, hc, htracks.received_eq (hr.wellFormed.entries he).toConsistent⟩

theorem contains_iff_opening (timeout maxPending maxMessageSize : Nat) (past : List Op) (key : MessageKey) :
    ((new timeout maxPending maxMessageSize).run past).2.contains key = true ↔
      Nonempty (Opening (new timeout maxPending maxMessageSize) key past) := by
  rw [contains_eq]
  constructor
  · intro h
    obtain ⟨e, he⟩ := Option.isSome_iff_exists.mp h
    obtain ⟨o, -⟩ := (dated_run timeout maxPending maxMessageSize past).entries he
    exact ⟨o⟩
  · rintro ⟨o⟩
    exact Option.isSome_iff_ne_none.mpr o.find?_ne_none

theorem timeout_of_mem_sweep {report : SessionError} (h : report ∈ (t.sweep now).1) :
    ∃ key, t.contains key = true ∧ report.isTimeoutOf key = true := by
  obtain ⟨⟨key, e⟩, he, rfl⟩ := List.mem_map.mp h
  have hf : t.pending.find? key = some e := KeyedList.find?_eq_some_iff.mpr (List.mem_filter.mp he).1
  exact ⟨key, by simp [contains_eq, hf], by simp [SessionError.isTimeoutOf]⟩

/-- What a sweep leaves is too old at no earlier time, and what it takes is too old later. -/
theorem sweep_sweep (t : Table) {now later : Nat} (h : now ≤ later) :
    ((t.sweep now).2.sweep later).2 = (t.sweep later).2 ∧
      ((t.sweep now).1 ++ ((t.sweep now).2.sweep later).1).Perm (t.sweep later).1 := by
  have hmono (entry : MessageKey × Pending) : entry.2.isOlderThan t.timeout now = true →
      entry.2.isOlderThan t.timeout later = true := entry.2.isOlderThan_mono h
  constructor
  · have hkept : ∀ entry ∈ t.pending.entries,
        (!entry.2.isOlderThan t.timeout later && !entry.2.isOlderThan t.timeout now) =
          !entry.2.isOlderThan t.timeout later := by
      intro entry _
      grind
    simp only [sweep, KeyedList.filter, List.filter_filter, List.filter_congr hkept]
  · have htaken : ∀ entry ∈ t.pending.entries,
        (entry.2.isOlderThan t.timeout now && entry.2.isOlderThan t.timeout later) =
          entry.2.isOlderThan t.timeout now := by
      intro entry _
      grind
    have hsplit := List.filter_append_perm (·.2.isOlderThan t.timeout now)
      (t.pending.entries.filter (·.2.isOlderThan t.timeout later))
    rw [List.filter_filter, List.filter_congr htaken, List.filter_comm] at hsplit
    simp only [sweep, KeyedList.filter, ← List.map_append]
    exact hsplit.map _

/-- Sweep after any run from an empty table. The keys that the table holds are those with an opening. Of these, the ones
that were opened longer ago than the timeout go, and each is reported once, with the number of its fragments and how many
different ones came since; the others stay as they are. A second sweep finds nothing, and an earlier one before a later
one leaves the later one's table and adds nothing to what it reports. -/
theorem sweep_exact (timeout maxPending maxMessageSize : Nat) (past : List Op) (now : Nat) :
    let start := new timeout maxPending maxMessageSize
    let t := (start.run past).2
    let swept := t.sweep now
    t.SameLimits swept.2 ∧
      (∀ key, t.contains key = true ↔ Nonempty (Opening start key past)) ∧
      (∀ key (o : Opening start key past),
        swept.2.pending.find? key = (if timeout < now - o.time then none else t.pending.find? key) ∧
          swept.1.filter (·.isTimeoutOf key) =
            if timeout < now - o.time then [.reassemblyTimeout key o.received o.first.header.fragmentCount] else []) ∧
      (∀ key, t.contains key = false → swept.2.contains key = false) ∧
      (∀ report ∈ swept.1, ∃ key, t.contains key = true ∧ report.isTimeoutOf key = true) ∧
      swept.2.sweep now = ([], swept.2) ∧
      ∀ later, now ≤ later →
        (swept.2.sweep later).2 = (t.sweep later).2 ∧ (swept.1 ++ (swept.2.sweep later).1).Perm (t.sweep later).1 := by
  intro start t swept
  have htimeout : t.timeout = timeout := (sameLimits_run start past).1
  refine ⟨.refl t, contains_iff_opening timeout maxPending maxMessageSize past, ?_, ?_, ?_, ?_, fun later =>
    t.sweep_sweep⟩
  · intro key o
    obtain ⟨e, he, hs, hc, hr⟩ := o.entry
    change t.pending.find? key = some e at he
    have hold : e.isOlderThan t.timeout now = decide (timeout < now - o.time) := by
      rw [Pending.isOlderThan, htimeout, hs]
    rw [find?_sweep, filter_sweep, he, Option.filter_some, Option.filter_some, hold, ← hc, ← hr]
    by_cases hage : timeout < now - o.time <;> simp [hage]
  · intro key hk
    rw [contains_eq, Option.isSome_eq_false_iff, Option.isNone_iff_eq_none] at hk ⊢
    rw [find?_sweep, hk]
    rfl
  · exact fun report => timeout_of_mem_sweep
  · obtain ⟨htable, hreports⟩ := t.sweep_sweep (Nat.le_refl now)
    have hlength := hreports.length_eq
    rw [List.length_append, Nat.add_eq_left] at hlength
    exact Prod.ext (List.eq_nil_of_length_eq_zero hlength) htable

/-- Message 0 was opened at time 5, whatever came later; message 1 was contradicted and opened again at time 8. -/
example :
    let t := ((new 10 4 100).run
      [.insert (piece 0 3 0) 5, .insert (piece 1 2 0) 0, .insert (piece 1 9 0) 3, .insert (piece 1 3 0) 8,
        .insert (piece 0 3 0) 14, .insert (piece 0 3 2) 15]).2
    (t.sweep 15).1 = [] ∧ (t.sweep 16).1 = [.reassemblyTimeout ⟨⟨7, 1, 2⟩, 0⟩ 2 3] ∧ (t.sweep 0).1 = [] := by
  decide +kernel

end Table
end LocalPlay.Reassembly
