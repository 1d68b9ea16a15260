import LocalPlay.Fragment.Split
import LocalPlay.Proofs.Reassembly.Invariant

/-! What an entry has to do with the steps since it was opened: it holds, for each index, the payload of the earliest
fragment of its key with that index. What is handed out is put together from these payloads. -/
namespace LocalPlay.Reassembly

/-- The fragment with a key that a step inserts, unless it is refused on sight. -/
def Op.fragment? (key : MessageKey) : Op → Option Packet
  | .insert p _ => if p.header.key = key ∧ fault? p.header = none then some p else none
  | .sweep _ | .clear => none

/-- The fragments with a key that these steps insert, in order, but for those refused on sight. -/
def fragments (key : MessageKey) (ops : List Op) : List Packet := ops.filterMap (Op.fragment? key)

theorem fragments_concat (key : MessageKey) (ops : List Op) (op : Op) :
    fragments key (ops ++ [op]) = fragments key ops ++ (op.fragment? key).toList := by
  rw [fragments, List.filterMap_append]
  cases h : op.fragment? key <;> simp [fragments, h]

/-- The first of these fragments that has an index. -/
def earliest (index : Nat) (ps : List Packet) : Option Packet := ps.find? (·.header.fragmentIndex.toNat = index)

/-- An entry holds what came of its message: for each index the payload of the earliest fragment. -/
structure Pending.Tracks (ps : List Packet) (e : Pending) : Prop where
  count : ∀ q ∈ ps, q.header.fragmentCount = e.fragmentCount ∧ q.header.fragmentIndex < e.fragmentCount
  slots : ∀ i < e.fragmentCount.toNat, e.slots.get? i = (earliest i ps).map Packet.payload

section
variable {ps : List Packet} {p : Packet} {e : Pending} {i : Nat}

theorem earliest_concat_of_ne (h : p.header.fragmentIndex.toNat ≠ i) : earliest i (ps ++ [p]) = earliest i ps := by
  simp [earliest, List.find?_append, h]

theorem earliest_concat_of_isSome (h : (earliest i ps).isSome) : earliest i (ps ++ [p]) = earliest i ps := by
  rw [earliest, List.find?_append]
  exact Option.or_of_isSome h

theorem earliest_concat_of_new (h : earliest p.header.fragmentIndex.toNat ps = none) :
    earliest p.header.fragmentIndex.toNat (ps ++ [p]) = some p := by
  rw [earliest] at h
  simp [earliest, List.find?_append, h]

theorem Pending.Tracks.of_new (count : UInt32) (now : Nat) : (Pending.new count now).Tracks [] :=
  ⟨by simp, by simp [Pending.new, earliest]⟩

theorem Pending.Tracks.repeated (h : e.Tracks ps) (hc : p.header.fragmentCount = e.fragmentCount)
    (hi : p.header.fragmentIndex < e.fragmentCount) (hs : (e.slots.get? p.header.fragmentIndex.toNat).isSome) :
    e.Tracks (ps ++ [p]) where
  count := List.forall_mem_append.mpr ⟨h.count, List.forall_mem_singleton.mpr ⟨hc, hi⟩⟩
  slots := by
    intro i hlt
    rw [h.slots i hlt]
    by_cases hne : p.header.fragmentIndex.toNat = i
    · subst hne
      rw [h.slots _ hlt, Option.isSome_map] at hs
      rw [earliest_concat_of_isSome hs]
    · rw [earliest_concat_of_ne hne]

theorem Pending.Tracks.store (h : e.Tracks ps) (hn : e.slots.size = e.fragmentCount.toNat)
    (hc : p.header.fragmentCount = e.fragmentCount) (hi : p.header.fragmentIndex < e.fragmentCount)
    (hs : e.slots.get? p.header.fragmentIndex.toNat = none) :
    (e.store p.header.fragmentIndex.toNat p.payload).Tracks (ps ++ [p]) where
  count := List.forall_mem_append.mpr ⟨h.count, List.forall_mem_singleton.mpr ⟨hc, hi⟩⟩
  slots := by
    intro i hlt
    have hi := UInt32.lt_iff_toNat_lt.mp hi
    have hfill := Slots.get?_fill (hn ▸ hi) p.payload i
    rw [Pending.store, hfill]
    by_cases hne : p.header.fragmentIndex.toNat = i
    · subst hne
      rw [h.slots _ hlt, Option.map_eq_none_iff] at hs
      rw [if_pos rfl, earliest_concat_of_new hs]
      rfl
    · rw [if_neg hne, earliest_concat_of_ne hne]
      exact h.slots i hlt

end

namespace Table
variable {t t' start : Table} {p : Packet} {now : Nat} {answer : Except SessionError (Option Bytes)}
  {key : MessageKey} {e e' : Pending} {past : List Op}

/-- The entry of a fragment's key after its insertion goes on with the one before, or is new. -/
theorem Insertion.tracks (h : t.WellFormed) (hi : Insertion t p now answer t')
    (he' : t'.pending.find? p.header.key = some e') :
    (∃ e, t.pending.find? p.header.key = some e ∧
      ∀ ps, e.Tracks ps → e'.Tracks (ps ++ ((Op.insert p now).fragment? p.header.key).toList)) ∨
    t.pending.find? p.header.key = none ∧ e'.Tracks ((Op.insert p now).fragment? p.header.key).toList := by
  cases hi with
  | refused hf => exact .inl ⟨e', he', fun ps hp => by simpa [Op.fragment?, hf] using hp⟩
  | aloneTooLong _ hk | alone _ hk | full _ hk => simp [hk] at he'
  | contradicted | outgrown | completed => simp at he'
  | repeated hf hk hc hs =>
    obtain rfl := Option.some.inj (hk.symm.trans he')
    have hi := (fault?_eq_none_iff.mp hf).2.1
    refine .inl ⟨_, hk, fun ps hp => ?_⟩
    simpa [Op.fragment?, hf] using hp.repeated hc.symm (hc ▸ hi) hs
  | stored hf he hs hl hd =>
    obtain rfl := Option.some.inj ((find?_put_self ..).symm.trans he')
    have hn := (he.consistent h hf).size_slots
    have hi := UInt32.lt_iff_toNat_lt.mpr (he.index_lt hf)
    rcases he with ⟨hk, hc⟩ | ⟨hk, -, -, rfl⟩
    · refine .inl ⟨_, hk, fun ps hp => ?_⟩
      simpa [Op.fragment?, hf] using hp.store hn hc.symm hi hs
    · refine .inr ⟨hk, ?_⟩
      simpa [Op.fragment?, hf] using (Pending.Tracks.of_new p.header.fragmentCount now).store hn rfl hi hs

/-- The entry of a key after a step goes on with the one before, or is new. -/
theorem step_tracks (h : t.WellFormed) {op : Op} (he' : (t.step op).2.pending.find? key = some e') :
    (∃ e, t.pending.find? key = some e ∧ ∀ ps, e.Tracks ps → e'.Tracks (ps ++ (op.fragment? key).toList)) ∨
    t.pending.find? key = none ∧ e'.Tracks (op.fragment? key).toList := by
  cases op with
  | insert p now =>
    have hi := insertion t p now
    by_cases hk : key = p.header.key
    · subst hk
      exact hi.tracks h he'
    · refine .inl ⟨e', (hi.find?_of_ne hk).symm.trans he', fun ps hp => ?_⟩
      simpa [Op.fragment?, Ne.symm hk] using hp
  | sweep now =>
    have hs : (t.sweep now).2.pending.find? key = some e' := he'
    rw [find?_sweep, Option.filter_eq_some_iff] at hs
    exact .inl ⟨e', hs.1, fun ps hp => by simpa [Op.fragment?] using hp⟩
  | clear => simp [step, clear] at he'

/-- The steps `before` are the longest beginning of the steps `past` after which a key is not pending: the entry that it
has now, if any, was opened by the next step. -/
structure OpenedAfter (start : Table) (key : MessageKey) (before past : List Op) : Prop where
  initial : before <+: past
  absent : (start.run before).2.pending.find? key = none
  latest : ∀ cut, cut <+: past → (start.run cut).2.pending.find? key = none → cut <+: before

theorem OpenedAfter.concat {before : List Op} (h : OpenedAfter start key before past) {op : Op}
    (hk : (start.run (past ++ [op])).2.pending.find? key ≠ none) : OpenedAfter start key before (past ++ [op]) where
  initial := h.initial.trans (List.prefix_append past [op])
  absent := h.absent
  latest := by
    intro cut hc ha
    rcases List.prefix_concat_iff.mp hc with rfl | hc
    · exact absurd ha hk
    · exact h.latest cut hc ha

theorem openedAfter_of_absent (ha : (start.run past).2.pending.find? key = none) : OpenedAfter start key past past :=
  ⟨List.prefix_rfl, ha, fun _ hc _ => hc⟩

/-- What a table holds goes back to the steps that led to it. -/
structure Recorded (start : Table) (past : List Op) (t : Table) : Prop where
  reached : (start.run past).2 = t
  wellFormed : t.WellFormed
  entries : ∀ {key e}, t.pending.find? key = some e →
    ∃ before range, past = before ++ range ∧ OpenedAfter start key before past ∧ e.Tracks (fragments key range)

theorem Recorded.step (h : Recorded start past t) (op : Op) : Recorded start (past ++ [op]) (t.step op).2 := by
  have hr : (start.run (past ++ [op])).2 = (t.step op).2 := by
    rw [run_eq, Machine.run_concat, ← run_eq, h.reached]
  refine ⟨hr, h.wellFormed.step op, ?_⟩
  intro key e' he'
  have hk : (start.run (past ++ [op])).2.pending.find? key ≠ none := by simp [hr, he']
  rcases step_tracks h.wellFormed he' with ⟨e, he, ht⟩ | ⟨hn, ht⟩
  · obtain ⟨before, range, hp, ho, hte⟩ := h.entries he
    refine ⟨before, range ++ [op], by rw [hp, List.append_assoc], ho.concat hk, ?_⟩
    rw [fragments_concat]
    exact ht _ hte
  · refine ⟨past, [op], rfl, (openedAfter_of_absent (h.reached ▸ hn)).concat hk, ?_⟩
    rw [← List.nil_append [op], fragments_concat]
    exact ht

theorem recorded_run (timeout maxPending maxMessageSize : Nat) (past : List Op) :
    let start := new timeout maxPending maxMessageSize
    Recorded start past (start.run past).2 := by
  intro start
  have h0 : Recorded start [] start := ⟨rfl, .of_new .., by simp [start, new]⟩
  rw [run_eq]
  exact (Machine.run_history (Recorded start) (fun _ _ => True) (fun op _ _ _ hs => ⟨trivial, hs.step op⟩) [] h0).2

/-- A message is put together from the fragments that came before its last one, and that one: all of them are
fragments of so many, each index comes, the last one not earlier, and the first payload with an index counts. -/
structure Assembles (earlier : List Packet) (p : Packet) (message : Bytes) : Prop where
  fits : ∀ q ∈ earlier ++ [p], q.header.fragmentCount = p.header.fragmentCount ∧
    q.header.fragmentIndex < p.header.fragmentCount
  complete : ∀ i < p.header.fragmentCount.toNat, (earliest i (earlier ++ [p])).isSome
  last_new : ∀ q ∈ earlier, q.header.fragmentIndex ≠ p.header.fragmentIndex
  message_eq : message = (List.range p.header.fragmentCount.toNat).flatMap fun i =>
    ((earliest i (earlier ++ [p])).map Packet.payload).getD []

theorem Assembles.of_tracks {ps : List Packet} (h : e.Tracks ps) (hc : e.Consistent)
    (hp : e.fragmentCount = p.header.fragmentCount) (hi : p.header.fragmentIndex < e.fragmentCount)
    (hs : e.slots.get? p.header.fragmentIndex.toNat = none) (hd : e.received + 1 = e.slots.size) :
    Assembles ps p (e.store p.header.fragmentIndex.toNat p.payload).slots.contents := by
  have hlt := UInt32.lt_iff_toNat_lt.mp hi
  have ht := h.store hc.size_slots hp.symm hi hs
  have hstore := hc.store hlt hs p.payload
  have hn : (e.store p.header.fragmentIndex.toNat p.payload).slots.size = p.header.fragmentCount.toNat := by
    rw [hstore.size_slots, ← hp]
    rfl
  have hall := hstore.complete_iff.mp (by simpa [Pending.store] using hd)
  rw [hn] at hall
  constructor
  · intro q hq
    have hq := ht.count q hq
    rwa [Pending.store, hp] at hq
  · intro i hi
    have hsome := hall i hi
    rwa [ht.slots i (by rwa [Pending.store, hp]), Option.isSome_map] at hsome
  · intro q hq heq
    rw [h.slots _ hlt, Option.map_eq_none_iff, earliest, List.find?_eq_none] at hs
    exact hs q hq (by simp [heq])
  · rw [Slots.contents_eq_flatMap, hn]
    apply List.flatMap_congr
    intro i hi
    rw [ht.slots i (by rw [Pending.store, hp]; exact List.mem_range.mp hi)]

theorem Insertion.length_le (h : t.WellFormed) {message : Bytes} (hi : Insertion t p now (.ok (some message)) t') :
    message.length ≤ t.maxMessageSize := by
  cases hi with
  | alone _ _ _ hl => exact hl
  | completed hf he hs hl _ =>
    rwa [((he.consistent h hf).store (he.index_lt hf) hs p.payload).length_contents]

/-- A message is handed out whole, or the entry of its key was pending and is gone. -/
theorem Insertion.assembles (h : Recorded start past t) {message : Bytes}
    (hi : Insertion t p now (.ok (some message)) t') :
    t'.pending.find? p.header.key = none ∧
      (t.pending.find? p.header.key = none ∧ p.header.fragmentCount = 1 ∧ message = p.payload ∨
        t.pending.find? p.header.key ≠ none ∧ ∃ before range, past = before ++ range ∧
          OpenedAfter start p.header.key before past ∧ Assembles (fragments p.header.key range) p message) := by
  cases hi with
  | alone hf hk hc => exact ⟨hk, .inl ⟨hk, hc, rfl⟩⟩
  | completed hf he hs hl hd =>
    refine ⟨find?_drop_self .., .inr ?_⟩
    have hcons := he.consistent h.wellFormed hf
    have hlt := UInt32.lt_iff_toNat_lt.mpr (he.index_lt hf)
    rcases he with ⟨hk, hc⟩ | ⟨-, hc, -, rfl⟩
    · obtain ⟨before, range, hp, ho, ht⟩ := h.entries hk
      exact ⟨by simp [hk], before, range, hp, ho, .of_tracks ht hcons hc hlt hs hd⟩
    · -- a new entry waits for more than one fragment
      have h2 := hcons.two_le
      have hn := hcons.size_slots
      simp only [Pending.new] at hd h2 hn
      omega

/-- Let an insertion hand out a message, at any time in any run. The message is not too long. If its key was not
pending, it is the one fragment; else it is put together from the fragments that came since the entry was opened. All
that ended an earlier entry of the key lies before that, and in particular every message handed out earlier. -/
theorem run_assembles {timeout maxPending maxMessageSize : Nat} {past : List Op} {p : Packet} {now : Nat}
    {message : Bytes}
    (h : (((new timeout maxPending maxMessageSize).run past).2.insert p now).1 = .ok (some message)) :
    let start := new timeout maxPending maxMessageSize
    let t := (start.run past).2
    message.length ≤ maxMessageSize ∧
      (t.pending.find? p.header.key = none → p.header.fragmentCount = 1 ∧ message = p.payload) ∧
      (t.pending.find? p.header.key ≠ none → ∃ before range, past = before ++ range ∧
        OpenedAfter start p.header.key before past ∧ Assembles (fragments p.header.key range) p message ∧
        ∀ earlier q now' message', earlier ++ [.insert q now'] <+: past → q.header.key = p.header.key →
          ((start.run earlier).2.insert q now').1 = .ok (some message') → earlier ++ [.insert q now'] <+: before) := by
  intro start t
  have hr : Recorded start past t := recorded_run timeout maxPending maxMessageSize past
  have hi := insertion t p now
  rw [h] at hi
  have hm := (sameLimits_run start past).2.2
  obtain ⟨-, hd⟩ := hi.assembles hr
  refine ⟨Nat.le_trans (hi.length_le hr.wellFormed) (Nat.le_of_eq hm), ?_, ?_⟩
  · intro hk
    rcases hd with ⟨-, hc⟩ | ⟨hne, -⟩
    · exact hc
    · exact absurd hk hne
  · intro hk
    rcases hd with ⟨hn, -⟩ | ⟨-, before, range, hp, ho, ha⟩
    · exact absurd hn hk
    refine ⟨before, range, hp, ho, ha, ?_⟩
    intro earlier q now' message' hprefix hkey hq
    apply ho.latest _ hprefix
    have hiq := insertion (start.run earlier).2 q now'
    rw [hq] at hiq
    have hgone := (hiq.assembles (recorded_run timeout maxPending maxMessageSize earlier)).1
    rw [run_eq, Machine.run_concat, ← run_eq, ← hkey]
    exact hgone

/-- A fragment of a message in two. -/
def half (index : Nat) (chunk : Bytes) : Packet := Fragment.packet ⟨⟨7, 1, 2⟩, 0⟩ 0 2 index chunk

/-- A first half, another one in its place, and a fragment that lies behind the end. -/
def halves : List Op := [.insert (half 0 [1]) 0, .insert (half 0 [9]) 1, .insert (half 5 [3]) 2]

private theorem openedAfter_halves : OpenedAfter (new 10 4 100) ⟨⟨7, 1, 2⟩, 0⟩ [] halves := by
  have h0 : OpenedAfter (new 10 4 100) ⟨⟨7, 1, 2⟩, 0⟩ [] [] := openedAfter_of_absent rfl
  have h1 : OpenedAfter (new 10 4 100) ⟨⟨7, 1, 2⟩, 0⟩ [] ([] ++ [.insert (half 0 [1]) 0]) :=
    h0.concat (by decide +kernel)
  have h2 : OpenedAfter (new 10 4 100) ⟨⟨7, 1, 2⟩, 0⟩ [] (_ ++ [.insert (half 0 [9]) 1]) :=
    h1.concat (by decide +kernel)
  have h3 : OpenedAfter (new 10 4 100) ⟨⟨7, 1, 2⟩, 0⟩ [] (_ ++ [.insert (half 5 [3]) 2]) :=
    h2.concat (by decide +kernel)
  exact h3

/-- The second half gives the message, with the payload that came first. -/
theorem run_assembles_halves :
    (((new 10 4 100).run halves).2.insert (half 1 [2]) 3).1 = .ok (some [1, 2]) ∧
      ∃ before range, halves = before ++ range ∧ OpenedAfter (new 10 4 100) ⟨⟨7, 1, 2⟩, 0⟩ before halves ∧
        Assembles (fragments ⟨⟨7, 1, 2⟩, 0⟩ range) (half 1 [2]) [1, 2] := by
  have h : (((new 10 4 100).run halves).2.insert (half 1 [2]) 3).1 = .ok (some [1, 2]) := by decide +kernel
  obtain ⟨-, -, hd⟩ := run_assembles h
  obtain ⟨before, range, hp, ho, ha, -⟩ := hd (by decide +kernel)
  exact ⟨h, before, range, hp, ho, ha⟩

/-- Not every fragment with the key that is inserted while a message is gathered has an index within it: one that
has not is refused, and the message is gathered on. -/
theorem not_all_in_range :
    ¬ ∀ (past before range : List Op) (p : Packet) (now : Nat) (message : Bytes),
      (((new 10 4 100).run past).2.insert p now).1 = .ok (some message) → past = before ++ range →
      OpenedAfter (new 10 4 100) p.header.key before past →
      ∀ q now', .insert q now' ∈ range → q.header.isFragment = true → q.header.key = p.header.key →
        q.header.fragmentCount = p.header.fragmentCount ∧ q.header.fragmentIndex < p.header.fragmentCount := by
  intro hall
  have hin := hall halves [] halves (half 1 [2]) 3 [1, 2] (by decide +kernel) rfl openedAfter_halves (half 5 [3]) 2
    (by simp [halves]) rfl rfl
  exact absurd hin.2 (by decide)

end Table
end LocalPlay.Reassembly
