import LocalPlay.Fragment.Split
import LocalPlay.Proofs.Fragment.Joining
import LocalPlay.Proofs.Machine
import LocalPlay.Proofs.Reassembly.Insertion

/-! Gathering and joining agree. Fragments with different indices that are inserted one after the other give a message
with the last of them exactly if all of them at once join to it, as long as its size and their number keep the limits.
The one counts what came and the other compares lengths, but both fill the same slots. -/
namespace LocalPlay.Reassembly

/-- Packets are inserted one after the other, each at its time. -/
def inserts (arrivals : List (Packet × Nat)) : List Op := arrivals.map fun (p, now) => .insert p now

/-- Of so many answers the last one hands out a message, and all others nothing. -/
def handedOutLast (count : Nat) (message : Bytes) : List Outcome :=
  List.replicate (count - 1) (.inserted (.ok none)) ++ [.inserted (.ok (some message))]

theorem handedOutLast_one (message : Bytes) : handedOutLast 1 message = [.inserted (.ok (some message))] := rfl

theorem handedOutLast_add_two (count : Nat) (message : Bytes) :
    handedOutLast (count + 2) message = .inserted (.ok none) :: handedOutLast (count + 1) message := rfl

namespace Pending
variable {limit : Nat} {p : Packet} {ps : List Packet} {message : Bytes} {e : Pending}

/-- These fragments are what an entry still needs to become a message that is not too long. -/
structure CompletedBy (limit : Nat) (ps : List Packet) (message : Bytes) (e : Pending) : Prop where
  fits : ∀ p ∈ ps, fault? p.header = none ∧ p.header.fragmentCount = e.fragmentCount
  received_eq : e.received + ps.length = e.slots.size
  size_le : e.size + (ps.map (·.payload.length)).sum ≤ limit
  message_eq : message = (e.slots.fillAll ps).contents

theorem completedBy_nil :
    e.CompletedBy limit [] message ↔ e.received = e.slots.size ∧ e.size ≤ limit ∧ message = e.slots.contents := by
  constructor
  · rintro ⟨-, hr, hl, hm⟩
    exact ⟨hr, hl, hm⟩
  · rintro ⟨hr, hl, hm⟩
    exact ⟨by simp, hr, hl, hm⟩

/-- The next fragment fits, and the others complete the entry that holds it. -/
theorem completedBy_cons :
    e.CompletedBy limit (p :: ps) message ↔
      (fault? p.header = none ∧ p.header.fragmentCount = e.fragmentCount) ∧
        (e.store p.header.fragmentIndex.toNat p.payload).CompletedBy limit ps message := by
  constructor
  · rintro ⟨hf, hr, hl, hm⟩
    obtain ⟨hp, hf⟩ := List.forall_mem_cons.mp hf
    simp only [List.length_cons, List.map_cons, List.sum_cons] at hr hl
    refine ⟨hp, hf, ?_, ?_, hm⟩
    · simp only [store, Slots.size_fill]
      omega
    · simp only [store]
      omega
  · rintro ⟨hp, hf, hr, hl, hm⟩
    simp only [store, Slots.size_fill] at hr hl
    refine ⟨List.forall_mem_cons.mpr ⟨hp, hf⟩, ?_, ?_, hm⟩
    · rw [List.length_cons]
      omega
    · rw [List.map_cons, List.sum_cons]
      omega

end Pending

namespace Table
variable {t s : Table} {p : Packet} {now : Nat} {key : MessageKey} {e : Pending} {message : Bytes}

/-- What a fragment with an empty slot does, if the table does not hold the entry itself. -/
theorem extend_of_empty (hk : t.pending.find? p.header.key = none)
    (hs : e.slots.get? p.header.fragmentIndex.toNat = none) :
    t.extend e p =
      if t.maxMessageSize < e.size + p.payload.length then (.error (.messageTooLarge (e.size + p.payload.length)), t)
      else if e.received + 1 = e.slots.size then
        (.ok (some (e.store p.header.fragmentIndex.toNat p.payload).slots.contents), t)
      else (.ok none, t.put p.header.key (e.store p.header.fragmentIndex.toNat p.payload)) := by
  have hn : ¬ (e.slots.get? p.header.fragmentIndex.toNat).isSome = true := by simp [hs]
  simp only [extend, if_neg hn, drop_of_absent hk, Pending.isComplete_store]
  rfl

/-- The table `s` takes a packet that fits an entry as `t` would with that entry, and refuses any other. -/
def TakesInto (t s : Table) (e : Pending) (p : Packet) (now : Nat) : Prop :=
  if fault? p.header = none ∧ p.header.fragmentCount = e.fragmentCount then s.insert p now = t.extend e p
  else ∃ reason, (s.insert p now).1 = .error reason

/-- A table that holds the entry. -/
theorem takesInto_put (hs : e.slots.get? p.header.fragmentIndex.toNat = none) (now : Nat) :
    t.TakesInto (t.put p.header.key e) e p now := by
  simp only [TakesInto, insert, find?_put_self, extend_put hs]
  cases hf : fault? p.header with
  | some cause => simp
  | none =>
    by_cases hc : p.header.fragmentCount = e.fragmentCount
    · simp [hc]
    · simp [hc, Ne.symm hc]

/-- A message of one fragment is handed out without an entry, but as if there were one. -/
private theorem openEntry_alone (hk : t.pending.find? p.header.key = none) (hc : p.header.fragmentCount = 1)
    (hi : p.header.fragmentIndex < p.header.fragmentCount) :
    t.openEntry p now = t.extend (.new p.header.fragmentCount now) p := by
  have h0 : p.header.fragmentIndex.toNat = 0 := by
    rw [hc] at hi
    exact Nat.lt_one_iff.mp (UInt32.lt_iff_toNat_lt.mp hi)
  have hcontents : ((Slots.empty 1).fill 0 p.payload).contents = p.payload := by
    simp [Slots.empty, Slots.fill, Slots.contents]
  rw [openEntry, if_pos hc, extend_of_empty hk (Slots.get?_empty ..), hc, h0]
  simp only [Pending.new, Pending.store, Slots.size_empty, Nat.zero_add, UInt32.toNat_one, if_true, hcontents]

/-- A table with room for the entry. -/
theorem takesInto_new (hk : t.pending.find? p.header.key = none) (hr : t.size < t.maxPending) (now : Nat) :
    t.TakesInto t (.new p.header.fragmentCount now) p now := by
  simp only [TakesInto, insert, hk]
  cases hf : fault? p.header with
  | some cause => simp
  | none =>
    simp only [Pending.new, and_self, if_true]
    by_cases hc : p.header.fragmentCount = 1
    · exact openEntry_alone hk hc (fault?_eq_none_iff.mp hf).2.1
    · simp only [openEntry, if_neg hc, if_neg (Nat.not_le.mpr hr)]
      rfl

/-- A fragment with an empty slot cannot help to complete the entry and is refused, or is the last one that is missing,
or is stored for the others to come. -/
theorem TakesInto.trichotomy (h : t.TakesInto s e p now) (hk : t.pending.find? p.header.key = none)
    (hs : e.slots.get? p.header.fragmentIndex.toNat = none) :
    (∃ reason, (s.insert p now).1 = .error reason) ∧
        (∀ ps message, ¬ e.CompletedBy t.maxMessageSize (p :: ps) message) ∨
      (∃ whole, s.insert p now = (.ok (some whole), t) ∧
        ∀ ps message, e.CompletedBy t.maxMessageSize (p :: ps) message ↔ ps = [] ∧ message = whole) ∨
      s.insert p now = (.ok none, t.put p.header.key (e.store p.header.fragmentIndex.toNat p.payload)) ∧
        ∀ ps message, e.CompletedBy t.maxMessageSize (p :: ps) message ↔
          ps ≠ [] ∧ (e.store p.header.fragmentIndex.toNat p.payload).CompletedBy t.maxMessageSize ps message := by
  simp only [Pending.completedBy_cons]
  rw [TakesInto] at h
  split at h
  case isFalse hfit => exact .inl ⟨h, fun ps message hc => hfit hc.1⟩
  case isTrue hfit =>
    rw [extend_of_empty hk hs] at h
    split at h
    case isTrue hl =>
      refine .inl ⟨⟨_, congrArg Prod.fst h⟩, ?_⟩
      rintro ps message ⟨-, hc⟩
      have hle := hc.size_le
      simp only [Pending.store] at hle
      omega
    case isFalse hl =>
      split at h
      case isTrue hd =>
        refine .inr (.inl ⟨_, h, fun ps message => ?_⟩)
        constructor
        · rintro ⟨-, hc⟩
          have hr := hc.received_eq
          simp only [Pending.store, Slots.size_fill] at hr
          obtain rfl : ps = [] := List.eq_nil_of_length_eq_zero (by omega)
          exact ⟨rfl, hc.message_eq⟩
        · rintro ⟨rfl, rfl⟩
          refine ⟨hfit, Pending.completedBy_nil.mpr ⟨?_, Nat.not_lt.mp hl, rfl⟩⟩
          simpa [Pending.store] using hd
      case isFalse hd =>
        refine .inr (.inr ⟨h, fun ps message => and_congr_left fun hc => iff_of_true hfit ?_⟩)
        rintro rfl
        have hr := hc.received_eq
        simp only [Pending.store, Slots.size_fill, List.length_nil] at hr
        exact hd hr

theorem run_inserts_cons (s : Table) (p : Packet) (now : Nat) (arrivals : List (Packet × Nat)) :
    s.run (inserts ((p, now) :: arrivals)) =
      (.inserted (s.insert p now).1 :: ((s.insert p now).2.run (inserts arrivals)).1,
        ((s.insert p now).2.run (inserts arrivals)).2) := by
  simp only [inserts, List.map_cons, run, step]

/-- The fragments that come hand out a message with the last one exactly if they complete the entry with it. Then the
table is left as it was without the entry. -/
theorem run_inserts_iff_completedBy {arrivals : List (Packet × Nat)} (hk : t.pending.find? key = none)
    (hkey : ∀ arrival ∈ (p, now) :: arrivals, arrival.1.header.key = key) (ht : t.TakesInto s e p now)
    (he : ∀ i ∈ Fragment.indices (p :: arrivals.map Prod.fst), e.slots.get? i = none)
    (hn : (Fragment.indices (p :: arrivals.map Prod.fst)).Nodup) :
    let run := s.run (inserts ((p, now) :: arrivals))
    (run.1 = handedOutLast (arrivals.length + 1) message ↔
      e.CompletedBy t.maxMessageSize (p :: arrivals.map Prod.fst) message) ∧
    (run.1 = handedOutLast (arrivals.length + 1) message → run.2 = t) := by
  induction arrivals generalizing s e p now with
  | nil =>
    obtain rfl := hkey _ List.mem_cons_self
    rw [run_inserts_cons, List.length_nil, handedOutLast_one]
    rcases ht.trichotomy hk (he _ List.mem_cons_self) with ⟨⟨reason, hr⟩, hc⟩ | ⟨whole, hi, hc⟩ | ⟨hi, hc⟩
    · simp [hr, hc]
    · simp [hi, hc, inserts, run, eq_comm]
    · simp [hi, hc]
  | cons arrival rest ih =>
    obtain rfl := hkey _ List.mem_cons_self
    rw [run_inserts_cons, List.length_cons, handedOutLast_add_two]
    rw [Fragment.indices_cons, List.forall_mem_cons] at he
    obtain ⟨hp, hn⟩ := List.nodup_cons.mp hn
    rcases ht.trichotomy hk he.1 with ⟨⟨reason, hr⟩, hc⟩ | ⟨whole, hi, hc⟩ | ⟨hi, hc⟩
    · simp [hr, hc]
    · simp [hi, hc]
    · -- the other fragments find their slots empty in the entry that holds this one
      have he' : ∀ i ∈ Fragment.indices (arrival.1 :: rest.map Prod.fst),
          (e.store p.header.fragmentIndex.toNat p.payload).slots.get? i = none := by
        intro i hm
        rw [Pending.store, Slots.get?_fill_of_ne _ (by rintro rfl; exact hp hm)]
        exact he.2 i hm
      have hput := takesInto_put (t := t) (he' _ List.mem_cons_self) arrival.2
      rw [hkey arrival (List.mem_cons_of_mem _ List.mem_cons_self)] at hput
      have hrest := ih (fun a ha => hkey a (List.mem_cons_of_mem _ ha)) hput he' hn
      simpa [hi, hc] using hrest

/-- The two differ in the limit on the number of fragments alone. -/
theorem fits_iff {count : UInt32} :
    fault? p.header = none ∧ p.header.fragmentCount = count ↔
      Fragment.fault? count p = none ∧ p.header.fragmentCount.toNat ≤ maxFragments := by
  rw [fault?_eq_none_iff, Fragment.fault?_eq_none_iff]
  constructor
  · rintro ⟨⟨hk, hi, hm⟩, rfl⟩
    exact ⟨⟨hk, rfl, hi⟩, hm⟩
  · rintro ⟨⟨hk, rfl, hi⟩, hm⟩
    exact ⟨⟨hk, hi, hm⟩, rfl⟩

/-- A new entry is completed by fragments that are joined, if their size and number keep the limits. -/
theorem completedBy_new_iff_join {first : Packet} {rest : List Packet} {limit : Nat}
    (hn : (Fragment.indices (first :: rest)).Nodup) :
    (Pending.new first.header.fragmentCount now).CompletedBy limit (first :: rest) message ↔
      Fragment.join (first :: rest) = .ok message ∧
        (∀ p ∈ first :: rest, p.header.fragmentCount.toNat ≤ maxFragments) ∧ message.length ≤ limit := by
  rw [Fragment.join_eq_ok_iff]
  generalize first :: rest = ps at hn
  generalize first.header.fragmentCount = count
  constructor
  · rintro ⟨hfits, hr, hl, rfl⟩
    have hf : ∀ p ∈ ps, Fragment.fault? count p = none := fun p hp => (fits_iff.mp (hfits p hp)).1
    have hm : ∀ p ∈ ps, p.header.fragmentCount.toNat ≤ maxFragments := fun p hp => (fits_iff.mp (hfits p hp)).2
    simp only [Pending.new, Slots.size_empty, Nat.zero_add] at hr hl
    refine ⟨⟨hf, hn, hr, rfl⟩, hm, ?_⟩
    rwa [Pending.new, Fragment.length_contents_fillAll_empty hf hn]
  · rintro ⟨⟨hf, -, hr, rfl⟩, hm, hl⟩
    rw [Fragment.length_contents_fillAll_empty hf hn] at hl
    refine ⟨fun p hp => fits_iff.mpr ⟨hf p hp, hm p hp⟩, ?_, ?_, rfl⟩
    · simpa [Pending.new] using hr
    · simpa [Pending.new] using hl

/-- Insert packets of one key with different indices, at any times, where the key is not pending and there is room. The
last one hands out a message, and none before it, exactly if all of them at once are joined to this message, they are no
more than a receiver gathers, and the message is not too long. Then the table is left as it was, without the key. -/
theorem run_inserts_iff_join {arrivals : List (Packet × Nat)} (hne : arrivals ≠ [])
    (hkey : ∀ arrival ∈ arrivals, arrival.1.header.key = key)
    (hn : (arrivals.map (·.1.header.fragmentIndex)).Nodup) (hk : ¬ t.contains key) (hr : t.size < t.maxPending)
    (message : Bytes) :
    let run := t.run (inserts arrivals)
    (run.1 = handedOutLast arrivals.length message ↔
      Fragment.join (arrivals.map Prod.fst) = .ok message ∧
        (∀ arrival ∈ arrivals, arrival.1.header.fragmentCount.toNat ≤ maxFragments) ∧
        message.length ≤ t.maxMessageSize) ∧
    (run.1 = handedOutLast arrivals.length message → run.2 = t) := by
  rcases arrivals with _ | ⟨⟨first, now⟩, rest⟩
  · exact absurd rfl hne
  have hnone : t.pending.find? key = none := by simpa [contains, KeyedList.contains] using hk
  have hfirst : first.header.key = key := hkey _ List.mem_cons_self
  have hindices : (Fragment.indices (first :: rest.map Prod.fst)).Nodup := by
    rw [Fragment.nodup_indices_iff]
    simpa [Function.comp_def] using hn
  have ht := takesInto_new (hfirst ▸ hnone) hr now
  have hrun : (_ = handedOutLast _ message ↔ _) ∧ _ :=
    run_inserts_iff_completedBy hnone hkey ht (fun i _ => Slots.get?_empty _ i) hindices
  rw [completedBy_new_iff_join hindices] at hrun
  simpa using hrun

/-- A fragment of a message in three. -/
def part (index : Nat) (chunk : Bytes) : Packet := Fragment.packet ⟨⟨7, 1, 2⟩, 0⟩ 0 3 index chunk

/-- While another message is gathered, the three come with the last one first and the clock going back. -/
theorem run_inserts_iff_join_shuffled :
    let t := ((new 10 2 100).run [.insert (Fragment.packet ⟨⟨7, 1, 2⟩, 1⟩ 0 2 0 [9]) 0]).2
    let arrivals := [(part 2 [5], 1), (part 0 [1, 2], 4), (part 1 [3, 4], 2)]
    ¬ t.contains ⟨⟨7, 1, 2⟩, 0⟩ ∧ t.size < t.maxPending ∧
      Fragment.join (arrivals.map Prod.fst) = .ok [1, 2, 3, 4, 5] ∧
      t.run (inserts arrivals) = (handedOutLast 3 [1, 2, 3, 4, 5], t) := by
  intro t arrivals
  have hk : ¬ t.contains ⟨⟨7, 1, 2⟩, 0⟩ := by decide +kernel
  have hr : t.size < t.maxPending := by decide +kernel
  have hj : Fragment.join (arrivals.map Prod.fst) = .ok [1, 2, 3, 4, 5] := by decide +kernel
  have hne : arrivals ≠ [] := by simp [arrivals]
  have hkey : ∀ arrival ∈ arrivals, arrival.1.header.key = ⟨⟨7, 1, 2⟩, 0⟩ := by decide +kernel
  have hn : (arrivals.map (·.1.header.fragmentIndex)).Nodup := by decide +kernel
  obtain ⟨hiff, htable⟩ := run_inserts_iff_join hne hkey hn hk hr [1, 2, 3, 4, 5]
  have hrun := hiff.mpr ⟨hj, by decide +kernel, by decide +kernel⟩
  exact ⟨hk, hr, hj, Prod.ext hrun (htable hrun)⟩

end Table
end LocalPlay.Reassembly
