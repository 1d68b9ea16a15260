import LocalPlay.Reassembly.Table

/-! The ways out of an insertion, each with its conditions, its answer and the table it leaves. What holds of
every insertion is read off them: the limits stay, and no key but the packet's own is touched. -/
namespace LocalPlay.Reassembly

theorem fault?_eq_none_iff {h : Header} :
    fault? h = none ↔
      h.isFragment = true ∧ h.fragmentIndex < h.fragmentCount ∧ h.fragmentCount.toNat ≤ maxFragments := by
  simp only [fault?]
  by_cases hf : h.isFragment = true
  case neg => simp [hf]
  by_cases hi : h.fragmentCount ≤ h.fragmentIndex
  case pos => simp [hf, hi, UInt32.not_lt.mpr hi]
  by_cases hm : maxFragments < h.fragmentCount.toNat
  case pos => simp [hf, hi, hm, Nat.not_le.mpr hm]
  simp [hf, hi, hm, UInt32.not_le.mp hi, Nat.not_lt.mp hm]

/-- A packet is refused on sight for one of three reasons. -/
theorem fault?_cases {h : Header} {cause : ProtocolError} (hf : fault? h = some cause) :
    cause = .notAFragment ∨ (∃ index count, cause = .badFragmentIndex index count) ∨
      ∃ count, cause = .tooManyFragments count := by
  simp only [fault?] at hf
  split at hf
  · exact .inl (Option.some.inj hf).symm
  split at hf
  · exact .inr (.inl ⟨_, _, (Option.some.inj hf).symm⟩)
  split at hf
  · exact .inr (.inr ⟨_, (Option.some.inj hf).symm⟩)
  · simp at hf

theorem Pending.isComplete_store (e : Pending) (index : Nat) (payload : Bytes) :
    (e.store index payload).isComplete = true ↔ e.received + 1 = e.slots.size := by
  simp [Pending.isComplete, Pending.store]

namespace Table

def put (t : Table) (key : MessageKey) (e : Pending) : Table := { t with pending := t.pending.insert key e }

/-- The entry that takes a fragment: that of its message, or a new one where there is room. -/
def Admits (t : Table) (p : Packet) (now : Nat) (e : Pending) : Prop :=
  t.pending.find? p.header.key = some e ∧ e.fragmentCount = p.header.fragmentCount ∨
    t.pending.find? p.header.key = none ∧ p.header.fragmentCount ≠ 1 ∧ t.size < t.maxPending ∧
      e = Pending.new p.header.fragmentCount now

@[simp] theorem find?_put_self (t : Table) (key : MessageKey) (e : Pending) :
    (t.put key e).pending.find? key = some e :=
  KeyedList.find?_insert_self ..

@[simp] theorem find?_drop_self (t : Table) (key : MessageKey) : (t.drop key).pending.find? key = none :=
  KeyedList.find?_erase_self ..

theorem find?_put_of_ne (t : Table) {key key' : MessageKey} (e : Pending) (h : key' ≠ key) :
    (t.put key e).pending.find? key' = t.pending.find? key' :=
  KeyedList.find?_insert_of_ne _ e h

theorem find?_drop_of_ne (t : Table) {key key' : MessageKey} (h : key' ≠ key) :
    (t.drop key).pending.find? key' = t.pending.find? key' :=
  KeyedList.find?_erase_of_ne _ h

theorem contains_eq (t : Table) (key : MessageKey) : t.contains key = (t.pending.find? key).isSome := rfl

theorem drop_of_absent {t : Table} {key : MessageKey} (hk : t.pending.find? key = none) : t.drop key = t := by
  rw [drop, KeyedList.erase_of_find?_eq_none hk]

/-- A fragment whose slot is empty leaves no trace of the entry that was there before. -/
theorem extend_put {t : Table} {p : Packet} {e : Pending} (hs : e.slots.get? p.header.fragmentIndex.toNat = none)
    (e' : Pending) : (t.put p.header.key e').extend e p = t.extend e p := by
  simp [extend, put, hs, drop]

inductive Insertion (t : Table) (p : Packet) (now : Nat) :
    Except SessionError (Option Bytes) → Table → Prop where
  | refused {cause : ProtocolError} (hf : fault? p.header = some cause) :
      Insertion t p now (.error (.protocol cause)) t
  /-- A message of one fragment that is longer than a message may be. -/
  | aloneTooLong (hf : fault? p.header = none) (hk : t.pending.find? p.header.key = none)
      (hc : p.header.fragmentCount = 1) (hl : t.maxMessageSize < p.payload.length) :
      Insertion t p now (.error (.messageTooLarge p.payload.length)) t
  | alone (hf : fault? p.header = none) (hk : t.pending.find? p.header.key = none)
      (hc : p.header.fragmentCount = 1) (hl : p.payload.length ≤ t.maxMessageSize) :
      Insertion t p now (.ok (some p.payload)) t
  | full (hf : fault? p.header = none) (hk : t.pending.find? p.header.key = none)
      (hc : p.header.fragmentCount ≠ 1) (hr : t.maxPending ≤ t.size) :
      Insertion t p now (.error (.tableFull t.maxPending)) t
  | contradicted {e : Pending} (hf : fault? p.header = none) (hk : t.pending.find? p.header.key = some e)
      (hc : e.fragmentCount ≠ p.header.fragmentCount) :
      Insertion t p now (.error (.protocol (.fragmentCountMismatch e.fragmentCount p.header.fragmentCount)))
        (t.drop p.header.key)
  | repeated {e : Pending} (hf : fault? p.header = none) (hk : t.pending.find? p.header.key = some e)
      (hc : e.fragmentCount = p.header.fragmentCount)
      (hs : (e.slots.get? p.header.fragmentIndex.toNat).isSome) :
      Insertion t p now (.ok none) t
  | outgrown {e : Pending} (hf : fault? p.header = none) (he : t.Admits p now e)
      (hs : e.slots.get? p.header.fragmentIndex.toNat = none)
      (hl : t.maxMessageSize < e.size + p.payload.length) :
      Insertion t p now (.error (.messageTooLarge (e.size + p.payload.length))) (t.drop p.header.key)
  | completed {e : Pending} (hf : fault? p.header = none) (he : t.Admits p now e)
      (hs : e.slots.get? p.header.fragmentIndex.toNat = none)
      (hl : e.size + p.payload.length ≤ t.maxMessageSize) (hd : e.received + 1 = e.slots.size) :
      Insertion t p now (.ok (some (e.store p.header.fragmentIndex.toNat p.payload).slots.contents))
        (t.drop p.header.key)
  | stored {e : Pending} (hf : fault? p.header = none) (he : t.Admits p now e)
      (hs : e.slots.get? p.header.fragmentIndex.toNat = none)
      (hl : e.size + p.payload.length ≤ t.maxMessageSize) (hd : e.received + 1 ≠ e.slots.size) :
      Insertion t p now (.ok none) (t.put p.header.key (e.store p.header.fragmentIndex.toNat p.payload))

private theorem insertion_extend {t : Table} {p : Packet} {now : Nat} {e : Pending}
    (hf : fault? p.header = none) (he : t.Admits p now e)
    (hs : e.slots.get? p.header.fragmentIndex.toNat = none) :
    Insertion t p now (t.extend e p).1 (t.extend e p).2 := by
  have hn : ¬ (e.slots.get? p.header.fragmentIndex.toNat).isSome = true := by simp [hs]
  simp only [extend, if_neg hn]
  split
  · exact .outgrown hf he hs ‹_›
  · rename_i hl
    have hle := Nat.not_lt.mp hl
    split
    · exact .completed hf he hs hle ((Pending.isComplete_store e _ _).mp ‹_›)
    · rename_i hd
      exact .stored hf he hs hle (fun h => hd ((Pending.isComplete_store e _ _).mpr h))

private theorem insertion_open {t : Table} {p : Packet} {now : Nat} (hf : fault? p.header = none)
    (hk : t.pending.find? p.header.key = none) :
    Insertion t p now (t.openEntry p now).1 (t.openEntry p now).2 := by
  simp only [openEntry]
  split
  · rename_i hc
    split
    · exact .aloneTooLong hf hk hc ‹_›
    · rename_i hl
      exact .alone hf hk hc (Nat.not_lt.mp hl)
  · rename_i hc
    split
    · exact .full hf hk hc ‹_›
    · rename_i hr
      exact insertion_extend hf (.inr ⟨hk, hc, Nat.not_le.mp hr, rfl⟩) (Slots.get?_empty _ _)

/-- An insertion takes one of the ways out. -/
theorem insertion (t : Table) (p : Packet) (now : Nat) :
    Insertion t p now (t.insert p now).1 (t.insert p now).2 := by
  simp only [insert]
  cases hf : fault? p.header with
  | some cause => exact .refused hf
  | none =>
    cases hk : t.pending.find? p.header.key with
    | none => exact insertion_open hf hk
    | some e =>
      by_cases hc : e.fragmentCount = p.header.fragmentCount
      · simp only [if_pos hc]
        cases hs : e.slots.get? p.header.fragmentIndex.toNat with
        | none => exact insertion_extend hf (.inl ⟨hk, hc⟩) hs
        | some payload =>
          simpa [extend, hs] using Insertion.repeated hf hk hc (by simp [hs])
      · simpa only [if_neg hc] using Insertion.contradicted hf hk hc

section
variable {t t' : Table} {p : Packet} {now : Nat} {answer : Except SessionError (Option Bytes)}

private theorem insert_of_admits {e : Pending} (hf : fault? p.header = none) (he : t.Admits p now e) :
    t.insert p now = t.extend e p := by
  simp only [insert, hf]
  rcases he with ⟨hk, hc⟩ | ⟨hk, hc, hr, rfl⟩
  · simp only [hk, if_pos hc]
  · simp only [hk, openEntry, if_neg hc, if_neg (Nat.not_le.mpr hr)]

/-- The ways out exclude each other: each is what the insertion does under its conditions. -/
theorem Insertion.insert_eq (h : Insertion t p now answer t') : t.insert p now = (answer, t') := by
  cases h with
  | refused hf => simp only [insert, hf]
  | aloneTooLong hf hk hc hl => simp only [insert, hf, hk, openEntry, if_pos hc, if_pos hl]
  | alone hf hk hc hl => simp only [insert, hf, hk, openEntry, if_pos hc, if_neg (Nat.not_lt.mpr hl)]
  | full hf hk hc hr => simp only [insert, hf, hk, openEntry, if_neg hc, if_pos hr]
  | contradicted hf hk hc => simp only [insert, hf, hk, if_neg hc]
  | repeated hf hk hc hs => rw [insert_of_admits hf (.inl ⟨hk, hc⟩), extend, if_pos hs]
  | @outgrown e hf he hs hl =>
    have hl' : t.maxMessageSize < (e.store p.header.fragmentIndex.toNat p.payload).size := hl
    simp only [insert_of_admits hf he, extend, hs, Option.isSome_none, Bool.false_eq_true, if_false, if_pos hl']
    rfl
  | @completed e hf he hs hl hd =>
    have hl' : ¬ t.maxMessageSize < (e.store p.header.fragmentIndex.toNat p.payload).size := Nat.not_lt.mpr hl
    simp only [insert_of_admits hf he, extend, hs, Option.isSome_none, Bool.false_eq_true, if_false, if_neg hl',
      if_pos ((Pending.isComplete_store e _ p.payload).mpr hd)]
  | @stored e hf he hs hl hd =>
    have hl' : ¬ t.maxMessageSize < (e.store p.header.fragmentIndex.toNat p.payload).size := Nat.not_lt.mpr hl
    have hd' : ¬ (e.store p.header.fragmentIndex.toNat p.payload).isComplete = true :=
      fun h => hd ((Pending.isComplete_store e _ _).mp h)
    simp only [insert_of_admits hf he, extend, hs, Option.isSome_none, Bool.false_eq_true, if_false, if_neg hl',
      if_neg hd']
    rfl

/-- A packet is refused for want of room exactly if it would open an entry and there is none. -/
theorem insert_eq_tableFull_iff {limit : Nat} :
    (t.insert p now).1 = .error (.tableFull limit) ↔
      limit = t.maxPending ∧ fault? p.header = none ∧ t.pending.find? p.header.key = none ∧
        p.header.fragmentCount ≠ 1 ∧ t.maxPending ≤ t.size := by
  constructor
  · intro h
    have hi := insertion t p now
    rw [h] at hi
    generalize (t.insert p now).2 = t' at hi
    cases hi with
    | full hf hk hc hr => exact ⟨rfl, hf, hk, hc, hr⟩
  · rintro ⟨rfl, hf, hk, hc, hr⟩
    rw [(Insertion.full hf hk hc hr : Insertion t p now _ _).insert_eq]

theorem Insertion.timeout_eq (h : Insertion t p now answer t') : t'.timeout = t.timeout := by
  cases h <;> rfl

theorem Insertion.maxPending_eq (h : Insertion t p now answer t') : t'.maxPending = t.maxPending := by
  cases h <;> rfl

theorem Insertion.maxMessageSize_eq (h : Insertion t p now answer t') :
    t'.maxMessageSize = t.maxMessageSize := by
  cases h <;> rfl

/-- An insertion leaves the entries of other keys alone. -/
theorem Insertion.find?_of_ne (h : Insertion t p now answer t') {key : MessageKey}
    (hk : key ≠ p.header.key) : t'.pending.find? key = t.pending.find? key := by
  cases h with
  | contradicted | outgrown | completed => exact find?_drop_of_ne t hk
  | stored => exact find?_put_of_ne t _ hk
  | _ => rfl

end
end Table
end LocalPlay.Reassembly
