import LocalPlay.Proofs.Reassembly.Isolation

/-! No message is given up in silence. Under a key, each step of a run opens an entry, ends the one that is open, or
leaves it as it is, and its answer tells which. So a run ends as many entries as it opens, each in one way, but for the
one that is open after it. -/
namespace LocalPlay.Reassembly

/-- The answer to an insertion, as far as the entry is concerned. -/
inductive Verdict where
  /-- The packet is taken, and others are missing. -/
  | taken
  | completed
  /-- The packet gives another number of fragments than the entry. -/
  | contradicted
  | tooLarge
  | refused
  deriving DecidableEq

def Verdict.of : Except SessionError (Option Bytes) → Verdict
  | .ok none => taken
  | .ok (some _) => completed
  | .error (.protocol (.fragmentCountMismatch _ _)) => contradicted
  | .error (.messageTooLarge _) => tooLarge
  | .error _ => refused

/-- A step of a run, with the table before it. -/
structure Event where
  before : Table
  op : Op
  answer : Outcome

namespace Event
variable (key : MessageKey) (event : Event)

/-- The verdict on a packet with the key. -/
def verdict? : Option Verdict :=
  match event.op, event.answer with
  | .insert p _, .inserted answer => if p.header.key = key then some (.of answer) else none
  | _, _ => none

def opens : Bool := event.verdict? key = some .taken && !event.before.contains key

def completes : Bool := event.verdict? key = some .completed && event.before.contains key

def contradicts : Bool := event.verdict? key = some .contradicted

def outgrows : Bool := event.verdict? key = some .tooLarge && event.before.contains key

/-- How many messages with the key are reported as too old. -/
def expiries : Nat :=
  match event.answer with
  | .swept expired => expired.countP (·.isTimeoutOf key)
  | _ => 0

def clears : Bool := event.op matches .clear && event.before.contains key

/-- How often an end of an entry of the key is reported. -/
def endings : Nat :=
  (event.completes key).toNat + (event.contradicts key).toNat + (event.outgrows key).toNat + event.expiries key +
    (event.clears key).toNat

/-- The step opens an entry only if none is open, and ends at most one, which was open. -/
structure Accounted (after : Table) : Prop where
  balance : (event.before.contains key).toNat + (event.opens key).toNat =
    event.endings key + (after.contains key).toNat
  endings_le : event.endings key ≤ (event.before.contains key).toNat

variable {key event}

/-- Steps that insert no packet with the key only end entries. -/
theorem Accounted.of_no_verdict {after : Table} (hverdict : event.verdict? key = none)
    (hends : (event.before.contains key).toNat = event.expiries key + (event.clears key).toNat +
      (after.contains key).toNat) : event.Accounted key after := by
  constructor
  all_goals
    simp only [opens, endings, completes, contradicts, outgrows, hverdict, reduceCtorEq, decide_false, Bool.false_and,
      Bool.toNat_false]
    omega

end Event

namespace Table

/-- The steps of a run, one after the other. -/
def events (t : Table) : List Op → List Event
  | [] => []
  | op :: rest => ⟨t, op, (t.step op).1⟩ :: (t.step op).2.events rest

theorem map_answer_events (t : Table) (ops : List Op) : (t.events ops).map Event.answer = (t.run ops).1 := by
  induction ops generalizing t with
  | nil => rfl
  | cons op rest ih => simp only [events, List.map_cons, run, ih]

section
variable {t t' : Table} {key : MessageKey} {p : Packet} {now : Nat} {answer : Except SessionError (Option Bytes)}

/-- What a verdict tells of the entry of the packet's key, before and after. -/
def Tells (key : MessageKey) (t t' : Table) : Verdict → Prop
  | .taken => t'.contains key = true
  | .completed | .tooLarge => t'.contains key = false
  | .contradicted => t.contains key = true ∧ t'.contains key = false
  | .refused => t'.contains key = t.contains key

/-- A packet that is refused whatever the table holds contradicts no entry. -/
private theorem of_fault {cause : ProtocolError} (hf : fault? p.header = some cause) :
    Verdict.of (.error (.protocol cause)) = .refused := by
  rcases fault?_cases hf with rfl | ⟨_, _, rfl⟩ | ⟨_, rfl⟩ <;> rfl

theorem Insertion.tells (hi : Insertion t p now answer t') : Tells p.header.key t t' (.of answer) := by
  cases hi with
  | refused hf =>
    rw [of_fault hf]
    rfl
  | full => rfl
  | aloneTooLong _ hk | alone _ hk | contradicted _ hk | repeated _ hk => simp [Tells, Verdict.of, contains_eq, hk]
  | outgrown | completed | stored => simp [Tells, Verdict.of, contains_eq]

/-- The flags of an insertion are read off its verdict, and so is what becomes of the entry. -/
theorem Insertion.accounted (hi : Insertion t p now answer t') :
    (Event.mk t (.insert p now) (.inserted answer)).Accounted p.header.key t' := by
  have hverdict : (Event.mk t (.insert p now) (.inserted answer)).verdict? p.header.key = some (.of answer) :=
    if_pos rfl
  have ht := hi.tells
  generalize Verdict.of answer = verdict at ht hverdict
  -- each verdict, with the entry open or not
  cases verdict <;> cases hc : t.contains p.header.key <;> simp only [Tells] at ht <;> constructor <;>
    simp_all [Event.opens, Event.endings, Event.completes, Event.contradicts, Event.outgrows, Event.expiries,
      Event.clears]

/-- A packet with another key. -/
theorem Insertion.accounted_of_ne (hi : Insertion t p now answer t') (hk : key ≠ p.header.key) :
    (Event.mk t (.insert p now) (.inserted answer)).Accounted key t' := by
  apply Event.Accounted.of_no_verdict
  · exact if_neg hk.symm
  · simp [Event.expiries, Event.clears, contains_eq, hi.find?_of_ne hk]

theorem accounted_sweep (t : Table) (now : Nat) (key : MessageKey) :
    (Event.mk t (.sweep now) (.swept (t.sweep now).1)).Accounted key (t.sweep now).2 := by
  apply Event.Accounted.of_no_verdict
  · rfl
  · simp only [Event.expiries, Event.clears, List.countP_eq_length_filter, filter_sweep, contains_eq, find?_sweep]
    cases t.pending.find? key with
    | none => rfl
    | some e => cases he : e.isOlderThan t.timeout now <;> simp [Option.filter, he]

theorem accounted_clear (t : Table) (key : MessageKey) : (Event.mk t .clear .cleared).Accounted key t.clear := by
  apply Event.Accounted.of_no_verdict
  · rfl
  · simp [Event.expiries, Event.clears, contains_eq, clear]

theorem accounted_step (t : Table) (op : Op) (key : MessageKey) :
    (Event.mk t op (t.step op).1).Accounted key (t.step op).2 := by
  cases op with
  | insert p now =>
    by_cases hk : key = p.header.key
    · subst hk
      exact (insertion t p now).accounted
    · exact (insertion t p now).accounted_of_ne hk
  | sweep now => exact accounted_sweep t now key
  | clear => exact accounted_clear t key

theorem accounted_events (t : Table) (ops : List Op) (key : MessageKey) :
    ∀ event ∈ t.events ops, event.Accounted key (event.before.step event.op).2 := by
  induction ops generalizing t with
  | nil => simp [events]
  | cons op rest ih => exact List.forall_mem_cons.mpr ⟨accounted_step t op key, ih (t.step op).2⟩

/-- What was open and what a run opens is what it ends and what is open after it. -/
theorem openings_events (t : Table) (ops : List Op) (key : MessageKey) :
    (t.contains key).toNat + (t.events ops).countP (·.opens key) =
      ((t.events ops).map (·.endings key)).sum + ((t.run ops).2.contains key).toNat := by
  induction ops generalizing t with
  | nil => simp [events, run]
  | cons op rest ih =>
    have hstep : (t.contains key).toNat + _ = _ + _ := (accounted_step t op key).balance
    have hrest := ih (t.step op).2
    simp only [events, run, Machine.countP_cons_eq, List.map_cons, List.sum_cons]
    omega

/-- The ends, counted by the ways in which they are reported. -/
theorem sum_endings (steps : List Event) (key : MessageKey) :
    (steps.map (·.endings key)).sum =
      steps.countP (·.completes key) + steps.countP (·.contradicts key) + steps.countP (·.outgrows key) +
        (steps.map (·.expiries key)).sum + steps.countP (·.clears key) := by
  induction steps with
  | nil => rfl
  | cons event rest ih =>
    rw [List.map_cons, List.sum_cons, ih, Event.endings]
    simp only [List.map_cons, List.sum_cons, Machine.countP_cons_eq]
    omega

end

/-- Take any run from an empty table, and any key. As many packets open an entry as entries are completed, contradicted,
outgrown, reported as too old by a sweep, or cleared, and one more if an entry is left. No step ends more than one
entry, or ends one that is not open: each is ended once, in one way. -/
theorem openings_eq_endings (timeout maxPending maxMessageSize : Nat) (ops : List Op) (key : MessageKey) :
    let start := new timeout maxPending maxMessageSize
    let steps := start.events ops
    steps.map Event.answer = (start.run ops).1 ∧
      steps.countP (·.opens key) =
        steps.countP (·.completes key) + steps.countP (·.contradicts key) + steps.countP (·.outgrows key) +
          (steps.map (·.expiries key)).sum + steps.countP (·.clears key) +
          ((start.run ops).2.contains key).toNat ∧
      ∀ event ∈ steps, event.endings key ≤ (event.before.contains key).toNat := by
  intro start steps
  have hempty : (start.contains key).toNat = 0 := rfl
  have hopen := openings_events start ops key
  rw [hempty, Nat.zero_add, sum_endings] at hopen
  exact ⟨map_answer_events start ops, hopen, fun event he => (accounted_events start ops key event he).endings_le⟩

/-- A message is opened five times: it is completed, contradicted, outgrown, given up, and left open. Its last fragment
comes twice, and then opens it. -/
example :
    let run := (new 10 2 5).events
      [.insert (piece 0 2 0) 0, .insert (piece 0 2 1) 1, .insert (piece 0 2 1) 2, .insert (piece 0 3 0) 3,
        .insert (piece 0 3 0) 4, .insert (piece 1 3 0) 5, .insert (piece 0 3 1) 6, .insert (piece 0 3 2) 7,
        .insert (piece 0 2 0) 8, .sweep 19, .insert (piece 0 2 1) 20]
    let key : MessageKey := ⟨⟨7, 1, 2⟩, 0⟩
    run.map (·.opens key) =
        [true, false, true, false, true, false, false, false, true, false, true] ∧
      run.map (·.endings key) = [0, 1, 0, 1, 0, 0, 0, 1, 0, 1, 0] := by
  decide +kernel

end Table
end LocalPlay.Reassembly
