import LocalPlay.Settings.Stored

/-! Settings that are stored and read again, whole or in part. Reading is told field by field: a field that is missing
has its default, and one that is there is read as it was written. -/
namespace LocalPlay
variable {bound n : Nat} {j : Json}

theorem Json.natBelow?_eq_some_iff : j.natBelow? bound = some n ↔ j = .int n ∧ n < bound := by
  constructor
  · intro h
    unfold natBelow? at h
    split at h
    · split at h
      · obtain rfl := Option.some_inj.mp h
        exact ⟨rfl, ‹_›⟩
      · contradiction
    · contradiction
  · rintro ⟨rfl, h⟩
    rw [natBelow?_natCast, if_pos h]

namespace Settings
variable {s r : Settings} {fields : List (String × Json)} {total : Nat}

/-- The forms in which JSON gives seconds and nanoseconds. -/
inductive GivesTime (seconds nanoseconds : Nat) : Json → Prop
  | list : GivesTime seconds nanoseconds (.list [.int seconds, .int nanoseconds])
  | object : GivesTime seconds nanoseconds (.object [("secs", .int seconds), ("nanos", .int nanoseconds)])
  | reversed : GivesTime seconds nanoseconds (.object [("nanos", .int nanoseconds), ("secs", .int seconds)])

theorem timeOf?_eq_some_iff {x y : Json} :
    timeOf? x y = some total ↔ ∃ seconds nanoseconds : Nat, x = .int seconds ∧ y = .int nanoseconds ∧
      seconds < UInt64.size ∧ nanoseconds < UInt32.size ∧ total = seconds * secondLength + nanoseconds ∧
      total < UInt64.size * secondLength := by
  simp only [timeOf?, size?, Option.bind_eq_bind, Option.bind_eq_some_iff, Json.natBelow?_eq_some_iff]
  constructor
  · rintro ⟨seconds, ⟨rfl, hs⟩, nanoseconds, ⟨rfl, hn⟩, h⟩
    split at h
    · obtain rfl := Option.some_inj.mp h
      exact ⟨seconds, nanoseconds, rfl, rfl, hs, hn, rfl, ‹_›⟩
    · contradiction
  · rintro ⟨seconds, nanoseconds, rfl, rfl, hs, hn, rfl, ht⟩
    exact ⟨seconds, ⟨rfl, hs⟩, nanoseconds, ⟨rfl, hn⟩, if_pos ht⟩

/-- A time is read from its forms, as long as its seconds and its nanoseconds, and all seconds together, fit. -/
theorem timeOfJson?_eq_some_iff :
    timeOfJson? j = some total ↔ ∃ seconds nanoseconds, GivesTime seconds nanoseconds j ∧
      seconds < UInt64.size ∧ nanoseconds < UInt32.size ∧ total = seconds * secondLength + nanoseconds ∧
      total < UInt64.size * secondLength := by
  constructor
  · intro h
    unfold timeOfJson? at h
    split at h
    · obtain ⟨seconds, nanoseconds, rfl, rfl, ht⟩ := timeOf?_eq_some_iff.mp h
      exact ⟨seconds, nanoseconds, .list, ht⟩
    · split at h
      · rename_i hnames
        obtain ⟨rfl, rfl⟩ := hnames
        obtain ⟨seconds, nanoseconds, rfl, rfl, ht⟩ := timeOf?_eq_some_iff.mp h
        exact ⟨seconds, nanoseconds, .object, ht⟩
      split at h
      · rename_i hnames
        obtain ⟨rfl, rfl⟩ := hnames
        obtain ⟨seconds, nanoseconds, rfl, rfl, ht⟩ := timeOf?_eq_some_iff.mp h
        exact ⟨seconds, nanoseconds, .reversed, ht⟩
      · contradiction
    · contradiction
  · rintro ⟨seconds, nanoseconds, hg, h⟩
    cases hg with
    | list => exact timeOf?_eq_some_iff.mpr ⟨_, _, rfl, rfl, h⟩
    | object => exact timeOf?_eq_some_iff.mpr ⟨_, _, rfl, rfl, h⟩
    | reversed => exact timeOf?_eq_some_iff.mpr ⟨_, _, rfl, rfl, h⟩

/-- A time whose seconds fit is read as it was written. -/
theorem timeOfJson?_timeToJson (h : total < UInt64.size * secondLength) :
    timeOfJson? (timeToJson total) = some total := by
  have hpos : 0 < secondLength := by decide
  have hn : total % secondLength < UInt32.size := Nat.lt_trans (Nat.mod_lt total hpos) (by decide)
  exact timeOfJson?_eq_some_iff.mpr
    ⟨_, _, .object, (Nat.div_lt_iff_lt_mul hpos).mpr h, hn, (Nat.div_add_mod' total secondLength).symm, h⟩

/-- The kinds of values that a field can have. -/
inductive Kind where
  | size
  | time
  | switch

namespace Kind

abbrev Value : Kind → Type
  | size => Nat
  | time => Nat
  | switch => Bool

def write : (k : Kind) → k.Value → Json
  | size, n => .int (n : Nat)
  | time, t => timeToJson t
  | switch, b => .bool b

def read? : (k : Kind) → Json → Option k.Value
  | size => size?
  | time => timeOfJson?
  | switch => Json.bool?

/-- The values that can be stored: sizes and seconds have 64 bits. -/
def Fits : (k : Kind) → k.Value → Prop
  | size, n => n < UInt64.size
  | time, t => t < UInt64.size * secondLength
  | switch, _ => True

/-- A value that can be stored is read as it was written. -/
theorem read?_write {k : Kind} {value : k.Value} (h : k.Fits value) : k.read? (k.write value) = some value := by
  cases k with
  | size => exact Json.natBelow?_eq_some_iff.mpr ⟨rfl, h⟩
  | time => exact timeOfJson?_timeToJson h
  | switch => rfl

/-- What is read can be stored. -/
theorem fits_of_read? {k : Kind} {value : k.Value} (h : k.read? j = some value) : k.Fits value := by
  cases k with
  | size => exact (Json.natBelow?_eq_some_iff.mp h).2
  | time =>
    obtain ⟨_, _, -, -, -, -, ht⟩ := timeOfJson?_eq_some_iff.mp h
    exact ht
  | switch => trivial

end Kind

/-- The settings, one by one. -/
inductive Field where
  | maxPayloadSize
  | maxMessageSize
  | reassemblyTimeout
  | maxPendingReassemblies
  | replyWithErrors
  deriving DecidableEq

namespace Field

/-- The fields in the order in which they are written. -/
def all : List Field := [maxPayloadSize, maxMessageSize, reassemblyTimeout, maxPendingReassemblies, replyWithErrors]

def name : Field → String
  | maxPayloadSize => "max_payload_size"
  | maxMessageSize => "max_message_size"
  | reassemblyTimeout => "reassembly_timeout"
  | maxPendingReassemblies => "max_pending_reassemblies"
  | replyWithErrors => "reply_with_errors"

def kind : Field → Kind
  | maxPayloadSize => .size
  | maxMessageSize => .size
  | reassemblyTimeout => .time
  | maxPendingReassemblies => .size
  | replyWithErrors => .switch

/-- The value of a field. -/
def get (s : Settings) : (f : Field) → f.kind.Value
  | maxPayloadSize => s.maxPayloadSize
  | maxMessageSize => s.maxMessageSize
  | reassemblyTimeout => s.reassemblyTimeout
  | maxPendingReassemblies => s.maxPendingReassemblies
  | replyWithErrors => s.replyWithErrors

/-- The written value of a field. -/
def written (s : Settings) (f : Field) : Json := f.kind.write (f.get s)

/-- A field as it is written in an object. -/
def entry (s : Settings) (f : Field) : String × Json := (f.name, f.written s)

/-- A JSON value holds a value for a field, under its name or at its place. -/
def HeldBy (f : Field) (value : Json) : Json → Prop
  | .object fields => (f.name, value) ∈ fields
  | .list items => items[all.idxOf f]? = some value
  | _ => False

theorem map_name_all : all.map name = fieldNames := rfl

theorem toJson_eq (s : Settings) : s.toJson = .object (all.map (entry s)) := rfl

theorem mem_all (f : Field) : f ∈ all := by
  cases f <;> decide

end Field

/-- Settings that can be stored. -/
def Storable (s : Settings) : Prop := ∀ f : Field, f.kind.Fits (f.get s)

theorem storable_iff :
    s.Storable ↔ s.maxPayloadSize < UInt64.size ∧ s.maxMessageSize < UInt64.size ∧
      s.reassemblyTimeout < UInt64.size * secondLength ∧ s.maxPendingReassemblies < UInt64.size := by
  constructor
  · intro h
    exact ⟨h .maxPayloadSize, h .maxMessageSize, h .reassemblyTimeout, h .maxPendingReassemblies⟩
  · rintro ⟨hpayload, hmessage, htimeout, hpending⟩ f
    cases f with
    | maxPayloadSize => exact hpayload
    | maxMessageSize => exact hmessage
    | reassemblyTimeout => exact htimeout
    | maxPendingReassemblies => exact hpending
    | replyWithErrors => trivial

/-- The settings with given values. -/
def ofValues (value : (f : Field) → f.kind.Value) : Settings where
  maxPayloadSize := value .maxPayloadSize
  maxMessageSize := value .maxMessageSize
  reassemblyTimeout := value .reassemblyTimeout
  maxPendingReassemblies := value .maxPendingReassemblies
  replyWithErrors := value .replyWithErrors

@[simp] theorem get_ofValues (value : (f : Field) → f.kind.Value) (f : Field) : f.get (ofValues value) = value f := by
  cases f <;> rfl

/-- Settings are told by their values. -/
theorem ofValues_get (s : Settings) : ofValues (Field.get s) = s := rfl

theorem fieldOr?_eq_some_iff {α : Type} {name : String} {reader : Json → Option α} {default value : α} :
    fieldOr? fields name reader default = some value ↔
      (fields.filter (·.1 == name) = [] ∧ value = default) ∨
        ∃ j, fields.filter (·.1 == name) = [(name, j)] ∧ reader j = some value := by
  have hname : ∀ x ∈ fields.filter (·.1 == name), x.1 = name := by
    intro x hx
    exact beq_iff_eq.mp (List.mem_filter.mp hx).2
  unfold fieldOr?
  split
  · simp [*, eq_comm]
  · rename_i given j hone
    obtain rfl : given = name := hname (given, j) (hone ▸ List.mem_singleton_self _)
    simp [hone]
  · rename_i hnil hone
    constructor
    · intro h
      contradiction
    · rintro (⟨h, -⟩ | ⟨j, h, -⟩)
      · exact absurd h hnil
      · exact absurd h (hone name j)

/-- Settings are read field by field. -/
theorem ofFields?_eq_some_iff :
    ofFields? fields = some r ↔ ∀ f : Field, fieldOr? fields f.name f.kind.read? (f.get {}) = some (f.get r) := by
  simp only [ofFields?, Option.bind_eq_bind, Option.bind_eq_some_iff, Option.pure_def, Option.some_inj]
  constructor
  · rintro ⟨_, hpayload, _, hmessage, _, htimeout, _, hpending, _, hreply, rfl⟩ f
    cases f with
    | maxPayloadSize => exact hpayload
    | maxMessageSize => exact hmessage
    | reassemblyTimeout => exact htimeout
    | maxPendingReassemblies => exact hpending
    | replyWithErrors => exact hreply
  · intro h
    exact ⟨_, h .maxPayloadSize, _, h .maxMessageSize, _, h .reassemblyTimeout, _, h .maxPendingReassemblies,
      _, h .replyWithErrors, rfl⟩

theorem filter_entries (chosen : List Field) (s : Settings) (f : Field) :
    ((Field.all.filter (· ∈ chosen)).map (Field.entry s)).filter (·.1 == f.name) =
      if f ∈ chosen then [f.entry s] else [] := by
  have hone : Field.all.filter (fun g => g.name == f.name) = [f] := by
    cases f <;> decide
  have hname : (fun x : String × Json => x.1 == f.name) ∘ Field.entry s = fun g => g.name == f.name := rfl
  rw [List.filter_map, hname, List.filter_filter]
  simp only [Bool.and_comm]
  rw [← List.filter_filter, hone]
  by_cases hf : f ∈ chosen <;> simp [hf]

/-- The chosen fields are read as they were written, whatever their order and whatever unknown ones are between them. -/
theorem ofFields?_of_perm (hs : s.Storable) (chosen : List Field) (extra : List (String × Json))
    (hextra : ∀ x ∈ extra, x.1 ∉ fieldNames)
    (hp : fields.Perm ((Field.all.filter (· ∈ chosen)).map (Field.entry s) ++ extra)) :
    ofFields? fields = some (ofValues fun f => f.get (if f ∈ chosen then s else {})) := by
  refine ofFields?_eq_some_iff.mpr ?_
  intro f
  -- Of the fields with one name at most one is left, so that their order does not matter.
  have hunknown : extra.filter (·.1 == f.name) = [] := by
    refine List.filter_eq_nil_iff.mpr ?_
    intro x hx hf
    exact hextra x hx (beq_iff_eq.mp hf ▸ Field.map_name_all ▸ List.mem_map_of_mem f.mem_all)
  have he := hp.filter (·.1 == f.name)
  rw [List.filter_append, filter_entries, hunknown, List.append_nil] at he
  rw [get_ofValues]
  split at he
  · rename_i hf
    rw [if_pos hf]
    exact fieldOr?_eq_some_iff.mpr (.inr ⟨_, List.perm_singleton.mp he, Kind.read?_write (hs f)⟩)
  · rename_i hf
    rw [if_neg hf]
    exact fieldOr?_eq_some_iff.mpr (.inl ⟨List.perm_nil.mp he, rfl⟩)

/-- Settings that can be stored are read as they were written. -/
theorem ofJson?_toJson (hs : s.Storable) : ofJson? s.toJson = some s := by
  have hp : (Field.all.map (Field.entry s)).Perm
      ((Field.all.filter (· ∈ Field.all)).map (Field.entry s) ++ []) := .of_eq (List.append_nil _).symm
  have h := ofFields?_of_perm hs Field.all [] (by simp) hp
  simp only [Field.mem_all, if_true, ofValues_get] at h
  rw [Field.toJson_eq]
  exact h

private theorem zip_take {α β : Type} (as : List α) (bs : List β) (k : Nat) :
    as.zip (bs.take k) = (as.zip bs).take k := by
  induction k generalizing as bs with
  | zero => simp
  | succ k ih => cases as <;> cases bs <;> simp [ih]

/-- A list is read as an object of the first so many fields. -/
theorem ofJson?_list_take (values : List Json) (hl : values.length = fieldNames.length) (k : Nat) :
    ofJson? (.list (values.take k)) = ofJson? (.object ((fieldNames.zip values).take k)) := by
  have hk : (values.take k).length ≤ fieldNames.length := by
    rw [← hl]
    exact List.length_take_le' k values
  simp only [ofJson?, if_pos hk, zip_take]

/-- What is read can be stored. -/
theorem storable_of_ofFields? (h : ofFields? fields = some r) : r.Storable := by
  intro f
  rcases fieldOr?_eq_some_iff.mp (ofFields?_eq_some_iff.mp h f) with ⟨-, hdefault⟩ | ⟨_, -, hread⟩
  · rw [hdefault]
    exact storable_iff.mpr (by decide) f
  · exact Kind.fits_of_read? hread

theorem exists_fields (h : ofJson? j = some r) : ∃ fields, ofFields? fields = some r := by
  unfold ofJson? at h
  split at h
  · exact ⟨_, h⟩
  · split at h
    · exact ⟨_, h⟩
    · contradiction
  · contradiction

/-- What is held for a field is what is read for it. -/
theorem read?_of_heldBy {f : Field} {value : Json} (h : ofJson? j = some r) (hv : f.HeldBy value j) :
    f.kind.read? value = some (f.get r) := by
  have of_mem {fields : List (String × Json)} (h : ofFields? fields = some r) (hm : (f.name, value) ∈ fields) :
      f.kind.read? value = some (f.get r) := by
    have he : (f.name, value) ∈ fields.filter (·.1 == f.name) := List.mem_filter.mpr ⟨hm, beq_self_eq_true _⟩
    rcases fieldOr?_eq_some_iff.mp (ofFields?_eq_some_iff.mp h f) with ⟨hnil, -⟩ | ⟨_, hone, hread⟩
    · rw [hnil] at he
      contradiction
    · rw [hone, List.mem_singleton] at he
      cases he
      exact hread
  cases j with
  | object fields => exact of_mem h hv
  | list items =>
    simp only [ofJson?] at h
    split at h
    · have hname : fieldNames[Field.all.idxOf f]? = some f.name := by
        cases f <;> rfl
      exact of_mem h (List.mem_of_getElem? (List.getElem?_zip_eq_some.mpr ⟨hname, hv⟩))
    · contradiction
  | _ => contradiction

/-- Settings that can be stored are read as they were written. Of any choice of their written fields, in any order and
among unknown ones, the chosen fields are read as they were and the others get their defaults; and a list of the first
so many values is read as the object of these fields. Whatever is read can be stored and read again, and a time in it is
that of the seconds and nanoseconds that were given. -/
theorem storage_exact :
    (∀ s : Settings, s.Storable →
      ofJson? s.toJson = some s ∧
      (∀ (chosen : List Field) (extra fields : List (String × Json)), (∀ x ∈ extra, x.1 ∉ fieldNames) →
        fields.Perm ((Field.all.filter (· ∈ chosen)).map (Field.entry s) ++ extra) →
        ∃ r, ofJson? (.object fields) = some r ∧ ∀ f : Field, f.get r = f.get (if f ∈ chosen then s else {})) ∧
      ∀ k, ofJson? (.list ((Field.all.map (Field.written s)).take k)) =
        ofJson? (.object ((Field.all.map (Field.entry s)).take k))) ∧
    ∀ (j : Json) (r : Settings), ofJson? j = some r →
      ofJson? r.toJson = some r ∧
      ∀ value, Field.reassemblyTimeout.HeldBy value j → ∃ seconds nanoseconds,
        GivesTime seconds nanoseconds value ∧ r.reassemblyTimeout = seconds * secondLength + nanoseconds := by
  constructor
  · intro s hs
    refine ⟨ofJson?_toJson hs, ?_, fun k => ofJson?_list_take (Field.all.map (Field.written s)) rfl k⟩
    intro chosen extra fields hextra hp
    exact ⟨_, ofFields?_of_perm hs chosen extra hextra hp, get_ofValues _⟩
  · intro j r h
    obtain ⟨fields, hfields⟩ := exists_fields h
    refine ⟨ofJson?_toJson (storable_of_ofFields? hfields), ?_⟩
    intro value hv
    obtain ⟨seconds, nanoseconds, hg, -, -, ht, -⟩ := timeOfJson?_eq_some_iff.mp (read?_of_heldBy h hv)
    exact ⟨seconds, nanoseconds, hg, ht⟩

/-- A short list and an object with an unknown field: nanoseconds make up a second, and what is missing is the
default. -/
theorem storage_exact_partial :
    let s : Settings := { maxPayloadSize := 512, reassemblyTimeout := 2500000000, replyWithErrors := false }
    let fields := [("comment", Json.null), Field.reassemblyTimeout.entry s, Field.maxPayloadSize.entry s]
    let given := Json.object [("nanos", .int 1500000000), ("secs", .int 1)]
    (∃ r, ofJson? (.object fields) = some r ∧ r.maxPayloadSize = 512 ∧ r.reassemblyTimeout = 2500000000 ∧
      r.replyWithErrors = true) ∧
    ∃ r, ofJson? (.list [.int 512, .int 65536, given]) = some r ∧ r.reassemblyTimeout = 2500000000 ∧
      ofJson? r.toJson = some r := by
  intro s fields given
  have hs : s.Storable := storable_iff.mpr (by decide)
  obtain ⟨-, hpart, -⟩ := storage_exact.1 s hs
  obtain ⟨r, hr, hget⟩ := hpart [.reassemblyTimeout, .maxPayloadSize] [("comment", .null)] fields (by decide)
    (List.reverse_perm [Field.maxPayloadSize.entry s, Field.reassemblyTimeout.entry s, ("comment", .null)])
  have hlist : ofJson? (.list [.int 512, .int 65536, given]) =
      some { maxPayloadSize := 512, reassemblyTimeout := 2500000000 } := rfl
  obtain ⟨hback, -⟩ := storage_exact.2 _ _ hlist
  exact ⟨⟨r, hr, hget .maxPayloadSize, hget .reassemblyTimeout, hget .replyWithErrors⟩, _, hlist, rfl, hback⟩

end Settings
end LocalPlay
