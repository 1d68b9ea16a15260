import LocalPlay.Json
import LocalPlay.Settings.Basic

/-! Settings as JSON. They are written as an object of all fields. They are read from such an object, from
which fields may be missing and in which unknown ones are ignored, or from a list of the first so many fields
in order; what is missing has its default. Sizes and seconds have 64 bits, and nanoseconds have 32. -/
namespace LocalPlay.Settings

/-- Nanoseconds of one second. -/
def secondLength : Nat := 1000000000

/-- The names of the fields, in order. -/
def fieldNames : List String :=
  ["max_payload_size", "max_message_size", "reassembly_timeout", "max_pending_reassemblies",
    "reply_with_errors"]

/-- Read a size. -/
def size? : Json → Option Nat := Json.natBelow? UInt64.size

/-- The time of so many seconds and nanoseconds. Nanoseconds may make up whole seconds, as long as all the
seconds still fit. -/
def timeOf? (seconds nanoseconds : Json) : Option Nat := do
  let s ← size? seconds
  let n ← nanoseconds.natBelow? UInt32.size
  let total := s * secondLength + n
  if total < UInt64.size * secondLength then some total else none

/-- Read a time: an object or a list of exactly seconds and nanoseconds. -/
def timeOfJson? : Json → Option Nat
  | .list [seconds, nanoseconds] => timeOf? seconds nanoseconds
  | .object [(a, x), (b, y)] =>
    if a = "secs" ∧ b = "nanos" then timeOf? x y
    else if a = "nanos" ∧ b = "secs" then timeOf? y x
    else none
  | _ => none

/-- Write a time as seconds and nanoseconds. -/
def timeToJson (time : Nat) : Json :=
  .object [("secs", .int (time / secondLength : Nat)), ("nanos", .int (time % secondLength : Nat))]

/-- Read one field among others: the default if it is missing, and nothing if it comes twice. -/
def fieldOr? {α : Type} (fields : List (String × Json)) (name : String) (reader : Json → Option α)
    (default : α) : Option α :=
  match fields.filter (·.1 == name) with
  | [] => some default
  | [(_, value)] => reader value
  | _ => none

/-- Read settings from named fields. -/
def ofFields? (fields : List (String × Json)) : Option Settings := do
  let defaults : Settings := {}
  let maxPayloadSize ← fieldOr? fields "max_payload_size" size? defaults.maxPayloadSize
  let maxMessageSize ← fieldOr? fields "max_message_size" size? defaults.maxMessageSize
  let reassemblyTimeout ← fieldOr? fields "reassembly_timeout" timeOfJson? defaults.reassemblyTimeout
  let maxPendingReassemblies ←
    fieldOr? fields "max_pending_reassemblies" size? defaults.maxPendingReassemblies
  let replyWithErrors ← fieldOr? fields "reply_with_errors" Json.bool? defaults.replyWithErrors
  return { maxPayloadSize, maxMessageSize, reassemblyTimeout, maxPendingReassemblies, replyWithErrors }

/-- Read settings. -/
def ofJson? : Json → Option Settings
  | .object fields => ofFields? fields
  | .list items => if items.length ≤ fieldNames.length then ofFields? (fieldNames.zip items) else none
  | _ => none

/-- Write settings. -/
def toJson (s : Settings) : Json :=
  .object (fieldNames.zip [.int s.maxPayloadSize, .int s.maxMessageSize, timeToJson s.reassemblyTimeout,
    .int s.maxPendingReassemblies, .bool s.replyWithErrors])

end LocalPlay.Settings
