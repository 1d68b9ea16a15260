/-! The codes that error reports carry and their numbers on the wire. A number names at most one code. -/
namespace LocalPlay

/-- What went wrong, as told to a peer. -/
inductive ErrorCode where
  | success
  /-- The packet could not be read or is not valid. -/
  | invalidPacket
  | checksumMismatch
  /-- The peer speaks another version of the protocol. -/
  | unsupportedVersion
  | sessionNotFound
  /-- The session has no room for another node. -/
  | sessionFull
  /-- A peer, or the rest of a message, did not come in time. -/
  | timeout
  /-- The fragments of a message do not fit together, or cannot all be kept. -/
  | fragmentationError
  | nodeNotFound
  | notImplemented
  | internalError
  deriving DecidableEq

namespace ErrorCode

/-- The number of a code on the wire. -/
def number : ErrorCode → UInt32
  | success => 0
  | invalidPacket => 1
  | checksumMismatch => 2
  | unsupportedVersion => 3
  | sessionNotFound => 4
  | sessionFull => 5
  | timeout => 6
  | fragmentationError => 7
  | nodeNotFound => 8
  | notImplemented => 9
  | internalError => 10

/-- The code with a given number, if there is one. -/
def ofNumber? (n : UInt32) : Option ErrorCode :=
  [success, invalidPacket, checksumMismatch, unsupportedVersion, sessionNotFound, sessionFull, timeout,
    fragmentationError, nodeNotFound, notImplemented, internalError].find? (·.number = n)

@[simp] theorem ofNumber?_number (code : ErrorCode) : ofNumber? code.number = some code := by
  cases code <;> rfl

/-- Reading a number gives exactly the code that has it. -/
theorem ofNumber?_eq_some_iff {n : UInt32} {code : ErrorCode} :
    ofNumber? n = some code ↔ n = code.number := by
  constructor
  · intro h
    have hk := List.find?_some h
    simpa using (of_decide_eq_true hk).symm
  · rintro rfl
    exact ofNumber?_number code

end ErrorCode
end LocalPlay
