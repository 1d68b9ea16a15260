import LocalPlay.Fragment.Slots
import LocalPlay.KeyedList
import LocalPlay.SessionError
import LocalPlay.Settings.Basic

/-! The table of messages that are being gathered from their fragments. Fragments are grouped by message key.
An entry goes when its last fragment comes, when a fragment contradicts it, when it grows too long, or when
a sweep finds it too old. Times are nanoseconds from a common start and may go back. -/
namespace LocalPlay.Reassembly

/-- The fragments of one message so far. -/
structure Pending where
  fragmentCount : UInt32
  slots : Slots
  /-- How many slots are filled. -/
  received : Nat
  /-- How many bytes they hold. -/
  size : Nat
  /-- When the first fragment came. -/
  firstSeen : Nat
  deriving DecidableEq

namespace Pending

/-- A message of which nothing has come. -/
def new (fragmentCount : UInt32) (now : Nat) : Pending where
  fragmentCount := fragmentCount
  slots := Slots.empty fragmentCount.toNat
  received := 0
  size := 0
  firstSeen := now

/-- Add the payload of a fragment. -/
def store (e : Pending) (index : Nat) (payload : Bytes) : Pending :=
  { e with slots := e.slots.fill index payload, received := e.received + 1, size := e.size + payload.length }

def isComplete (e : Pending) : Bool := e.received == e.slots.size

/-- Whether the message is older than the timeout. Before its first fragment it has no age. -/
def isOlderThan (e : Pending) (timeout now : Nat) : Bool := timeout < now - e.firstSeen

end Pending

/-- Why a packet is not taken, whatever the table holds. -/
def fault? (h : Header) : Option ProtocolError :=
  if !h.isFragment then some .notAFragment
  else if h.fragmentCount ≤ h.fragmentIndex then some (.badFragmentIndex h.fragmentIndex h.fragmentCount)
  else if maxFragments < h.fragmentCount.toNat then some (.tooManyFragments h.fragmentCount.toNat)
  else none

/-- The messages being gathered, and the limits on them. -/
structure Table where
  /-- Nanoseconds after which a message is given up. -/
  timeout : Nat
  /-- How many messages are gathered at once. -/
  maxPending : Nat
  /-- The longest message. -/
  maxMessageSize : Nat
  pending : KeyedList MessageKey Pending
  deriving DecidableEq

namespace Table

/-- The empty table with given limits. -/
def new (timeout maxPending maxMessageSize : Nat) : Table where
  timeout := timeout
  maxPending := maxPending
  maxMessageSize := maxMessageSize
  pending := KeyedList.empty

/-- The empty table with the limits of some settings. -/
def ofSettings (s : Settings) : Table := new s.reassemblyTimeout s.maxPendingReassemblies s.maxMessageSize

def size (t : Table) : Nat := t.pending.size

def isEmpty (t : Table) : Bool := t.size == 0

def contains (t : Table) (key : MessageKey) : Bool := t.pending.contains key

def clear (t : Table) : Table := { t with pending := KeyedList.empty }

/-- Give up a message. -/
def drop (t : Table) (key : MessageKey) : Table := { t with pending := t.pending.erase key }

/-- Add a fragment to the entry of its message. A repeated one changes nothing. The message is given up when
it grows too long, and handed out when it is complete. -/
def extend (t : Table) (e : Pending) (p : Packet) : Except SessionError (Option Bytes) × Table :=
  let key := p.header.key
  let index := p.header.fragmentIndex.toNat
  if (e.slots.get? index).isSome then (.ok none, t)
  else
    let e := e.store index p.payload
    if t.maxMessageSize < e.size then (.error (.messageTooLarge e.size), t.drop key)
    else if e.isComplete then (.ok (some e.slots.contents), t.drop key)
    else (.ok none, { t with pending := t.pending.insert key e })

/-- Take the first fragment of a message. One that is the whole message is handed out at once; any other
needs room in the table. -/
def openEntry (t : Table) (p : Packet) (now : Nat) : Except SessionError (Option Bytes) × Table :=
  let count := p.header.fragmentCount
  if count = 1 then
    if t.maxMessageSize < p.payload.length then (.error (.messageTooLarge p.payload.length), t)
    else (.ok (some p.payload), t)
  else if t.maxPending ≤ t.size then (.error (.tableFull t.maxPending), t)
  else t.extend (Pending.new count now) p

/-- Take a packet: the whole message if this was its last fragment, and nothing while some are missing. A
fragment that contradicts the number of fragments of its message ends the message. -/
def insert (t : Table) (p : Packet) (now : Nat) : Except SessionError (Option Bytes) × Table :=
  match fault? p.header with
  | some e => (.error (.protocol e), t)
  | none =>
    match t.pending.find? p.header.key with
    | none => t.openEntry p now
    | some e =>
      if e.fragmentCount = p.header.fragmentCount then t.extend e p
      else
        (.error (.protocol (.fragmentCountMismatch e.fragmentCount p.header.fragmentCount)),
          t.drop p.header.key)

/-- Give up every message that is too old, and report each. -/
def sweep (t : Table) (now : Nat) : List SessionError × Table :=
  let expired := t.pending.filter (·.2.isOlderThan t.timeout now)
  (expired.entries.map fun (key, e) => .reassemblyTimeout key e.received e.fragmentCount,
    { t with pending := t.pending.filter (!·.2.isOlderThan t.timeout now) })

end Table
end LocalPlay.Reassembly
