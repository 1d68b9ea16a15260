import LocalPlay.Fragment.Split
import LocalPlay.Reassembly.Table
import LocalPlay.Sequencer

/-! An endpoint: one node's part in a session. It numbers what it sends and gathers what comes in pieces. -/
namespace LocalPlay

/-- One node's part in a session. -/
structure Endpoint where
  session : UInt32
  node : UInt8
  settings : Settings
  sequencer : Sequencer
  table : Reassembly.Table
  deriving DecidableEq

namespace Endpoint

/-- An endpoint that has sent and received nothing. -/
def new (session : UInt32) (node : UInt8) (settings : Settings) : Endpoint where
  session := session
  node := node
  settings := settings
  sequencer := Sequencer.new
  table := Reassembly.Table.ofSettings settings

/-- How many bytes of a message go into one packet. -/
def chunkSize (e : Endpoint) : ChunkSize := ChunkSize.clamp e.settings.maxPayloadSize

theorem bytes_chunkSize (e : Endpoint) :
    e.chunkSize.bytes = max 1 (min e.settings.maxPayloadSize maxPayloadLength) :=
  ChunkSize.bytes_clamp _

/-- Take a sequence number. -/
def nextSequence (e : Endpoint) : UInt32 × Endpoint :=
  (e.sequencer.next.1, { e with sequencer := e.sequencer.next.2 })

/-- Go on with the sequence numbers behind a given one. -/
def setSequence (e : Endpoint) (value : UInt32) : Endpoint :=
  { e with sequencer := Sequencer.resumeAfter value }

/-- Give up the messages that are too old, and report each. -/
def sweep (e : Endpoint) (now : Nat) : List SessionError × Endpoint :=
  ((e.table.sweep now).1, { e with table := (e.table.sweep now).2 })

end Endpoint
end LocalPlay
