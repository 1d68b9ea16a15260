import LocalPlay.Endpoint.Receive

/-! Runs of an endpoint: what is done to it, and what each step answers. -/
namespace LocalPlay.Endpoint

/-- A step that may change an endpoint. -/
inductive Op where
  | send (kind : PacketKind) (dest : UInt8) (payload : Bytes) (timestamp : UInt64)
  | sendError (dest : UInt8) (code : ErrorCode) (message : String) (timestamp : UInt64)
  | receive (datagram : Bytes) (now : Nat) (timestamp : UInt64)
  | sweep (now : Nat)
  | setSequence (value : UInt32)
  | nextSequence

/-- The answer to a step. -/
inductive Outcome where
  | sent (result : Except SessionError (List Bytes))
  | errorSent (result : Except SessionError Bytes)
  | received (reception : Reception)
  | swept (expired : List SessionError)
  | sequenceSet
  | sequenceTaken (number : UInt32)

/-- Do one step. -/
def step (e : Endpoint) : Op → Outcome × Endpoint
  | .send kind dest payload timestamp =>
    let (result, e) := e.send kind dest payload timestamp
    (.sent result, e)
  | .sendError dest code message timestamp =>
    let (result, e) := e.sendError dest code message timestamp
    (.errorSent result, e)
  | .receive datagram now timestamp =>
    let (reception, e) := e.receive datagram now timestamp
    (.received reception, e)
  | .sweep now =>
    let (expired, e) := e.sweep now
    (.swept expired, e)
  | .setSequence value => (.sequenceSet, e.setSequence value)
  | .nextSequence =>
    let (number, e) := e.nextSequence
    (.sequenceTaken number, e)

/-- Do one step after the other. -/
def run (e : Endpoint) : List Op → List Outcome × Endpoint
  | [] => ([], e)
  | op :: rest =>
    let (outcome, e) := e.step op
    let (outcomes, e) := e.run rest
    (outcome :: outcomes, e)

/-- The datagrams that a step puts on the network. -/
def Outcome.emitted : Outcome → List Bytes
  | sent (.ok datagrams) => datagrams
  | errorSent (.ok datagram) => [datagram]
  | received (.rejected _ (some answer)) => [answer]
  | _ => []

end LocalPlay.Endpoint
