import LocalPlay.Endpoint.Basic
import LocalPlay.ErrorReport
import LocalPlay.Packet.Wire

/-! What an endpoint sends: the datagrams of a payload, all with one sequence number, and error reports. The
time that packets are stamped with is an argument. -/
namespace LocalPlay.Endpoint

/-- The datagrams of a payload: one packet if it fits, and fragments otherwise. -/
def datagrams (e : Endpoint) (kind : PacketKind) (key : MessageKey) (payload : Bytes)
    (timestamp : UInt64) : Except ProtocolError (List Bytes) :=
  if e.chunkSize.exceededBy payload.length then do
    let fragments ← Fragment.split e.chunkSize key timestamp payload
    fragments.mapM Packet.serialize
  else do
    let header := { Header.blank kind key.toRoute with sequence := key.sequence, timestamp := timestamp }
    return [← (Packet.sealed ⟨header, payload⟩).serialize]

/-- Send a payload. Data that is too long for one packet goes in fragments, and all else must fit into one.
What is refused for its kind or its length takes no sequence number. A message that makes 2^32 fragments or
more is found to be too long only after it took one. -/
def send (e : Endpoint) (kind : PacketKind) (dest : UInt8) (payload : Bytes) (timestamp : UInt64) :
    Except SessionError (List Bytes) × Endpoint :=
  if kind = .fragment then (.error (.unsupportedKind kind), e)
  else if e.settings.maxMessageSize < payload.length then (.error (.messageTooLarge payload.length), e)
  else if kind.isControl ∧ e.chunkSize.exceededBy payload.length then
    (.error (.protocol (.payloadTooLarge payload.length)), e)
  else
    let (sequence, sender) := e.nextSequence
    let key : MessageKey := { session := e.session, source := e.node, dest := dest, sequence := sequence }
    ((e.datagrams kind key payload timestamp).mapError .protocol, sender)

/-- Send an error report into a session of any number. A long text is cut. -/
def sendErrorIn (e : Endpoint) (session : UInt32) (dest : UInt8) (code : ErrorCode) (message : String)
    (timestamp : UInt64) : Except SessionError Bytes × Endpoint :=
  let route : Route := { session := session, source := e.node, dest := dest }
  match ErrorReport.toPacket route code (ErrorReport.shorten message) timestamp with
  | .error cause => (.error (.protocol cause), e)
  | .ok packet =>
    let (sequence, sender) := e.nextSequence
    let numbered : Packet := { packet with header := { packet.header with sequence := sequence } }
    (numbered.serialize.mapError .protocol, sender)

/-- Send an error report into the endpoint's own session. -/
def sendError (e : Endpoint) (dest : UInt8) (code : ErrorCode) (message : String) (timestamp : UInt64) :
    Except SessionError Bytes × Endpoint :=
  e.sendErrorIn e.session dest code message timestamp

end LocalPlay.Endpoint
