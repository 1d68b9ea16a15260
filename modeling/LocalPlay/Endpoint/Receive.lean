import LocalPlay.Endpoint.Send
import LocalPlay.Packet.Validity

/-! What an endpoint makes of a datagram. It is read, checked, and looked at for its session and destination;
then a fragment goes to the table, an error report is read, and any other packet is delivered. What is
refused can be answered with an error report, but an error packet never is. -/
namespace LocalPlay

/-- What became of a datagram. -/
inductive Reception where
  /-- A valid packet that is neither a fragment nor an error report. -/
  | packet (packet : Packet)
  /-- The last fragment of a message came. -/
  | message (key : MessageKey) (data : Bytes)
  | peerError (header : Header) (report : ErrorReport)
  /-- A fragment came, and others are missing. -/
  | pending
  /-- The datagram was dropped, with a datagram for its sender if it is to be answered. -/
  | rejected (reason : SessionError) (reply : Option Bytes)
  deriving DecidableEq

namespace Endpoint

/-- The answer to a packet that was refused, if there is to be one. -/
def reply (e : Endpoint) (h : Header) (reason : SessionError) (timestamp : UInt64) :
    Option Bytes × Endpoint :=
  if e.settings.replyWithErrors ∧ h.kindCode ≠ PacketKind.error.code then
    match e.sendErrorIn h.session h.source reason.code reason.message timestamp with
    | (.ok datagram, e) => (some datagram, e)
    | (.error _, e) => (none, e)
  else (none, e)

/-- Refuse a packet. -/
def reject (e : Endpoint) (h : Header) (reason : SessionError) (timestamp : UInt64) :
    Reception × Endpoint :=
  let (answer, e) := e.reply h reason timestamp
  (.rejected reason answer, e)

/-- Why a packet is refused on sight: it is not valid, or it is meant for another session or node. -/
def fault? (e : Endpoint) (p : Packet) : Option SessionError :=
  match p.check with
  | .error cause => some (.protocol cause)
  | .ok _ =>
    if p.header.session ≠ e.session then some (.wrongSession p.header.session)
    else if p.header.dest ≠ e.node ∧ p.header.dest ≠ broadcastNode then some (.wrongNode p.header.dest)
    else none

/-- Take a packet that is valid and meant for this endpoint. -/
def accept (e : Endpoint) (p : Packet) (now : Nat) (timestamp : UInt64) : Reception × Endpoint :=
  match p.header.kind? with
  | some .fragment =>
    match e.table.insert p now with
    | (.ok (some data), table) => (.message p.header.key data, { e with table := table })
    | (.ok none, table) => (.pending, { e with table := table })
    | (.error reason, table) => { e with table := table }.reject p.header reason timestamp
  | some .error =>
    match ErrorReport.ofPacket p with
    | .ok report => (.peerError p.header report, e)
    | .error cause => e.reject p.header (.protocol cause) timestamp
  | _ => (.packet p, e)

/-- Take a datagram. One that cannot be read is dropped without an answer. -/
def receive (e : Endpoint) (datagram : Bytes) (now : Nat) (timestamp : UInt64) : Reception × Endpoint :=
  match Packet.deserialize datagram with
  | .error cause => (.rejected (.protocol cause) none, e)
  | .ok p =>
    match e.fault? p with
    | some reason => e.reject p.header reason timestamp
    | none => e.accept p now timestamp

end Endpoint
end LocalPlay
