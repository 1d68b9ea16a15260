import LocalPlay.Packet.Basic
import LocalPlay.ProtocolError

/-! The ways in which an endpoint refuses to send or to deliver: the causes, their wording, and the code that
a peer is told. -/
namespace LocalPlay

/-- Why something is not sent or not delivered. -/
inductive SessionError where
  | protocol (cause : ProtocolError)
  /-- The rest of a message did not come in time. -/
  | reassemblyTimeout (key : MessageKey) (received : Nat) (count : UInt32)
  /-- As many messages are being gathered as the limit allows. -/
  | tableFull (limit : Nat)
  | messageTooLarge (length : Nat)
  | wrongSession (session : UInt32)
  | wrongNode (node : UInt8)
  /-- Packets of this kind are made by the endpoint alone. -/
  | unsupportedKind (kind : PacketKind)
  deriving DecidableEq

/-- A message key as shown in messages. -/
def MessageKey.text (k : MessageKey) : String :=
  s!"FragmentKey \x7b session_id: {k.session}, source_node_id: {k.source}, " ++
    s!"dest_node_id: {k.dest}, sequence_number: {k.sequence} \x7d"

namespace SessionError

/-- The wording of a cause. -/
def message : SessionError → String
  | protocol cause => "protocol error: " ++ cause.message
  | reassemblyTimeout key received count =>
    "reassembly of " ++ key.text ++ s!" timed out with {received}/{count} fragments"
  | tableFull limit => s!"reassembly table full ({limit} pending messages)"
  | messageTooLarge length => s!"message too large: {length} bytes"
  | wrongSession session => "packet for session 0x" ++ Hex.padded 8 session.toNat
  | wrongNode node => s!"packet for node {node}"
  | unsupportedKind kind => kind.name ++ " packets cannot be sent directly"

/-- The code that a peer is told. -/
def code : SessionError → ErrorCode
  | protocol cause => cause.code
  | reassemblyTimeout .. => .timeout
  | tableFull _ | messageTooLarge _ => .fragmentationError
  | wrongSession _ => .sessionNotFound
  | wrongNode _ => .nodeNotFound
  | unsupportedKind _ => .invalidPacket

end SessionError
end LocalPlay
