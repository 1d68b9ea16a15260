import LocalPlay.Checksum
import LocalPlay.Limits
import LocalPlay.PacketKind

/-! Packets: a header and the payload it describes. A header keeps the raw numbers of its fields, so that a
packet with a wrong magic or an unknown kind can still be named and answered. Sealing a packet makes the
header describe the payload. -/
namespace LocalPlay

/-- Between which nodes of which session a packet travels. -/
structure Route where
  session : UInt32
  source : UInt8
  dest : UInt8
  deriving DecidableEq

/-- What the fragments of one message have in common. -/
structure MessageKey extends Route where
  sequence : UInt32
  deriving DecidableEq

/-- The fields in front of a payload. -/
structure Header extends Route where
  magic : UInt16
  version : UInt16
  /-- The number of the packet's kind, which need not be a known one. -/
  kindCode : UInt16
  /-- Counts the packets of a sender; the fragments of a message share it. -/
  sequence : UInt32
  /-- Milliseconds since 1970, as the sender saw it. -/
  timestamp : UInt64
  payloadSize : UInt32
  checksum : UInt32
  /-- The place of a fragment in its message, from zero. Sent with fragments only. -/
  fragmentIndex : UInt32
  /-- The number of fragments of the message. Sent with fragments only. -/
  fragmentCount : UInt32
  deriving DecidableEq

namespace Header

/-- The header of a given kind and route, with all else zero. -/
def blank (kind : PacketKind) (route : Route) : Header where
  toRoute := route
  magic := protocolMagic
  version := protocolVersion
  kindCode := kind.code
  sequence := 0
  timestamp := 0
  payloadSize := 0
  checksum := 0
  fragmentIndex := 0
  fragmentCount := 0

/-- The kind of the packet, if its number is known. -/
def kind? (h : Header) : Option PacketKind := PacketKind.ofCode? h.kindCode

def isFragment (h : Header) : Bool := h.kindCode == PacketKind.fragment.code

/-- The message that a fragment belongs to. -/
def key (h : Header) : MessageKey := { h.toRoute with sequence := h.sequence }

theorem isFragment_iff {h : Header} : h.isFragment = true ↔ h.kindCode = PacketKind.fragment.code := by
  simp [isFragment]

end Header

/-- A header and the payload behind it. -/
structure Packet where
  header : Header
  payload : Bytes
  deriving DecidableEq

namespace Packet

/-- The packet with a header that describes its payload: the length, as far as 32 bits go, and the
checksum. -/
def sealed (p : Packet) : Packet :=
  { p with header := { p.header with
      payloadSize := UInt32.ofNat (min p.payload.length (UInt32.size - 1))
      checksum := Checksum.crc32 p.payload } }

@[simp] theorem payload_sealed (p : Packet) : p.sealed.payload = p.payload := rfl

/-- Sealing twice is sealing once. -/
@[simp] theorem sealed_sealed (p : Packet) : p.sealed.sealed = p.sealed := rfl

end Packet
end LocalPlay
