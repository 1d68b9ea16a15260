import LocalPlay.Packet.Basic
import LocalPlay.ProtocolError
import LocalPlay.Text.Utf8

/-! Error reports: packets that tell a peer what went wrong. Their payload is a code, four bytes long, and a
text in UTF-8 up to the end. -/
namespace LocalPlay

/-- What a peer reports. The code need not be a known one. -/
structure ErrorReport where
  rawCode : UInt32
  message : String
  deriving DecidableEq

namespace ErrorReport

/-- The reported code, if its number is known. -/
def code? (r : ErrorReport) : Option ErrorCode := ErrorCode.ofNumber? r.rawCode

/-- The payload that carries a code and a text. -/
def payload (code : ErrorCode) (message : String) : Bytes :=
  LittleEndian.encode errorCodeLength code.number.toNat ++ Utf8.bytes message

/-- The packet that carries a code and a text; a text that does not fit into one packet is refused. -/
def toPacket (route : Route) (code : ErrorCode) (message : String) (timestamp : UInt64) :
    Except ProtocolError Packet :=
  let content := payload code message
  if maxPayloadLength < content.length then .error (.payloadTooLarge content.length)
  else .ok (Packet.sealed ⟨{ Header.blank .error route with timestamp := timestamp }, content⟩)

/-- The longest beginning of a text that fits into one packet. -/
def shorten (message : String) : String :=
  String.ofList (Utf8.takeBytes maxErrorMessageLength message.toList)

/-- Read the report in an error packet. Bytes of the text that are no characters are replaced. -/
def ofPacket (p : Packet) : Except ProtocolError ErrorReport :=
  if p.header.kind? ≠ some .error then .error (.unknownKind p.header.kindCode)
  else if p.payload.length < errorCodeLength then .error .reportTooShort
  else .ok
    { rawCode := UInt32.ofNat (LittleEndian.field p.payload 0 errorCodeLength)
      message := String.ofList (Utf8.decode (p.payload.drop errorCodeLength)) }

end ErrorReport
end LocalPlay
