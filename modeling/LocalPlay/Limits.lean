/-! The constants of the wire format and the bounds that every part of the library keeps. -/
namespace LocalPlay

/-- The number that opens every packet. -/
def protocolMagic : UInt16 := 0x4C44

/-- The one version of the wire format. -/
def protocolVersion : UInt16 := 1

/-- Bytes of a header without fragment fields. -/
def headerLength : Nat := 32

/-- Bytes of the two fragment fields. -/
def fragmentFieldsLength : Nat := 8

/-- Bytes of the header of a fragment. -/
def fragmentHeaderLength : Nat := headerLength + fragmentFieldsLength

/-- The destination that addresses every node of a session. -/
def broadcastNode : UInt8 := 0xFF

/-- The most payload bytes of one packet. -/
def maxPayloadLength : Nat := 1400

/-- The most bytes of one datagram. -/
def maxDatagramLength : Nat := fragmentHeaderLength + maxPayloadLength

/-- The most bytes of one message, unless the settings say otherwise. -/
def defaultMessageLimit : Nat := 65536

/-- The most fragments of a message that a receiver gathers. -/
def maxFragments : Nat := 1024

/-- Bytes of the code that opens an error report. -/
def errorCodeLength : Nat := 4

/-- The most bytes of the text of an error report. -/
def maxErrorMessageLength : Nat := maxPayloadLength - errorCodeLength

end LocalPlay
