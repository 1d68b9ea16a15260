import LocalPlay.Limits

/-! The settings of an endpoint. -/
namespace LocalPlay

/-- What a host can set for an endpoint. -/
structure Settings where
  /-- Payload bytes of a packet before a message is split; brought into the range of a chunk size. -/
  maxPayloadSize : Nat := maxPayloadLength
  /-- The longest message that is sent or gathered. -/
  maxMessageSize : Nat := defaultMessageLimit
  /-- Nanoseconds after which an unfinished message is given up. -/
  reassemblyTimeout : Nat := 5000000000
  /-- How many messages are gathered at once. -/
  maxPendingReassemblies : Nat := 64
  /-- Whether a bad packet is answered with an error report. -/
  replyWithErrors : Bool := true
  deriving DecidableEq

end LocalPlay
