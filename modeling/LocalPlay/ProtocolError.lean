import LocalPlay.ErrorCode
import LocalPlay.Text.Hex

/-! The ways in which a packet, or a set of fragments, can be wrong: the causes, their wording, and the code
that a peer is told. -/
namespace LocalPlay

/-- Why a packet or a set of fragments is refused. -/
inductive ProtocolError where
  /-- The bytes do not hold a whole header. -/
  | tooShort
  /-- The header declares another number of payload bytes than there are. -/
  | lengthMismatch (declared : UInt32) (actual : Nat)
  | payloadTooLarge (length : Nat)
  | badMagic (found : UInt16)
  | unsupportedVersion (found : UInt16)
  /-- The header declares more payload than a packet may carry. -/
  | payloadOverLimit (declared : UInt32)
  | unknownKind (code : UInt16)
  | badFragmentIndex (index count : UInt32)
  | checksumMismatch (expected actual : UInt32)
  | noFragments
  | notAFragment
  /-- Two fragments of one message disagree on their number. -/
  | fragmentCountMismatch (expected found : UInt32)
  | duplicateFragment (index : UInt32)
  | missingFragments (received : Nat) (count : UInt32)
  | tooManyFragments (count : Nat)
  /-- An error report without a whole code. -/
  | reportTooShort
  deriving DecidableEq

namespace ProtocolError

/-- The wording of a cause. -/
def message : ProtocolError → String
  | tooShort => "buffer too short"
  | lengthMismatch declared actual =>
    s!"payload length mismatch: header declares {declared}, found {actual}"
  | payloadTooLarge length => s!"payload too large: {length}"
  | badMagic found => "bad magic 0x" ++ Hex.padded 4 found.toNat
  | unsupportedVersion found => s!"unsupported version {found}"
  | payloadOverLimit declared => s!"declared payload size over limit: {declared}"
  | unknownKind code => s!"unknown packet type: {code}"
  | badFragmentIndex index count => s!"fragment index {index} out of range for {count} fragments"
  | checksumMismatch expected actual =>
    "checksum mismatch: header 0x" ++ Hex.padded 8 expected.toNat ++ ", payload 0x" ++
      Hex.padded 8 actual.toNat
  | noFragments => "no fragments"
  | notAFragment => "packet is not a fragment"
  | fragmentCountMismatch expected found =>
    s!"fragment count mismatch: expected {expected}, found {found}"
  | duplicateFragment index => s!"duplicate fragment {index}"
  | missingFragments received count => s!"missing fragments: have {received} of {count}"
  | tooManyFragments count => s!"too many fragments: {count}"
  | reportTooShort => "error payload too short"

/-- The code that a peer is told. -/
def code : ProtocolError → ErrorCode
  | checksumMismatch .. => .checksumMismatch
  | unsupportedVersion .. => .unsupportedVersion
  | badFragmentIndex .. | noFragments | notAFragment | fragmentCountMismatch .. | duplicateFragment ..
  | missingFragments .. | tooManyFragments .. => .fragmentationError
  | tooShort | lengthMismatch .. | payloadTooLarge .. | badMagic .. | payloadOverLimit ..
  | unknownKind .. | reportTooShort => .invalidPacket

end ProtocolError
end LocalPlay
