import LocalPlay.Fragment.Slots
import LocalPlay.Packet.Basic
import LocalPlay.ProtocolError

/-! Joining the fragments of a message, all at hand and in any order. -/
namespace LocalPlay.Fragment

/-- Why a packet is no part of a message of `count` fragments, if it is none. -/
def fault? (count : UInt32) (p : Packet) : Option ProtocolError :=
  let h := p.header
  if !h.isFragment then some .notAFragment
  else if h.fragmentCount ≠ count then some (.fragmentCountMismatch count h.fragmentCount)
  else if count ≤ h.fragmentIndex then some (.badFragmentIndex h.fragmentIndex count)
  else none

/-- Put the payload of each packet into its slot; a slot that is already filled is an error. -/
def place : Slots → List Packet → Except ProtocolError Slots
  | slots, [] => .ok slots
  | slots, p :: rest =>
    let index := p.header.fragmentIndex
    if (slots.get? index.toNat).isSome then .error (.duplicateFragment index)
    else place (slots.fill index.toNat p.payload) rest

/-- The message that a list of fragments makes up. The first packet says how many there are. Packets that
do not belong are reported first, then a list that is too short, then an index that comes twice. -/
def join : List Packet → Except ProtocolError Bytes
  | [] => .error .noFragments
  | first :: rest =>
    let packets := first :: rest
    let count := first.header.fragmentCount
    match packets.findSome? (fault? count) with
    | some e => .error e
    | none =>
      if packets.length < count.toNat then .error (.missingFragments packets.length count)
      else (place (Slots.empty count.toNat) packets).map Slots.contents

end LocalPlay.Fragment
