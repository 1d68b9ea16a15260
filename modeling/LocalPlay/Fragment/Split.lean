import LocalPlay.Packet.Basic
import LocalPlay.ProtocolError

/-! Splitting a message into fragments: all but the last are as long as the chunk size, and the last is not
empty. -/
namespace LocalPlay

/-- How many bytes of a message one packet carries: at least one, and no more than a packet may. -/
structure ChunkSize where
  bytes : Nat
  pos : 0 < bytes
  le_max : bytes ≤ maxPayloadLength

namespace ChunkSize

/-- The chunk size closest to a given number. -/
def clamp (n : Nat) : ChunkSize where
  bytes := max 1 (min n maxPayloadLength)
  pos := by omega
  le_max := by simp only [maxPayloadLength]; omega

theorem bytes_clamp (n : Nat) : (clamp n).bytes = max 1 (min n maxPayloadLength) := rfl

/-- The number of chunks of a message: its length over the chunk size, rounded up. -/
def count (c : ChunkSize) (length : Nat) : Nat := (length + c.bytes - 1) / c.bytes

/-- Whether a message is too long for one packet. -/
def exceededBy (c : ChunkSize) (length : Nat) : Bool := c.bytes < length

/-- The first `count` pieces of `size` bytes. -/
def pieces (size : Nat) : Nat → Bytes → List Bytes
  | 0, _ => []
  | count + 1, data => data.take size :: pieces size count (data.drop size)

/-- The chunks of a message, in order. -/
def chunks (c : ChunkSize) (message : Bytes) : List Bytes :=
  pieces c.bytes (c.count message.length) message

@[simp] theorem length_pieces (size count : Nat) (data : Bytes) :
    (pieces size count data).length = count := by
  induction count generalizing data with
  | zero => rfl
  | succ count ih => simp [pieces, ih]

/-- The pieces of enough data are the data. -/
theorem flatten_pieces {size count : Nat} {data : Bytes} (h : data.length ≤ count * size) :
    (pieces size count data).flatten = data := by
  induction count generalizing data with
  | zero => simp at h; simp [pieces, h]
  | succ count ih =>
    have hd : (data.drop size).length ≤ count * size := by
      rw [Nat.succ_mul] at h
      simp
      omega
    simp [pieces, ih hd]

theorem length_le_count_mul (c : ChunkSize) (length : Nat) : length ≤ c.count length * c.bytes := by
  have hp := c.pos
  have hm := Nat.div_add_mod (length + c.bytes - 1) c.bytes
  have hr := Nat.mod_lt (length + c.bytes - 1) hp
  rw [Nat.mul_comm] at hm
  simp only [count]
  omega

/-- The chunks of a message make it up. -/
@[simp] theorem flatten_chunks (c : ChunkSize) (message : Bytes) : (c.chunks message).flatten = message :=
  flatten_pieces (c.length_le_count_mul message.length)

end ChunkSize

namespace Fragment

/-- One fragment of a message. -/
def packet (key : MessageKey) (timestamp : UInt64) (count : UInt32) (index : Nat) (chunk : Bytes) : Packet :=
  Packet.sealed
    { header := { Header.blank .fragment key.toRoute with
        sequence := key.sequence
        timestamp := timestamp
        fragmentIndex := UInt32.ofNat index
        fragmentCount := count }
      payload := chunk }

/-- The fragments of a message, in order. The empty message has none. -/
def split (c : ChunkSize) (key : MessageKey) (timestamp : UInt64) (message : Bytes) :
    Except ProtocolError (List Packet) :=
  let count := c.count message.length
  if UInt32.size ≤ count then .error (.tooManyFragments count)
  else .ok ((c.chunks message).mapIdx (packet key timestamp (UInt32.ofNat count)))

end Fragment
end LocalPlay
