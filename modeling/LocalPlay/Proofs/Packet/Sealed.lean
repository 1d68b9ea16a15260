import LocalPlay.Fragment.Split
import LocalPlay.Packet.Validity

/-! Sealed packets on the wire: one that is not too long can be sent, is read back as it was, and passes the
check if its header has the magic, the version and a known kind. Fragments of a message are such packets. -/
namespace LocalPlay

namespace Packet

/-- The bytes of a packet on the wire. -/
def datagram (p : Packet) : Bytes := p.header.encode ++ p.payload

theorem payloadSize_sealed {p : Packet} (h : p.payload.length ≤ maxPayloadLength) :
    p.sealed.header.payloadSize.toNat = p.payload.length := by
  have hm : p.payload.length ≤ 1400 := h
  have hmin : min p.payload.length (UInt32.size - 1) = p.payload.length := by
    simp only [UInt32.size]
    omega
  simp only [sealed, hmin, UInt32.toNat_ofNat']
  omega

theorem serialize_sealed {p : Packet} (h : p.payload.length ≤ maxPayloadLength) :
    p.sealed.serialize = .ok p.sealed.datagram :=
  serialize_eq_ok_iff.mpr ⟨payloadSize_sealed h, h, rfl⟩

theorem deserialize_sealed {p : Packet} (h : p.payload.length ≤ maxPayloadLength)
    (hs : p.sealed.header.asSent = p.sealed.header) : deserialize p.sealed.datagram = .ok p.sealed := by
  rw [deserialize_of_serialize (serialize_sealed h), hs]

theorem check_sealed {p : Packet} (h : p.payload.length ≤ maxPayloadLength)
    (hm : p.header.magic = protocolMagic) (hv : p.header.version = protocolVersion) (hk : p.header.kind? ≠ none)
    (hi : p.header.isFragment → p.header.fragmentIndex < p.header.fragmentCount) : p.sealed.check = .ok () :=
  check_eq_ok_iff.mpr ⟨hm, hv, payloadSize_sealed h ▸ h, hk, hi, rfl⟩

/-- The packet that carries a payload in one piece. -/
def whole (kind : PacketKind) (key : MessageKey) (stamp : UInt64) (payload : Bytes) : Packet :=
  sealed ⟨{ Header.blank kind key.toRoute with sequence := key.sequence, timestamp := stamp }, payload⟩

/-- The checksum does not cover the sequence number, which may be set last. -/
theorem whole_renumbered (kind : PacketKind) (key : MessageKey) (stamp : UInt64) (payload : Bytes) (number : UInt32) :
    ({ whole kind key stamp payload with
      header := { (whole kind key stamp payload).header with sequence := number } } : Packet) =
      whole kind { key with sequence := number } stamp payload :=
  rfl

theorem kind?_whole (kind : PacketKind) (key : MessageKey) (stamp : UInt64) (payload : Bytes) :
    (whole kind key stamp payload).header.kind? = some kind :=
  PacketKind.ofCode?_code kind

theorem deserialize_whole {kind : PacketKind} (key : MessageKey) (stamp : UInt64) {payload : Bytes}
    (h : payload.length ≤ maxPayloadLength) :
    deserialize (whole kind key stamp payload).datagram = .ok (whole kind key stamp payload) := by
  refine deserialize_sealed h ?_
  simp only [Header.asSent]
  split <;> rfl

theorem check_whole {kind : PacketKind} (key : MessageKey) (stamp : UInt64) {payload : Bytes}
    (hk : kind ≠ .fragment) (h : payload.length ≤ maxPayloadLength) :
    (whole kind key stamp payload).check = .ok () := by
  refine check_sealed h rfl rfl ?_ ?_
  · rw [Header.kind?, Header.blank, PacketKind.ofCode?_code]
    simp
  · intro hf
    exact absurd (PacketKind.code_inj.mp (Header.isFragment_iff.mp hf)) hk

end Packet

namespace ChunkSize

theorem length_le_of_mem_pieces {size count : Nat} {data chunk : Bytes} (h : chunk ∈ pieces size count data) :
    chunk.length ≤ size := by
  induction count generalizing data with
  | zero => simp [pieces] at h
  | succ count ih =>
    rcases List.mem_cons.mp h with rfl | h
    · exact List.length_take_le ..
    · exact ih h

theorem length_chunk_le {c : ChunkSize} {message chunk : Bytes} (h : chunk ∈ c.chunks message) :
    chunk.length ≤ maxPayloadLength :=
  Nat.le_trans (length_le_of_mem_pieces h) c.le_max

theorem length_chunks (c : ChunkSize) (message : Bytes) : (c.chunks message).length = c.count message.length :=
  length_pieces ..

/-- A message longer than a chunk has at least two. -/
theorem two_le_count {c : ChunkSize} {length : Nat} (h : c.bytes < length) : 2 ≤ c.count length := by
  have hm := c.length_le_count_mul length
  apply Nat.le_of_not_lt
  intro hn
  have hle : c.count length * c.bytes ≤ 1 * c.bytes := Nat.mul_le_mul_right _ (by omega)
  omega

theorem count_le_one (c : ChunkSize) {length : Nat} (h : length ≤ c.bytes) : c.count length ≤ 1 := by
  have hp := c.pos
  have hlt : c.count length < 2 := Nat.div_lt_of_lt_mul (by omega)
  omega

theorem count_le_length (c : ChunkSize) (length : Nat) : c.count length ≤ length := by
  have hp := c.pos
  rw [count]
  apply Nat.le_of_lt_succ
  rw [Nat.div_lt_iff_lt_mul hp]
  have hm : length * 1 ≤ length * c.bytes := Nat.mul_le_mul_left length hp
  rw [Nat.succ_mul]
  omega

end ChunkSize

/-- The packet carries the chunk that stands at its index, of as many chunks as it says. -/
def Packet.Carries (chunks : List Bytes) (p : Packet) : Prop :=
  p.header.fragmentCount.toNat = chunks.length ∧ chunks[p.header.fragmentIndex.toNat]? = some p.payload

namespace Fragment
variable {key : MessageKey} {stamp : UInt64} {chunks : List Bytes} {i : Nat} {chunk : Bytes}

theorem key_packet (key : MessageKey) (stamp : UInt64) (count : UInt32) (i : Nat) (chunk : Bytes) :
    (packet key stamp count i chunk).header.key = key := rfl

theorem kind?_packet (key : MessageKey) (stamp : UInt64) (count : UInt32) (i : Nat) (chunk : Bytes) :
    (packet key stamp count i chunk).header.kind? = some .fragment :=
  PacketKind.ofCode?_code .fragment

theorem deserialize_packet (key : MessageKey) (stamp : UInt64) (count : UInt32) (i : Nat)
    (h : chunk.length ≤ maxPayloadLength) :
    Packet.deserialize (packet key stamp count i chunk).datagram = .ok (packet key stamp count i chunk) := by
  refine Packet.deserialize_sealed h ?_
  rfl

/-- The fields of a fragment are wide enough for its index and the number of chunks. -/
theorem toNat_index_packet (hn : chunks.length < UInt32.size) (hi : i < chunks.length) (count : UInt32) :
    (packet key stamp count i chunk).header.fragmentIndex.toNat = i := by
  change (UInt32.ofNat i).toNat = i
  rw [UInt32.toNat_ofNat']
  exact Nat.mod_eq_of_lt (by simp only [UInt32.size] at hn; omega)

theorem check_packet (hn : chunks.length < UInt32.size) (hi : i < chunks.length)
    (h : chunk.length ≤ maxPayloadLength) :
    (packet key stamp (UInt32.ofNat chunks.length) i chunk).check = .ok () := by
  refine Packet.check_sealed h rfl rfl ?_ ?_
  · rw [Header.kind?, Header.blank, PacketKind.ofCode?_code]
    simp
  intro _
  change UInt32.ofNat i < UInt32.ofNat chunks.length
  simp only [UInt32.size] at hn
  rw [UInt32.lt_iff_toNat_lt, UInt32.toNat_ofNat', UInt32.toNat_ofNat', Nat.mod_eq_of_lt (by omega),
    Nat.mod_eq_of_lt (by omega)]
  exact hi

theorem carries_packet (key : MessageKey) (stamp : UInt64) (hn : chunks.length < UInt32.size) (hi : i < chunks.length) :
    (packet key stamp (UInt32.ofNat chunks.length) i chunks[i]).Carries chunks := by
  constructor
  · change (UInt32.ofNat chunks.length).toNat = chunks.length
    rw [UInt32.toNat_ofNat']
    exact Nat.mod_eq_of_lt hn
  · rw [toNat_index_packet hn hi]
    exact List.getElem?_eq_getElem hi

end Fragment
end LocalPlay
