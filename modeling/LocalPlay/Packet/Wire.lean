import LocalPlay.Packet.Basic
import LocalPlay.ProtocolError

/-! The wire format. All numbers are little-endian and stand at fixed offsets:

     0  magic            8  kind             16  timestamp        32  fragment index
     2  version         10  source           24  payload size     36  fragment count
     4  session         11  dest             28  checksum
                        12  sequence

The last two are there for fragments only. The payload follows, and a datagram ends with it. What is sent is
received, but for the fragment fields of a packet that is no fragment. -/
namespace LocalPlay

namespace Header

/-- Bytes of the header on the wire. -/
def encodedLength (h : Header) : Nat :=
  if h.isFragment then fragmentHeaderLength else headerLength

/-- The bytes of a header. -/
def encode (h : Header) : Bytes :=
  LittleEndian.encode 2 h.magic.toNat ++
  LittleEndian.encode 2 h.version.toNat ++
  LittleEndian.encode 4 h.session.toNat ++
  LittleEndian.encode 2 h.kindCode.toNat ++
  LittleEndian.encode 1 h.source.toNat ++
  LittleEndian.encode 1 h.dest.toNat ++
  LittleEndian.encode 4 h.sequence.toNat ++
  LittleEndian.encode 8 h.timestamp.toNat ++
  LittleEndian.encode 4 h.payloadSize.toNat ++
  LittleEndian.encode 4 h.checksum.toNat ++
  if h.isFragment then
    LittleEndian.encode 4 h.fragmentIndex.toNat ++ LittleEndian.encode 4 h.fragmentCount.toNat
  else []

/-- The fields at the start of a byte string; bytes that are not there count as zero. -/
def read (bytes : Bytes) : Header :=
  let fixed : Header :=
    { magic := UInt16.ofNat (LittleEndian.field bytes 0 2)
      version := UInt16.ofNat (LittleEndian.field bytes 2 2)
      session := UInt32.ofNat (LittleEndian.field bytes 4 4)
      kindCode := UInt16.ofNat (LittleEndian.field bytes 8 2)
      source := UInt8.ofNat (LittleEndian.field bytes 10 1)
      dest := UInt8.ofNat (LittleEndian.field bytes 11 1)
      sequence := UInt32.ofNat (LittleEndian.field bytes 12 4)
      timestamp := UInt64.ofNat (LittleEndian.field bytes 16 8)
      payloadSize := UInt32.ofNat (LittleEndian.field bytes 24 4)
      checksum := UInt32.ofNat (LittleEndian.field bytes 28 4)
      fragmentIndex := 0
      fragmentCount := 0 }
  if fixed.isFragment then
    { fixed with
      fragmentIndex := UInt32.ofNat (LittleEndian.field bytes 32 4)
      fragmentCount := UInt32.ofNat (LittleEndian.field bytes 36 4) }
  else fixed

/-- Take a datagram apart into its header and payload. The payload must have the declared length; no other
field is judged here. -/
def decode (bytes : Bytes) : Except ProtocolError (Header × Bytes) :=
  let h := read bytes
  if bytes.length < h.encodedLength then .error .tooShort
  else
    let payload := bytes.drop h.encodedLength
    if payload.length = h.payloadSize.toNat then .ok (h, payload)
    else .error (.lengthMismatch h.payloadSize payload.length)

/-- The header as it is sent, without the fragment fields of a packet that is no fragment. -/
def asSent (h : Header) : Header :=
  if h.isFragment then h else { h with fragmentIndex := 0, fragmentCount := 0 }

@[simp] theorem length_encode (h : Header) : h.encode.length = h.encodedLength := by
  by_cases hf : h.isFragment <;>
    simp [encode, encodedLength, hf, headerLength, fragmentHeaderLength, fragmentFieldsLength]

/-- A header is read from its own bytes, whatever follows them. -/
theorem read_encode_append (h : Header) (rest : Bytes) : read (h.encode ++ rest) = h.asSent := by
  by_cases hf : h.isFragment
  · have hk : h.kindCode = PacketKind.fragment.code := isFragment_iff.mp hf
    simp [read, encode, asSent, isFragment, hk, LittleEndian.field_skip, LittleEndian.field_byte,
      LittleEndian.field_word16, LittleEndian.field_word32, LittleEndian.field_word64]
    cases h
    simp_all
  · have hk : ¬ h.kindCode = PacketKind.fragment.code := fun hk => hf (isFragment_iff.mpr hk)
    simp [read, encode, asSent, isFragment, hk, LittleEndian.field_skip, LittleEndian.field_byte,
      LittleEndian.field_word16, LittleEndian.field_word32, LittleEndian.field_word64]

@[simp] theorem payloadSize_asSent (h : Header) : h.asSent.payloadSize = h.payloadSize := by
  by_cases hf : h.isFragment <;> simp [asSent, hf]

@[simp] theorem encodedLength_asSent (h : Header) : h.asSent.encodedLength = h.encodedLength := by
  by_cases hf : h.isFragment
  · simp [asSent, hf]
  · simp_all [encodedLength, asSent, isFragment]

/-- A header and a payload of the length it declares are taken apart again. -/
theorem decode_encode_append {h : Header} {payload : Bytes} (hp : payload.length = h.payloadSize.toNat) :
    decode (h.encode ++ payload) = .ok (h.asSent, payload) := by
  have hd : (h.encode ++ payload).drop h.encodedLength = payload := by
    rw [← length_encode, List.drop_left]
  simp [decode, read_encode_append, hd, hp]

end Header

namespace Packet

/-- Bytes of the packet on the wire. -/
def encodedLength (p : Packet) : Nat := p.header.encodedLength + p.payload.length

/-- Append the packet to a buffer. A packet whose declared length is wrong, or whose payload is too long,
is refused and the buffer stays as it was. -/
def appendTo (p : Packet) (buffer : Bytes) : Except ProtocolError Unit × Bytes :=
  if p.header.payloadSize.toNat ≠ p.payload.length then
    (.error (.lengthMismatch p.header.payloadSize p.payload.length), buffer)
  else if maxPayloadLength < p.payload.length then
    (.error (.payloadTooLarge p.payload.length), buffer)
  else
    (.ok (), buffer ++ (p.header.encode ++ p.payload))

/-- The datagram of a packet: what it appends to the empty buffer. -/
def serialize (p : Packet) : Except ProtocolError Bytes :=
  match p.appendTo [] with
  | (.ok _, datagram) => .ok datagram
  | (.error e, _) => .error e

/-- The packet of a datagram. -/
def deserialize (datagram : Bytes) : Except ProtocolError Packet :=
  (Header.decode datagram).map fun (header, payload) => ⟨header, payload⟩

/-- A packet is sent exactly if it declares its length and is not too long. -/
theorem serialize_eq_ok_iff {p : Packet} {datagram : Bytes} :
    p.serialize = .ok datagram ↔
      p.header.payloadSize.toNat = p.payload.length ∧ p.payload.length ≤ maxPayloadLength ∧
        p.header.encode ++ p.payload = datagram := by
  simp only [serialize, appendTo]
  by_cases hl : p.header.payloadSize.toNat = p.payload.length
  · by_cases hm : maxPayloadLength < p.payload.length
    · simp [hl, hm, Nat.not_le.mpr hm]
    · simp [hl, hm, Nat.not_lt.mp hm]
  · simp [hl]

/-- What is sent is received. -/
theorem deserialize_of_serialize {p : Packet} {datagram : Bytes} (h : p.serialize = .ok datagram) :
    deserialize datagram = .ok { p with header := p.header.asSent } := by
  obtain ⟨hl, -, rfl⟩ := serialize_eq_ok_iff.mp h
  rw [deserialize, Header.decode_encode_append hl.symm]
  rfl

end Packet
end LocalPlay
