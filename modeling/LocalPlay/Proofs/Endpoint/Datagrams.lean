import LocalPlay.Proofs.Endpoint.Replies
import LocalPlay.Proofs.Fragment.Chunks
import LocalPlay.Proofs.Packet.Acceptance

/-! All that an endpoint puts on the network is valid and says what it was asked to send: a payload in one packet or in
fragments that are as few as can be, an error report, or the answer to a refused packet. -/
namespace LocalPlay

/-- The datagram is not too long and is read as this packet, which is valid. -/
structure Packet.ReadFrom (datagram : Bytes) (p : Packet) : Prop where
  length_le : datagram.length ≤ maxDatagramLength
  read : Packet.deserialize datagram = .ok p
  valid : p.check = .ok ()

theorem Packet.ReadFrom.of_valid {datagram : Bytes} {p : Packet} (hd : Packet.deserialize datagram = .ok p)
    (hc : p.check = .ok ()) : p.ReadFrom datagram :=
  ⟨Packet.length_le_of_valid hd hc, hd, hc⟩

namespace Fragment

/-- The packets are the fragments of a message, in order, and as few as can be with so many bytes in each. -/
structure CutUp (size : Nat) (message : Bytes) (ps : List Packet) : Prop where
  length_eq : ps.length = message.length ⌈/⌉ size
  kind : ∀ p ∈ ps, p.header.kind? = some .fragment
  count : ∀ p ∈ ps, p.header.fragmentCount.toNat = ps.length
  index : ps.map (·.header.fragmentIndex.toNat) = List.range ps.length
  full : ∃ full last, ps.map Packet.payload = full ++ [last] ∧ (∀ chunk ∈ full, chunk.length = size) ∧
    0 < last.length ∧ last.length ≤ size
  flatten : (ps.map Packet.payload).flatten = message

/-- A message that is not empty is cut up into its chunks. -/
theorem cutUp_chunks {c : ChunkSize} {message : Bytes} (key : MessageKey) (stamp : UInt64) (h : message ≠ [])
    (hn : c.count message.length < UInt32.size) :
    CutUp c.bytes message
      ((c.chunks message).mapIdx (packet key stamp (UInt32.ofNat (c.chunks message).length))) := by
  rw [← ChunkSize.length_chunks] at hn
  have hpayload : ((c.chunks message).mapIdx (packet key stamp (UInt32.ofNat (c.chunks message).length))).map
      Packet.payload = c.chunks message :=
    List.ext_getElem (by simp) fun i _ hi => by simp [packet]
  constructor
  · rw [List.length_mapIdx, ChunkSize.length_chunks, ChunkSize.count_eq_ceilDiv]
  · intro p hp
    obtain ⟨i, hi, rfl⟩ := List.mem_mapIdx.mp hp
    exact kind?_packet ..
  · intro p hp
    obtain ⟨i, hi, rfl⟩ := List.mem_mapIdx.mp hp
    rw [List.length_mapIdx]
    exact (carries_packet key stamp hn hi).1
  · apply List.ext_getElem
    · simp
    · intro i _ hi
      rw [List.length_range, List.length_mapIdx] at hi
      simpa using toNat_index_packet hn hi _
  · rw [hpayload]
    exact c.chunks_eq_concat h
  · rw [hpayload, ChunkSize.flatten_chunks]

end Fragment

namespace ChunkSize
variable {c : ChunkSize} {kind : PacketKind} {key : MessageKey} {stamp : UInt64} {payload : Bytes} {p : Packet}

theorem check_of_mem_packets (hk : kind ≠ .fragment) (hn : c.count payload.length < UInt32.size)
    (h : p ∈ c.packets kind key stamp payload) : p.check = .ok () := by
  have hl := payload_length_le_of_mem_packets h
  rw [← length_chunks] at hn
  rcases mem_packets.mp h with ⟨-, rfl⟩ | ⟨-, i, hi, rfl⟩
  · exact Packet.check_whole key stamp hk hl
  · exact Fragment.check_packet hn hi hl

end ChunkSize

namespace Endpoint
variable {e : Endpoint} {kind : PacketKind} {key : MessageKey} {stamp : UInt64} {payload : Bytes}

/-- What is sent of a payload: all of it in one packet of the kind if it fits, and else data in at least two
fragments. One packet takes as many bytes as the settings say, but at least one and no more than any packet may. -/
def Sends (e : Endpoint) (kind : PacketKind) (payload : Bytes) (ps : List Packet) : Prop :=
  let size := max 1 (min e.settings.maxPayloadSize maxPayloadLength)
  if payload.length ≤ size then ∃ p, ps = [p] ∧ p.header.kind? = some kind ∧ p.payload = payload
  else kind = .data ∧ 2 ≤ ps.length ∧ Fragment.CutUp size payload ps

theorem Sendable.sends (h : e.Sendable kind payload) (key : MessageKey) (stamp : UInt64) :
    e.Sends kind payload (e.chunkSize.packets kind key stamp payload) := by
  simp only [Sends, ← e.bytes_chunkSize]
  split
  case isTrue hl => exact ⟨_, ChunkSize.packets_of_fits hl, Packet.kind?_whole .., rfl⟩
  case isFalse hl =>
    have hlt := Nat.not_le.mp hl
    have hd : kind = .data := PacketKind.eq_data h.not_fragment fun hc => hl (h.control hc)
    have hne : payload ≠ [] := by
      rintro rfl
      exact hl (Nat.zero_le _)
    rw [ChunkSize.packets_of_exceeds hlt]
    refine ⟨hd, ?_, Fragment.cutUp_chunks key stamp hne h.count_lt⟩
    rw [List.length_mapIdx, ChunkSize.length_chunks]
    exact ChunkSize.two_le_count hlt

theorem readFrom_errorPacket (e : Endpoint) (session : UInt32) (dest : UInt8) (code : ErrorCode) (message : String)
    (stamp : UInt64) :
    (e.errorPacket session dest code message stamp).ReadFrom (e.errorPacket session dest code message stamp).datagram :=
  .of_valid (e.deserialize_errorPacket ..)
    (Packet.check_whole _ _ (by decide) (ErrorReport.length_payload_shorten_le ..))

/-- Whatever an endpoint is asked to send, and whatever it receives, each datagram that it gives is not too long and is
read as a valid packet. Those of a payload bear the session, the node, the destination and one number, and hold the
payload whole or cut up. -/
theorem emitted_valid (e : Endpoint) :
    (∀ kind dest payload stamp datagrams, (e.send kind dest payload stamp).1 = .ok datagrams →
      ∃ ps, List.Forall₂ (fun datagram p => p.ReadFrom datagram) datagrams ps ∧
        (∀ p ∈ ps, p.header.key = e.nextKey dest) ∧ e.Sends kind payload ps) ∧
    (∀ dest code message stamp, ∃ (datagram : Bytes) (p : Packet),
      (e.sendError dest code message stamp).1 = .ok datagram ∧ p.ReadFrom datagram) ∧
    ∀ datagram now stamp reason answer, (e.receive datagram now stamp).1 = .rejected reason (some answer) →
      ∃ p, Packet.ReadFrom answer p := by
  refine ⟨?_, ?_, ?_⟩
  · intro kind dest payload stamp datagrams hs
    obtain ⟨h, rfl, -⟩ := send_eq_ok_iff.mp (Prod.ext hs rfl)
    refine ⟨e.chunkSize.packets kind (e.nextKey dest) stamp payload, ?_, ?_, h.sends _ stamp⟩
    · rw [List.forall₂_map_left_iff, List.forall₂_same]
      intro p hp
      exact .of_valid (ChunkSize.deserialize_of_mem_packets hp)
        (ChunkSize.check_of_mem_packets h.not_fragment h.count_lt hp)
    · exact fun p hp => ChunkSize.key_of_mem_packets hp
  · intro dest code message stamp
    exact ⟨_, _, congrArg Prod.fst (e.sendErrorIn_eq e.session dest code message stamp), e.readFrom_errorPacket ..⟩
  · intro datagram now stamp reason answer hr
    have hi := e.receiving datagram now stamp
    rw [hr] at hi
    rcases hi.rejected with ⟨cause, -, ha⟩ | ⟨p, t, -, ha⟩
    · contradiction
    · rw [reply_eq] at ha
      split at ha
      · obtain rfl := Option.some.inj (congrArg Prod.fst ha)
        exact ⟨_, readFrom_errorPacket ..⟩
      · simp at ha

/-- Three bytes go out in three fragments where none is to fit into a packet, as one does all the same, and a packet of
another session is answered. -/
theorem emitted_valid_three :
    let e := new 7 1 { maxPayloadSize := 0 }
    ∃ datagrams ps, (e.send .data 2 [1, 2, 3] 0).1 = .ok datagrams ∧ datagrams.length = 3 ∧
      List.Forall₂ (fun datagram p => p.ReadFrom datagram) datagrams ps ∧ Fragment.CutUp 1 [1, 2, 3] ps ∧
      ∃ answer p, (e.receive stray.datagram 0 0).1 = .rejected (.wrongSession 9) (some answer) ∧
        Packet.ReadFrom answer p := by
  intro e
  obtain ⟨hsend, -, hreply⟩ := emitted_valid e
  have hsendable : e.Sendable .data [1, 2, 3] := ⟨by decide, by decide, by decide, by decide⟩
  have hs := congrArg Prod.fst (send_eq_ok_iff.mpr ⟨hsendable, rfl, rfl⟩ : e.send .data 2 [1, 2, 3] 0 = _)
  obtain ⟨ps, hread, -, hps⟩ := hsend _ _ _ _ _ hs
  have hr : ∃ answer, (e.receive stray.datagram 0 0).1 = .rejected (.wrongSession 9) (some answer) := by
    have hd : Packet.deserialize stray.datagram = .ok stray := Packet.deserialize_whole _ _ (by decide)
    have hf : e.fault? stray = some (.wrongSession 9) := by decide +kernel
    simp only [receive, hd, hf, reject_eq, reply_eq]
    exact ⟨_, rfl⟩
  obtain ⟨answer, hr⟩ := hr
  obtain ⟨p, hp⟩ := hreply _ _ _ _ _ hr
  exact ⟨_, ps, hs, by decide +kernel, hread, hps.2.2, answer, p, hr, hp⟩

end Endpoint
end LocalPlay
