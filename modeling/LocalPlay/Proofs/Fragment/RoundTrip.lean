import LocalPlay.Proofs.Endpoint.Datagrams
import LocalPlay.Proofs.Fragment.Complete

/-! Splitting is undone by joining. The fragments of a message are a complete set, each of them is the same after it was
sent and read back, and in whatever order they come they are joined to the message. -/
namespace LocalPlay

/-- The packet as its receiver reads it. -/
def Packet.relayed (p : Packet) : Except ProtocolError Packet := p.serialize.bind deserialize

namespace Fragment
variable {size : Nat} {c : ChunkSize} {message : Bytes} {key : MessageKey} {stamp : UInt64} {ps qs : List Packet}

theorem CutUp.complete (h : CutUp size message ps) : Complete (UInt32.ofNat ps.length) ps := by
  have hne : ps ≠ [] := by
    rintro rfl
    obtain ⟨full, last, hp, -⟩ := h.full
    simp at hp
  have hcount : ∀ p ∈ ps, p.header.fragmentCount = UInt32.ofNat ps.length := by
    intro p hp
    rw [← h.count p hp, UInt32.ofNat_toNat]
  obtain ⟨first, hfirst⟩ := List.exists_mem_of_ne_nil ps hne
  have hn : (UInt32.ofNat ps.length).toNat = ps.length := by rw [← hcount first hfirst, h.count first hfirst]
  refine ⟨hne, fun p hp => ⟨?_, hcount p hp⟩, ?_⟩
  · exact Header.isFragment_iff.mpr (Header.kind?_eq_some_iff.mp (h.kind p hp))
  · rw [hn]
    exact .of_eq h.index

/-- Fragments of a message are joined to it in any order. -/
theorem CutUp.join_eq (h : CutUp size message ps) (hp : ps.Perm qs) : join qs = .ok message := by
  have hc := h.complete
  have hsorted : ordered ps = ps := ordered_of_indices h.index
  rw [(hc.perm hp).join_eq, concatenated, ordered_eq_of_perm hc.nodup hp, hsorted, List.flatMap_def, h.flatten]

theorem relayed_packet (key : MessageKey) (stamp : UInt64) (count : UInt32) (i : Nat) {chunk : Bytes}
    (h : chunk.length ≤ maxPayloadLength) :
    (packet key stamp count i chunk).relayed = .ok (packet key stamp count i chunk) := by
  have hs : (packet key stamp count i chunk).serialize = .ok (packet key stamp count i chunk).datagram :=
    Packet.serialize_sealed h
  simp only [Packet.relayed, hs, Except.bind]
  exact deserialize_packet key stamp count i h

/-- A message whose length fits into 32 bits is split, into the fragments of its chunks. -/
theorem split_eq_ok (c : ChunkSize) (key : MessageKey) (stamp : UInt64) (h : message.length < UInt32.size) :
    split c key stamp message =
      .ok ((c.chunks message).mapIdx (packet key stamp (UInt32.ofNat (c.chunks message).length))) := by
  have hn := Nat.lt_of_le_of_lt (c.count_le_length message.length) h
  rw [split, if_neg (Nat.not_le.mpr hn), ChunkSize.length_chunks]

/-- Split a message of fewer than 2^32 bytes, with any number asked for as the size of the chunks; the size is that
number, but at least one and no more than a packet may carry. This gives as many fragments as chunks of that size are
needed; each is valid, bears the given key and time, and is read as it was sent. If the message is not empty, the
fragments are it cut up in order, and in any order, sent and read back or not, they are joined to it. The empty message
has no fragments, and nothing is joined from none. -/
theorem split_join {message : Bytes} (h : message.length < UInt32.size) (requested : Nat) (key : MessageKey)
    (stamp : UInt64) :
    let c := ChunkSize.clamp requested
    let size := max 1 (min requested maxPayloadLength)
    c.bytes = size ∧ ∃ ps, split c key stamp message = .ok ps ∧
      ps.length = c.count message.length ∧ ps.length = message.length ⌈/⌉ size ∧
      (∀ p ∈ ps, p.header.key = key ∧ p.header.timestamp = stamp ∧ p.check = .ok () ∧ p.relayed = .ok p) ∧
      (message ≠ [] → CutUp size message ps ∧
        ∀ qs, ps.Perm qs → join qs = .ok message ∧ (qs.mapM Packet.relayed).bind join = .ok message) ∧
      (message = [] → ps = [] ∧ join ps = .error .noFragments) := by
  intro c size
  have hsize : c.bytes = size := ChunkSize.bytes_clamp requested
  have hn := Nat.lt_of_le_of_lt (c.count_le_length message.length) h
  refine ⟨hsize, _, split_eq_ok c key stamp h, ?_⟩
  rw [← hsize]
  generalize hps : (c.chunks message).mapIdx (packet key stamp (UInt32.ofNat (c.chunks message).length)) = ps
  have hlength : ps.length = c.count message.length := by rw [← hps, List.length_mapIdx, ChunkSize.length_chunks]
  have hrelayed : ∀ p ∈ ps, p.relayed = .ok (id p) := by
    intro p hp
    obtain ⟨i, hi, rfl⟩ := List.mem_mapIdx.mp (hps ▸ hp)
    exact relayed_packet key stamp _ i (ChunkSize.length_chunk_le (List.getElem_mem hi))
  refine ⟨hlength, hlength.trans (c.count_eq_ceilDiv _), ?_, ?_, ?_⟩
  · intro p hp
    have hr := hrelayed p hp
    obtain ⟨i, hi, rfl⟩ := List.mem_mapIdx.mp (hps ▸ hp)
    rw [← ChunkSize.length_chunks] at hn
    exact ⟨rfl, rfl, check_packet hn hi (ChunkSize.length_chunk_le (List.getElem_mem hi)), hr⟩
  · intro hne
    have hcut : CutUp c.bytes message ps := hps ▸ cutUp_chunks key stamp hne hn
    refine ⟨hcut, fun qs hp => ⟨hcut.join_eq hp, ?_⟩⟩
    rw [mapM_eq_ok_map fun q hq => hrelayed q (hp.symm.subset hq), List.map_id]
    exact hcut.join_eq hp
  · rintro rfl
    have hnil : ps = [] := List.eq_nil_of_length_eq_zero (Nat.le_zero.mp (hlength ▸ c.count_le_length 0))
    exact ⟨hnil, hnil ▸ rfl⟩

/-- Three bytes in chunks of none, which are chunks of one, the last fragment first. -/
theorem split_join_three :
    ([1, 2, 3] : Bytes).length < UInt32.size ∧
      ∃ a b d, split (ChunkSize.clamp 0) ⟨⟨7, 1, 2⟩, 0⟩ 0 [1, 2, 3] = .ok [a, b, d] ∧
        CutUp 1 [1, 2, 3] [a, b, d] ∧ join [d, a, b] = .ok [1, 2, 3] ∧
        ([d, a, b].mapM Packet.relayed).bind join = .ok [1, 2, 3] := by
  have hl : ([1, 2, 3] : Bytes).length < UInt32.size := by decide
  obtain ⟨-, ps, hs, hlength, -, -, hcut, -⟩ := split_join hl 0 ⟨⟨7, 1, 2⟩, 0⟩ 0
  obtain ⟨a, b, d, rfl⟩ := List.length_eq_three.mp hlength
  obtain ⟨hc, hjoin⟩ := hcut (by decide)
  have hp : [a, b, d].Perm [d, a, b] := by grind
  exact ⟨hl, a, b, d, hs, hc, hjoin _ hp⟩

end Fragment
end LocalPlay
