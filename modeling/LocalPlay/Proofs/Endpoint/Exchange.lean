import LocalPlay.Proofs.Endpoint.Emission
import LocalPlay.Proofs.Reassembly.Gathering

/-! A message in pieces between two endpoints: each of its datagrams brings the receiver one chunk, and the
receiver answers as its table does. -/
namespace LocalPlay.Endpoint

/-- The datagram brings the endpoint the chunk of a message that has this index. -/
def Brings (e : Endpoint) (key : MessageKey) (chunks : List Bytes) (i : Nat) (datagram : Bytes) : Prop :=
  ∃ p, e.fragmentIn? datagram = some p ∧ p.header.key = key ∧ p.Carries chunks ∧
    p.header.fragmentIndex.toNat = i

section Sending
variable {A A' B : Endpoint} {dest : UInt8} {payload : Bytes} {stamp : UInt64} {datagrams : List Bytes}

/-- An empty payload takes a datagram too. -/
theorem length_of_send (h : A.send .data dest payload stamp = (.ok datagrams, A')) :
    datagrams.length = max 1 (A.chunkSize.count payload.length) := by
  obtain ⟨-, rfl, -⟩ := send_eq_ok_iff.mp h
  by_cases hl : payload.length ≤ A.chunkSize.bytes
  · have hc := A.chunkSize.count_le_one hl
    rw [ChunkSize.packets_of_fits hl, Nat.max_eq_left hc]
    rfl
  · have h2 := ChunkSize.two_le_count (Nat.not_le.mp hl)
    rw [ChunkSize.packets_of_exceeds (Nat.not_le.mp hl), List.length_map, List.length_mapIdx, ChunkSize.length_chunks]
    omega

/-- More than one datagram go to a message that is longer than a chunk: the fragments of its chunks. -/
theorem getElem?_datagrams (h : A.send .data dest payload stamp = (.ok datagrams, A')) (h2 : 2 ≤ datagrams.length) :
    datagrams.length = (A.chunkSize.chunks payload).length ∧ datagrams.length < UInt32.size ∧
      ∀ i, datagrams[i]? = (A.chunkSize.chunks payload)[i]?.map fun chunk =>
        (Fragment.packet (A.nextKey dest) stamp (UInt32.ofNat (A.chunkSize.chunks payload).length) i chunk).datagram := by
  obtain ⟨hs, rfl, -⟩ := send_eq_ok_iff.mp h
  have hl : A.chunkSize.bytes < payload.length := by
    by_contra hl
    simp [ChunkSize.packets_of_fits (Nat.not_lt.mp hl)] at h2
  have hn := hs.count_lt
  rw [← ChunkSize.length_chunks] at hn
  simp only [ChunkSize.packets_of_exceeds hl, List.length_map, List.length_mapIdx, List.getElem?_map,
    List.getElem?_mapIdx, Option.map_map]
  exact ⟨trivial, hn, fun _ => rfl⟩

/-- Each datagram of a message is read as the fragment of its index. -/
theorem fragment_of_send (h : A.send .data dest payload stamp = (.ok datagrams, A')) (h2 : 2 ≤ datagrams.length)
    {i : Nat} {datagram : Bytes} (hi : datagrams[i]? = some datagram) :
    ∃ p, Packet.deserialize datagram = .ok p ∧ p.check = .ok () ∧ p.header.kind? = some .fragment ∧
      p.header.key = A.nextKey dest ∧ p.Carries (A.chunkSize.chunks payload) ∧ p.header.fragmentIndex.toNat = i := by
  obtain ⟨hlen, hn, hget⟩ := getElem?_datagrams h h2
  rw [hget, Option.map_eq_some_iff] at hi
  obtain ⟨chunk, hc, rfl⟩ := hi
  obtain ⟨hlt, rfl⟩ := List.getElem?_eq_some_iff.mp hc
  rw [hlen] at hn
  have hl := ChunkSize.length_chunk_le (List.getElem_mem hlt)
  exact ⟨_, Fragment.deserialize_packet _ _ _ _ hl, Fragment.check_packet hn hlt hl, Fragment.kind?_packet ..,
    Fragment.key_packet .., Fragment.carries_packet (A.nextKey dest) stamp hn hlt,
    Fragment.toNat_index_packet hn hlt _⟩

/-- Each datagram of a message brings its receiver the chunk of its index. -/
theorem brings_of_send (h : A.send .data dest payload stamp = (.ok datagrams, A')) (hs : B.session = A.session)
    (hd : dest = B.node ∨ dest = broadcastNode) (h2 : 2 ≤ datagrams.length) {i : Nat} {datagram : Bytes}
    (hi : datagrams[i]? = some datagram) : B.Brings (A.nextKey dest) (A.chunkSize.chunks payload) i datagram := by
  obtain ⟨p, hp, hcheck, hk, hkey, hcarries⟩ := fragment_of_send h h2 hi
  have hsession : p.header.session = A.session := congrArg (·.session) hkey
  have hdest : p.header.dest = dest := congrArg (·.dest) hkey
  have hf : B.fault? p = none := fault?_eq_none_iff.mpr ⟨hcheck, hsession.trans hs.symm, hdest ▸ hd⟩
  exact ⟨p, fragmentIn?_eq_some_iff.mpr ⟨hp, hf, hk⟩, hkey, hcarries⟩

end Sending

section Receiving
variable {e : Endpoint} {key : MessageKey} {chunks : List Bytes} {i start : Nat} {datagram : Bytes} {came : Nat → Prop}

theorem Brings.congr {e' : Endpoint} (h : e.Brings key chunks i datagram) (hs : e.SameNode e') :
    e'.Brings key chunks i datagram := by
  obtain ⟨p, hp, hi⟩ := h
  exact ⟨p, (fragmentIn?_congr hs datagram).trans hp, hi⟩

/-- A datagram brings one chunk at most. -/
theorem Brings.index_unique {j : Nat} (hi : e.Brings key chunks i datagram) (hj : e.Brings key chunks j datagram) :
    i = j := by
  obtain ⟨p, hp, -, -, hi⟩ := hi
  obtain ⟨q, hq, -, -, hj⟩ := hj
  obtain rfl := Option.some.inj (hp.symm.trans hq)
  exact hi.symm.trans hj

/-- All that the table can have against a valid fragment on sight is the number of fragments. -/
theorem fault?_of_fragmentIn? {p : Packet} (h : e.fragmentIn? datagram = some p) :
    Reassembly.fault? p.header =
      if maxFragments < p.header.fragmentCount.toNat then some (.tooManyFragments p.header.fragmentCount.toNat)
      else none := by
  obtain ⟨-, hf, hk⟩ := fragmentIn?_eq_some_iff.mp h
  have hfrag : p.header.isFragment = true := Header.isFragment_iff.mpr (Header.kind?_eq_some_iff.mp hk)
  obtain ⟨-, -, -, -, hi, -⟩ := Packet.check_eq_ok_iff.mp (fault?_eq_none_iff.mp hf).1
  simp [Reassembly.fault?, hfrag, UInt32.not_le.mpr (hi hfrag)]

/-- A fragment of a message that has too many is refused. -/
theorem Brings.refused (hb : e.Brings key chunks i datagram) (hm : maxFragments < chunks.length) (now : Nat)
    (stamp : UInt64) :
    ∃ answer, (e.receive datagram now stamp).1 =
      .rejected (.protocol (.tooManyFragments chunks.length)) answer := by
  obtain ⟨p, hp, -, hc, -⟩ := hb
  have hf := fault?_of_fragmentIn? hp
  rw [hc.1, if_pos hm] at hf
  have hi : (e.table.insert p now).1 = .error (.protocol (.tooManyFragments chunks.length)) := by
    simp only [Reassembly.Table.insert, hf]
  rw [receive_of_fragment hp, hi]
  exact ⟨_, rfl⟩

private theorem no_fault {p : Packet} (hp : e.fragmentIn? datagram = some p) (hc : p.Carries chunks)
    (hm : chunks.length ≤ maxFragments) : Reassembly.fault? p.header = none := by
  rw [fault?_of_fragmentIn? hp, hc.1, if_neg (Nat.not_lt.mpr hm)]

variable (h : e.table.WellFormed) (h2 : 2 ≤ chunks.length) (hn : chunks.length ≤ maxFragments)
  (hl : chunks.flatten.length ≤ e.table.maxMessageSize)
include h h2 hn hl

theorem Brings.opens (hb : e.Brings key chunks i datagram) (hk : e.table.pending.find? key = none)
    (hr : e.table.size < e.table.maxPending) (now : Nat) (stamp : UInt64) :
    (e.receive datagram now stamp).1 = .pending ∧
      (e.receive datagram now stamp).2.table.Holds key chunks now fun j => j = i := by
  obtain ⟨p, hp, rfl, hc, rfl⟩ := hb
  have hf := no_fault hp hc hn
  obtain ⟨ha, ht⟩ := (Reassembly.Table.insertion e.table p now).holds_of_open h hf hc h2 hl hk hr
  rw [receive_of_fragment hp, receive_table, ha, hp]
  exact ⟨rfl, ht⟩

theorem Brings.adds (hb : e.Brings key chunks i datagram) (hh : e.table.Holds key chunks start came)
    (hm : ∃ j < chunks.length, j ≠ i ∧ ¬ came j) (now : Nat) (stamp : UInt64) :
    (e.receive datagram now stamp).1 = .pending ∧
      (e.receive datagram now stamp).2.table.Holds key chunks start fun j => came j ∨ j = i := by
  obtain ⟨p, hp, rfl, hc, rfl⟩ := hb
  have hf := no_fault hp hc hn
  obtain ⟨ha, ht⟩ := (Reassembly.Table.insertion e.table p now).holds_of_missing h hf hc h2 hl hh hm
  rw [receive_of_fragment hp, receive_table, ha, hp]
  exact ⟨rfl, ht⟩

theorem Brings.completes (hb : e.Brings key chunks i datagram) (hh : e.table.Holds key chunks start came)
    (hi : ¬ came i) (hm : ∀ j < chunks.length, j ≠ i → came j) (now : Nat) (stamp : UInt64) :
    (e.receive datagram now stamp).1 = .message key chunks.flatten ∧
      (e.receive datagram now stamp).2.table = e.table.drop key := by
  obtain ⟨p, hp, rfl, hc, rfl⟩ := hb
  have hf := no_fault hp hc hn
  obtain ⟨ha, ht⟩ := (Reassembly.Table.insertion e.table p now).delivers h hf hc h2 hl hh hi hm
  rw [receive_of_fragment hp, receive_table, ha, hp]
  exact ⟨rfl, ht⟩

end Receiving
end LocalPlay.Endpoint
