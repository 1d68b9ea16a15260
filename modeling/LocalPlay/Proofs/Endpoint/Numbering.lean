import Mathlib.Data.List.Nodup
import LocalPlay.Proofs.Endpoint.Emission

/-! Which step takes which sequence number. A run that never sets the sequencer takes consecutive numbers, so of
2^32 no two are the same, and each packet of a payload that it puts on the network bears the number of its step. -/
namespace LocalPlay.Endpoint

/-- The number that a step takes, if it takes one. -/
def taken? (e : Endpoint) (op : Op) : Option UInt32 :=
  if (e.step op).2.sequencer = e.sequencer then none else some e.sequencer.peek

/-- The steps of a run that take a number, with the number of each. -/
def numbered (e : Endpoint) : List Op → List (UInt32 × Op)
  | [] => []
  | op :: rest => (e.taken? op).toList.map (·, op) ++ (e.step op).2.numbered rest

/-- The steps of a run that take a given number. -/
def takers (e : Endpoint) (ops : List Op) (number : UInt32) : List Op :=
  ((e.numbered ops).filter (·.1 = number)).map Prod.snd

private theorem next_ne (s : Sequencer) : s.next.2 ≠ s := by
  intro h
  have hl : s.last + 1 = s.last := congrArg Sequencer.last h
  grind

theorem taken?_of_next {e : Endpoint} {op : Op} (h : (e.step op).2.sequencer = e.sequencer.next.2) :
    e.taken? op = some e.sequencer.peek := by
  rw [taken?, h, if_neg (next_ne e.sequencer)]

theorem numbered_append (e : Endpoint) (ops rest : List Op) :
    e.numbered (ops ++ rest) = e.numbered ops ++ (e.run ops).2.numbered rest := by
  induction ops generalizing e with
  | nil => rfl
  | cons op ops ih => simp only [List.cons_append, numbered, run, ih, List.append_assoc]

/-- A payload that is sent takes the next number. -/
theorem numbered_of_send {e e' : Endpoint} {kind : PacketKind} {dest : UInt8} {payload : Bytes} {stamp : UInt64}
    {datagrams : List Bytes} (h : e.send kind dest payload stamp = (.ok datagrams, e')) (rest : List Op) :
    e.numbered (.send kind dest payload stamp :: rest) =
      (e.sequencer.peek, .send kind dest payload stamp) :: e'.numbered rest := by
  obtain ⟨-, -, rfl⟩ := send_eq_ok_iff.mp h
  rw [numbered, taken?_of_next (by rw [step_send, h]; rfl), step_send, h]
  rfl

/-- A run takes the numbers from the next one on. -/
theorem map_fst_numbered (e : Endpoint) {ops : List Op} (h : ∀ value, .setSequence value ∉ ops) :
    (e.numbered ops).map Prod.fst =
      (List.range (e.numbered ops).length).map fun i => e.sequencer.peek + UInt32.ofNat i := by
  induction ops generalizing e with
  | nil => rfl
  | cons op rest ih =>
    have hr := ih (e.step op).2 fun value hv => h value (List.mem_cons_of_mem op hv)
    have hop : ∀ value, op ≠ .setSequence value := fun value hv => h value (hv ▸ List.mem_cons_self)
    rcases e.step_sequencer hop with hs | hs
    · rw [hs] at hr
      simpa [numbered, taken?, hs] using hr
    · rw [hs] at hr
      simp only [numbered, taken?_of_next hs, Option.toList_some, List.map_cons, List.map_nil, List.cons_append,
        List.nil_append, List.length_cons, List.range_succ_eq_map, hr, List.map_map]
      congr 1
      · simp
      · apply List.map_congr_left
        intro i _
        rw [Sequencer.peek_next, Function.comp_apply, Nat.succ_eq_add_one, UInt32.ofNat_add, UInt32.add_assoc,
          UInt32.add_comm 1]
        rfl

theorem nodup_numbered (e : Endpoint) {ops : List Op} (h : ∀ value, .setSequence value ∉ ops)
    (hn : (e.numbered ops).length ≤ UInt32.size) : ((e.numbered ops).map Prod.fst).Nodup := by
  rw [map_fst_numbered e h]
  refine List.nodup_range.map_on ?_
  intro i hi j hj hij
  rw [List.mem_range] at hi hj
  exact Sequencer.add_ofNat_injective (by omega) (by omega) hij

/-- Of 2^32 numbers, each is taken by one step. -/
theorem takers_eq_singleton (e : Endpoint) {ops : List Op} (h : ∀ value, .setSequence value ∉ ops)
    (hn : (e.numbered ops).length ≤ UInt32.size) {number : UInt32} {op : Op} (ho : (number, op) ∈ e.numbered ops) :
    e.takers ops number = [op] := by
  rw [takers, KeyedList.filter_eq_singleton (e.nodup_numbered h hn) ho]
  rfl

/-- The packet is one of a payload that the run sends. -/
def Sent (e : Endpoint) (ops : List Op) (kind : PacketKind) (payload : Bytes) (p : Packet) : Prop :=
  p.header.session = e.session ∧ p.header.source = e.node ∧ p.Conveys e.chunkSize kind payload ∧
    ∃ stamp, (p.header.sequence, .send kind p.header.dest payload stamp) ∈ e.numbered ops

/-- All that a run puts on the network is a packet of a payload that it sends, or an error report. -/
theorem emitted_run {e : Endpoint} {ops : List Op} {datagram : Bytes}
    (h : datagram ∈ (e.run ops).1.flatMap Outcome.emitted) :
    (∃ kind payload p, Packet.deserialize datagram = .ok p ∧ e.Sent ops kind payload p) ∨ IsOf .error datagram := by
  induction ops generalizing e with
  | nil => simp [run] at h
  | cons op rest ih =>
    have hrun : (e.run (op :: rest)).1 = (e.step op).1 :: ((e.step op).2.run rest).1 := rfl
    rw [hrun, List.flatMap_cons, List.mem_append] at h
    rcases h with h | h
    · rcases emitted_step h with ⟨kind, dest, payload, stamp, rfl, hs, he, p, hp, rfl⟩ | h
      · have hk := ChunkSize.key_of_mem_packets hp
        refine .inl ⟨kind, payload, p, ChunkSize.deserialize_of_mem_packets hp, congrArg (·.session) hk,
          congrArg (·.source) hk, hs.conveys hp, stamp, ?_⟩
        have hd : p.header.dest = dest := congrArg (·.dest) hk
        have hn : p.header.sequence = e.sequencer.peek := congrArg (·.sequence) hk
        rw [numbered, taken?_of_next (by rw [he]; rfl), hd, hn]
        exact List.mem_append_left _ List.mem_cons_self
      · exact .inr h
    · rcases ih h with ⟨kind, payload, p, hd, h1, h2, h3, stamp, hm⟩ | h
      · have hsame := e.step_sameNode op
        exact .inl ⟨kind, payload, p, hd, h1.trans hsame.1, h2.trans hsame.2.1, hsame.chunkSize_eq ▸ h3, stamp,
          List.mem_append_right _ hm⟩
      · exact .inr h

/-- A packet on the network that is no error report bears a number that the run takes. -/
theorem sequence_mem_numbered {e : Endpoint} {ops : List Op} {datagram : Bytes} {p : Packet}
    (h : datagram ∈ (e.run ops).1.flatMap Outcome.emitted) (hd : Packet.deserialize datagram = .ok p)
    (hk : p.header.kind? ≠ some .error) : p.header.sequence ∈ (e.numbered ops).map Prod.fst := by
  rcases emitted_run h with ⟨kind, payload, q, hq, -, -, -, stamp, hm⟩ | ⟨q, hq, hk'⟩
  · obtain rfl := Except.ok.inj (hd.symm.trans hq)
    exact List.mem_map_of_mem hm
  · obtain rfl := Except.ok.inj (hd.symm.trans hq)
    exact absurd hk' hk

end LocalPlay.Endpoint
