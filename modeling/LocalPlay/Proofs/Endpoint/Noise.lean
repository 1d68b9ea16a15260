import LocalPlay.Proofs.Endpoint.Emission

/-! Noise cannot disturb the gathering of messages. All that a datagram which brings no fragment does to an endpoint is
to take a sequence number for its answer; so without it every other step has the same answer, up to the number of an
error report, and leaves the same table. -/
namespace LocalPlay

/-- A datagram with the sequence number blanked out, which stands in the bytes 12 to 15. -/
def unnumbered (datagram : Bytes) : Bytes := datagram.take 12 ++ [0, 0, 0, 0] ++ datagram.drop 16

/-- Packets that differ in their numbers alone have the same bytes but for those of the number. -/
theorem Packet.unnumbered_datagram (p : Packet) (number : UInt32) :
    unnumbered ({ p with header := { p.header with sequence := number } } : Packet).datagram =
      unnumbered p.datagram := by
  simp [unnumbered, datagram, Header.encode, List.take_append, List.drop_append, List.take_of_length_le,
    List.drop_eq_nil_of_le, Header.isFragment]

namespace Endpoint

/-- The datagram cannot be read, or its packet is not valid, of another session, for another node or no fragment. -/
def Noise (session : UInt32) (node : UInt8) (datagram : Bytes) : Prop :=
  ∀ p, Packet.deserialize datagram = .ok p →
    p.check ≠ .ok () ∨ p.header.session ≠ session ∨ (p.header.dest ≠ node ∧ p.header.dest ≠ broadcastNode) ∨
      p.header.kind? ≠ some .fragment

/-- Noise is what brings no fragment. -/
theorem fragmentIn?_eq_none_iff {e : Endpoint} {datagram : Bytes} :
    e.fragmentIn? datagram = none ↔ Noise e.session e.node datagram := by
  rw [Option.eq_none_iff_forall_ne_some]
  apply forall_congr'
  intro p
  rw [ne_eq, fragmentIn?_eq_some_iff, fault?_eq_none_iff]
  tauto

/-- The answer with the number of an error report blanked out. -/
def Outcome.unnumbered : Outcome → Outcome
  | received (.rejected reason answer) => received (.rejected reason (answer.map LocalPlay.unnumbered))
  | outcome => outcome

/-- The endpoints differ in their sequencers at most. -/
def SameButNumbers (e e' : Endpoint) : Prop := e' = { e with sequencer := e'.sequencer }

section
variable {e e' : Endpoint}

theorem SameButNumbers.mk_sequencer (e : Endpoint) (s : Sequencer) : e.SameButNumbers { e with sequencer := s } := rfl

theorem SameButNumbers.with_table (h : e.SameButNumbers e') (t : Reassembly.Table) :
    { e with table := t }.SameButNumbers { e' with table := t } := by
  rw [h]
  rfl

theorem SameButNumbers.nextSequence (h : e.SameButNumbers e') : e.nextSequence.2.SameButNumbers e'.nextSequence.2 := by
  rw [h]
  rfl

theorem SameButNumbers.unnumbered_errorPacket (h : e.SameButNumbers e') (session : UInt32) (dest : UInt8)
    (code : ErrorCode) (message : String) (stamp : UInt64) :
    unnumbered (e'.errorPacket session dest code message stamp).datagram =
      unnumbered (e.errorPacket session dest code message stamp).datagram := by
  rw [h]
  exact (e.errorPacket session dest code message stamp).unnumbered_datagram e'.sequencer.peek

/-- A refusal is answered alike, up to the number. -/
theorem SameButNumbers.reject (h : e.SameButNumbers e') (header : Header) (reason : SessionError) (stamp : UInt64) :
    (Outcome.received (e'.reject header reason stamp).1).unnumbered =
        (Outcome.received (e.reject header reason stamp).1).unnumbered ∧
      (e.reject header reason stamp).2.SameButNumbers (e'.reject header reason stamp).2 := by
  have hs : e'.settings = e.settings := by rw [h]
  rw [reject_eq, reject_eq, reply_eq, reply_eq, hs]
  split
  · simp only [Outcome.unnumbered, Option.map_some, h.unnumbered_errorPacket]
    exact ⟨trivial, h.nextSequence⟩
  · exact ⟨rfl, h⟩

theorem SameButNumbers.accept (h : e.SameButNumbers e') (p : Packet) (now : Nat) (stamp : UInt64) :
    (Outcome.received (e'.accept p now stamp).1).unnumbered =
        (Outcome.received (e.accept p now stamp).1).unnumbered ∧
      (e.accept p now stamp).2.SameButNumbers (e'.accept p now stamp).2 := by
  have ht : e'.table = e.table := by rw [h]
  simp only [Endpoint.accept, ht]
  split
  · rcases e.table.insert p now with ⟨⟨reason⟩ | ⟨_ | data⟩, t⟩
    · exact (h.with_table t).reject p.header reason stamp
    · exact ⟨rfl, h.with_table t⟩
    · exact ⟨rfl, h.with_table t⟩
  · cases ErrorReport.ofPacket p with
    | error cause => exact h.reject p.header (.protocol cause) stamp
    | ok report => exact ⟨rfl, h⟩
  · exact ⟨rfl, h⟩

theorem SameButNumbers.receive (h : e.SameButNumbers e') (datagram : Bytes) (now : Nat) (stamp : UInt64) :
    (Outcome.received (e'.receive datagram now stamp).1).unnumbered =
        (Outcome.received (e.receive datagram now stamp).1).unnumbered ∧
      (e.receive datagram now stamp).2.SameButNumbers (e'.receive datagram now stamp).2 := by
  have hf (p : Packet) : e'.fault? p = e.fault? p := by rw [h]; rfl
  simp only [Endpoint.receive, hf]
  cases Packet.deserialize datagram with
  | error cause => exact ⟨rfl, h⟩
  | ok p =>
    dsimp only
    cases e.fault? p with
    | some reason => exact h.reject p.header reason stamp
    | none => exact h.accept p now stamp

/-- A step at which something comes in: a datagram, or the time. -/
def Op.isInbound : Op → Bool
  | .receive .. | .sweep _ => true
  | _ => false

/-- A step that receives noise. -/
def Op.IsNoise (session : UInt32) (node : UInt8) : Op → Prop
  | .receive datagram _ _ => Noise session node datagram
  | _ => False

theorem SameButNumbers.step (h : e.SameButNumbers e') {op : Op} (hop : op.isInbound = true) :
    (e'.step op).1.unnumbered = (e.step op).1.unnumbered ∧ (e.step op).2.SameButNumbers (e'.step op).2 := by
  cases op with
  | receive datagram now stamp =>
    rw [step_receive, step_receive]
    exact h.receive datagram now stamp
  | sweep now =>
    have ht : e'.table = e.table := by rw [h]
    simp only [Endpoint.step, Endpoint.sweep, ht]
    exact ⟨trivial, h.with_table _⟩
  | send | sendError | setSequence | nextSequence => cases hop

/-- Noise takes a number at most. -/
theorem sameButNumbers_of_noise {op : Op} (hop : op.IsNoise e.session e.node) :
    e.SameButNumbers (e.step op).2 := by
  cases op with
  | receive datagram now stamp =>
    have ht := e.receive_table datagram now stamp
    rw [fragmentIn?_eq_none_iff.mpr hop] at ht
    obtain ⟨t, ha⟩ := (e.receiving datagram now stamp).advances
    rw [ha.table_eq] at ht
    subst ht
    rw [step_receive]
    rcases ha with ha | ha <;> rw [ha] <;> rfl
  | send | sendError | sweep | setSequence | nextSequence => cases hop

theorem SameButNumbers.skip (h : e.SameButNumbers e') {op : Op} (hop : op.IsNoise e.session e.node) :
    (e.step op).2.SameButNumbers e' := by
  have hs := sameButNumbers_of_noise hop
  rw [SameButNumbers, hs]
  exact h

end

/-- A step with its answer and the table that it leaves. -/
def watch (e : Endpoint) (op : Op) : (Outcome × Reassembly.Table) × Endpoint :=
  (((e.step op).1, (e.step op).2.table), (e.step op).2)

/-- The answers of a run, each with the table behind it. -/
def trace (e : Endpoint) (ops : List Op) : List (Outcome × Reassembly.Table) := (Machine.run watch e ops).1

/-- A step at which something comes in, with a mark: false if the step is to be left out, which goes for noise alone. -/
def Marked (session : UInt32) (node : UInt8) (x : Op × Bool) : Prop :=
  x.1.isInbound = true ∧ (x.2 = false → x.1.IsNoise session node)

/-- The endpoint of a run with noise, and that of the run without, after the same step. -/
structure Abreast (session : UInt32) (node : UInt8) (e e' : Endpoint) : Prop where
  session_eq : e.session = session
  node_eq : e.node = node
  same : e.SameButNumbers e'

section
variable {session : UInt32} {node : UInt8} {e e' : Endpoint} {op : Op}

theorem Abreast.keep (h : Abreast session node e e') (hop : op.isInbound = true) :
    (e.watch op).1.map Outcome.unnumbered id = (e'.watch op).1.map Outcome.unnumbered id ∧
      Abreast session node (e.watch op).2 (e'.watch op).2 := by
  obtain ⟨ha, hs⟩ := h.same.step hop
  have ht : (e'.step op).2.table = (e.step op).2.table := by rw [hs]
  obtain ⟨hsession, hnode, -⟩ := e.step_sameNode op
  refine ⟨?_, hsession.trans h.session_eq, hnode.trans h.node_eq, hs⟩
  simp only [watch, Prod.map_apply, ha, ht]

theorem Abreast.skip (h : Abreast session node e e') (hop : op.IsNoise session node) :
    Abreast session node (e.watch op).2 e' := by
  obtain ⟨hsession, hnode, -⟩ := e.step_sameNode op
  refine ⟨hsession.trans h.session_eq, hnode.trans h.node_eq, h.same.skip ?_⟩
  rwa [h.session_eq, h.node_eq]

end

/-- Let a run receive datagrams and sweep, and let any part of the noise in it be left out. The steps that stay get the
same answers, up to the numbers of error reports, and each leaves the same table. What is no noise touches no entry but
that of its own key. -/
theorem run_undisturbed {session : UInt32} {node : UInt8} {settings : Settings} {ops : List (Op × Bool)}
    (h : ∀ x ∈ ops, Marked session node x) :
    let full := (new session node settings).trace (ops.map Prod.fst)
    let quiet := (new session node settings).trace ((ops.filter Prod.snd).map Prod.fst)
    ((ops.zip full).filter (·.1.2)).map (Prod.map Outcome.unnumbered id ·.2) =
        quiet.map (Prod.map Outcome.unnumbered id) ∧
      ∀ (e : Endpoint) (datagram : Bytes) (now : Nat) (stamp : UInt64) (p : Packet),
        e.fragmentIn? datagram = some p → ∀ key ≠ p.header.key,
          (e.receive datagram now stamp).2.table.pending.find? key = e.table.pending.find? key := by
  intro full quiet
  constructor
  · have hmarked : List.Forall₂ (fun x _ => Marked session node x) ops
        (Machine.run (fun e (x : Op × Bool) => watch e x.1) (new session node settings) ops).1 :=
      (Machine.run_invariant (fun _ => True) _ (fun x hx _ _ => ⟨h x hx, trivial⟩) trivial).1
    have hkeep : ∀ (x : Op × Bool) e e', x.2 = true → Abreast session node e e' → Marked session node x →
        (watch e x.1).1.map Outcome.unnumbered id = (watch e' x.1).1.map Outcome.unnumbered id ∧
          Abreast session node (watch e x.1).2 (watch e' x.1).2 :=
      fun _ _ _ _ ha hx => ha.keep hx.1
    have hskip : ∀ (x : Op × Bool) e e', x.2 = false → Abreast session node e e' → Marked session node x →
        Abreast session node (watch e x.1).2 e' :=
      fun _ _ _ hs ha hx => ha.skip (hx.2 hs)
    obtain ⟨hv, -⟩ := Machine.run_filter Prod.snd (Prod.map Outcome.unnumbered id) (Abreast session node) _ hkeep hskip
      ⟨rfl, rfl, .mk_sequencer _ _⟩ hmarked
    simp only [Machine.run_map] at hv
    exact hv
  · intro e datagram now stamp p hp key hne
    rw [receive_table, hp]
    exact (Reassembly.Table.insertion e.table p now).find?_of_ne hne

/-- One of two fragments from node 1 to node 2. -/
def share (i : Nat) (chunk : Bytes) : Bytes := (Fragment.packet ⟨⟨7, 1, 2⟩, 0⟩ 0 2 i chunk).datagram

/-- A packet of another session. -/
def foreign : Bytes := (Packet.whole .data ⟨⟨9, 1, 2⟩, 0⟩ 0 [1]).datagram

/-- A message between noise. Some of it is to be left out; a packet that is answered stays. -/
def noisy : List (Op × Bool) :=
  [(.receive foreign 0 0, false), (.receive (share 1 [3]) 1 0, true), (.receive [9] 2 0, false),
    (.receive foreign 3 0, true), (.sweep 4, true), (.receive (share 0 [1, 2]) 5 0, true)]

theorem run_undisturbed_noisy :
    let full := (new 7 2 {}).trace (noisy.map Prod.fst)
    let quiet := (new 7 2 {}).trace ((noisy.filter Prod.snd).map Prod.fst)
    (∀ x ∈ noisy, Marked 7 2 x) ∧
      ((noisy.zip full).filter (·.1.2)).map (Prod.map Outcome.unnumbered id ·.2) =
        quiet.map (Prod.map Outcome.unnumbered id) ∧
      (new 7 2 {}).fragmentIn? (share 0 [1, 2]) = some (Fragment.packet ⟨⟨7, 1, 2⟩, 0⟩ 0 2 0 [1, 2]) ∧
      ((new 7 2 {}).receive (share 0 [1, 2]) 0 0).2.table.pending.find? ⟨⟨7, 1, 2⟩, 1⟩ = none := by
  intro full quiet
  have hforeign : Noise 7 2 foreign := fragmentIn?_eq_none_iff.mp
    (show (new 7 2 {}).fragmentIn? foreign = none by decide +kernel)
  have hgarbage : Noise 7 2 [9] := fragmentIn?_eq_none_iff.mp
    (show (new 7 2 {}).fragmentIn? [9] = none by decide +kernel)
  have h : ∀ x ∈ noisy, Marked 7 2 x := by
    simp [noisy, Marked, Op.isInbound, Op.IsNoise, hforeign, hgarbage]
  have hp : (new 7 2 {}).fragmentIn? (share 0 [1, 2]) = some (Fragment.packet ⟨⟨7, 1, 2⟩, 0⟩ 0 2 0 [1, 2]) := by
    decide +kernel
  obtain ⟨hv, hkeys⟩ := run_undisturbed h
  exact ⟨h, hv, hp, hkeys (new 7 2 {}) _ 0 0 _ hp ⟨⟨7, 1, 2⟩, 1⟩ (by decide)⟩

end Endpoint
end LocalPlay
