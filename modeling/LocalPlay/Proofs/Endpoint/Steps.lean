import LocalPlay.Proofs.Endpoint.Reception

/-! The steps of an endpoint, seen from its parts: its name and settings never change, its sequencer stays or
goes on by one, and its table does what the table's own steps do. -/
namespace LocalPlay.Endpoint

theorem step_send (e : Endpoint) (kind : PacketKind) (dest : UInt8) (payload : Bytes) (stamp : UInt64) :
    e.step (.send kind dest payload stamp) =
      (.sent (e.send kind dest payload stamp).1, (e.send kind dest payload stamp).2) := by
  simp only [step]

theorem step_sendError (e : Endpoint) (dest : UInt8) (code : ErrorCode) (message : String) (stamp : UInt64) :
    e.step (.sendError dest code message stamp) =
      (.errorSent (e.sendError dest code message stamp).1, (e.sendError dest code message stamp).2) := by
  simp only [step]

theorem step_receive (e : Endpoint) (datagram : Bytes) (now : Nat) (stamp : UInt64) :
    e.step (.receive datagram now stamp) =
      (.received (e.receive datagram now stamp).1, (e.receive datagram now stamp).2) := by
  simp only [step]

/-- The step of the table that a step of the endpoint amounts to, if it touches the table. -/
def tableOp? (e : Endpoint) : Op → Option Reassembly.Op
  | .receive datagram now _ => (e.fragmentIn? datagram).map (.insert · now)
  | .sweep now => some (.sweep now)
  | _ => none

/-- The same node of the same session, with the same settings. -/
def SameNode (e e' : Endpoint) : Prop :=
  e'.session = e.session ∧ e'.node = e.node ∧ e'.settings = e.settings

theorem SameNode.trans {e e' e'' : Endpoint} (h : e.SameNode e') (h' : e'.SameNode e'') : e.SameNode e'' :=
  ⟨h'.1.trans h.1, h'.2.1.trans h.2.1, h'.2.2.trans h.2.2⟩

theorem SameNode.chunkSize_eq {e e' : Endpoint} (h : e.SameNode e') : e'.chunkSize = e.chunkSize := by
  rw [chunkSize, h.2.2, chunkSize]

theorem step_advances (e : Endpoint) {op : Op} (h : ∀ value, op ≠ .setSequence value) :
    ∃ t, { e with table := t }.Advances (e.step op).2 := by
  cases op with
  | send kind dest payload stamp =>
    rw [step_send]
    exact ⟨e.table, e.send_advances kind dest payload stamp⟩
  | sendError dest code message stamp =>
    simp only [step_sendError, sendError]
    exact ⟨e.table, e.sendErrorIn_advances e.session dest code message stamp⟩
  | receive datagram now stamp =>
    rw [step_receive]
    exact (e.receiving datagram now stamp).advances
  | sweep now => exact ⟨(e.table.sweep now).2, .inl rfl⟩
  | setSequence value => exact absurd rfl (h value)
  | nextSequence => exact ⟨e.table, .inr rfl⟩

theorem step_sameNode (e : Endpoint) (op : Op) : e.SameNode (e.step op).2 := by
  by_cases h : ∀ value, op ≠ .setSequence value
  · obtain ⟨t, ht⟩ := e.step_advances h
    rcases ht with he | he <;> rw [he] <;> exact ⟨rfl, rfl, rfl⟩
  · push Not at h
    obtain ⟨value, rfl⟩ := h
    exact ⟨rfl, rfl, rfl⟩

theorem run_sameNode (e : Endpoint) (ops : List Op) : e.SameNode (e.run ops).2 := by
  rw [run_eq]
  exact (Machine.run_invariant e.SameNode (fun _ _ => True)
    (fun op _ s hs => ⟨trivial, hs.trans (s.step_sameNode op)⟩) ⟨rfl, rfl, rfl⟩).2

theorem step_sequencer (e : Endpoint) {op : Op} (h : ∀ value, op ≠ .setSequence value) :
    (e.step op).2.sequencer = e.sequencer ∨ (e.step op).2.sequencer = e.sequencer.next.2 := by
  obtain ⟨t, ht⟩ := e.step_advances h
  rcases ht with he | he
  · exact .inl (by rw [he])
  · exact .inr (by rw [he]; rfl)

theorem step_table (e : Endpoint) (op : Op) :
    (e.step op).2.table =
      match e.tableOp? op with
      | some o => (e.table.step o).2
      | none => e.table := by
  cases op with
  | send kind dest payload stamp =>
    simp only [step_send, tableOp?]
    exact (e.send_advances kind dest payload stamp).table_eq
  | sendError dest code message stamp =>
    simp only [step_sendError, sendError, tableOp?]
    exact (e.sendErrorIn_advances e.session dest code message stamp).table_eq
  | receive datagram now stamp =>
    rw [step_receive, receive_table]
    cases hf : e.fragmentIn? datagram with
    | none => simp [tableOp?, hf]
    | some p => simp [tableOp?, hf, Reassembly.Table.step]
  | sweep | setSequence | nextSequence => rfl

theorem step_table_of_none {e : Endpoint} {op : Op} (h : e.tableOp? op = none) : (e.step op).2.table = e.table := by
  rw [step_table, h]

theorem fragmentIn?_congr {e e' : Endpoint} (h : e.SameNode e') (datagram : Bytes) :
    e'.fragmentIn? datagram = e.fragmentIn? datagram := by
  have hf (p : Packet) : e'.fault? p = e.fault? p := by simp only [fault?, h.1, h.2.1]
  simp only [fragmentIn?, hf]

theorem wellFormed_step {e : Endpoint} (h : e.table.WellFormed) (op : Op) : (e.step op).2.table.WellFormed := by
  rw [step_table]
  split
  · exact h.step _
  · exact h

theorem sameLimits_step (e : Endpoint) (op : Op) : e.table.SameLimits (e.step op).2.table := by
  rw [step_table]
  split
  · exact Reassembly.Table.sameLimits_step _ _
  · exact .refl e.table

/-- An endpoint with a name and settings, and a table that is well-formed and has the limits of the settings. -/
structure Sound (session : UInt32) (node : UInt8) (settings : Settings) (e : Endpoint) : Prop where
  session_eq : e.session = session
  node_eq : e.node = node
  settings_eq : e.settings = settings
  wellFormed : e.table.WellFormed
  limits : (Reassembly.Table.ofSettings settings).SameLimits e.table

variable {session : UInt32} {node : UInt8} {settings : Settings} {e : Endpoint}

theorem Sound.of_new (session : UInt32) (node : UInt8) (settings : Settings) :
    Sound session node settings (new session node settings) where
  session_eq := rfl
  node_eq := rfl
  settings_eq := rfl
  wellFormed := .of_new ..
  limits := .refl _

theorem Sound.step (h : Sound session node settings e) (op : Op) : Sound session node settings (e.step op).2 where
  session_eq := (e.step_sameNode op).1.trans h.session_eq
  node_eq := (e.step_sameNode op).2.1.trans h.node_eq
  settings_eq := (e.step_sameNode op).2.2.trans h.settings_eq
  wellFormed := wellFormed_step h.wellFormed op
  limits := h.limits.trans (e.sameLimits_step op)

theorem Sound.run (h : Sound session node settings e) (ops : List Op) :
    Sound session node settings (e.run ops).2 := by
  rw [run_eq]
  exact (Machine.run_invariant _ (fun _ _ => True) (fun op _ _ hs => ⟨trivial, hs.step op⟩) h).2

/-- An endpoint that a run leaves. -/
def Reachable (e : Endpoint) : Prop := ∃ session node settings ops, e = ((new session node settings).run ops).2

theorem Reachable.sound (h : e.Reachable) : Sound e.session e.node e.settings e := by
  obtain ⟨session, node, settings, ops, rfl⟩ := h
  have hs := (Sound.of_new session node settings).run ops
  rwa [hs.session_eq, hs.node_eq, hs.settings_eq]

end LocalPlay.Endpoint
