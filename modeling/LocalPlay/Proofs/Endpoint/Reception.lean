import LocalPlay.Proofs.Reassembly.Invariant

/-! What an endpoint makes of a datagram, way by way, and what each step does to its table: a step acts on it as
the table's own steps do, or not at all. -/
namespace LocalPlay

theorem Header.kind?_eq_some_iff {h : Header} {kind : PacketKind} :
    h.kind? = some kind ↔ h.kindCode = kind.code :=
  PacketKind.ofCode?_eq_some_iff

namespace Endpoint

theorem reject_eq (e : Endpoint) (h : Header) (reason : SessionError) (stamp : UInt64) :
    e.reject h reason stamp = (.rejected reason (e.reply h reason stamp).1, (e.reply h reason stamp).2) := by
  simp only [reject]

/-- A packet is taken if it passes the check and is meant for the session, and for the node or for all. -/
theorem fault?_eq_none_iff {e : Endpoint} {p : Packet} :
    e.fault? p = none ↔
      p.check = .ok () ∧ p.header.session = e.session ∧ (p.header.dest = e.node ∨ p.header.dest = broadcastNode) := by
  simp only [fault?]
  cases hc : p.check with
  | error cause => simp
  | ok => grind

inductive Receiving (e : Endpoint) (datagram : Bytes) (now : Nat) (stamp : UInt64) : Reception → Endpoint → Prop where
  | unreadable {cause : ProtocolError} (hd : Packet.deserialize datagram = .error cause) :
      Receiving e datagram now stamp (.rejected (.protocol cause) none) e
  | refused {p : Packet} {reason : SessionError} (hd : Packet.deserialize datagram = .ok p)
      (hf : e.fault? p = some reason) :
      Receiving e datagram now stamp (.rejected reason (e.reply p.header reason stamp).1)
        (e.reply p.header reason stamp).2
  | badReport {p : Packet} {cause : ProtocolError} (hd : Packet.deserialize datagram = .ok p)
      (hf : e.fault? p = none) (hk : p.header.kind? = some .error) (hr : ErrorReport.ofPacket p = .error cause) :
      Receiving e datagram now stamp (.rejected (.protocol cause) (e.reply p.header (.protocol cause) stamp).1)
        (e.reply p.header (.protocol cause) stamp).2
  | report {p : Packet} {report : ErrorReport} (hd : Packet.deserialize datagram = .ok p)
      (hf : e.fault? p = none) (hk : p.header.kind? = some .error) (hr : ErrorReport.ofPacket p = .ok report) :
      Receiving e datagram now stamp (.peerError p.header report) e
  | delivered {p : Packet} (hd : Packet.deserialize datagram = .ok p) (hf : e.fault? p = none)
      (hk : p.header.kind? ≠ some .fragment) (hr : p.header.kind? ≠ some .error) :
      Receiving e datagram now stamp (.packet p) e
  | completed {p : Packet} {data : Bytes} (hd : Packet.deserialize datagram = .ok p) (hf : e.fault? p = none)
      (hk : p.header.kind? = some .fragment) (hi : (e.table.insert p now).1 = .ok (some data)) :
      Receiving e datagram now stamp (.message p.header.key data) { e with table := (e.table.insert p now).2 }
  | stored {p : Packet} (hd : Packet.deserialize datagram = .ok p) (hf : e.fault? p = none)
      (hk : p.header.kind? = some .fragment) (hi : (e.table.insert p now).1 = .ok none) :
      Receiving e datagram now stamp .pending { e with table := (e.table.insert p now).2 }
  /-- The table refuses a fragment. -/
  | dropped {p : Packet} {reason : SessionError} (hd : Packet.deserialize datagram = .ok p)
      (hf : e.fault? p = none) (hk : p.header.kind? = some .fragment)
      (hi : (e.table.insert p now).1 = .error reason) :
      Receiving e datagram now stamp
        (.rejected reason ({ e with table := (e.table.insert p now).2 }.reply p.header reason stamp).1)
        ({ e with table := (e.table.insert p now).2 }.reply p.header reason stamp).2

private theorem receiving_accept {e : Endpoint} {datagram : Bytes} {p : Packet} (now : Nat) (stamp : UInt64)
    (hd : Packet.deserialize datagram = .ok p) (hf : e.fault? p = none) :
    Receiving e datagram now stamp (e.accept p now stamp).1 (e.accept p now stamp).2 := by
  simp only [accept]
  split
  · rename_i hk
    split
    · rename_i hi
      have hr : Receiving e datagram now stamp _ _ := .completed hd hf hk (congrArg Prod.fst hi)
      rwa [hi] at hr
    · rename_i hi
      have hr : Receiving e datagram now stamp _ _ := .stored hd hf hk (congrArg Prod.fst hi)
      rwa [hi] at hr
    · rename_i hi
      have hr : Receiving e datagram now stamp _ _ := .dropped hd hf hk (congrArg Prod.fst hi)
      rw [hi] at hr
      rw [reject_eq]
      exact hr
  · rename_i hk
    split
    · exact .report hd hf hk ‹_›
    · rw [reject_eq]
      exact .badReport hd hf hk ‹_›
  · exact .delivered hd hf ‹_› ‹_›

/-- An endpoint receives a datagram in one of these ways. -/
theorem receiving (e : Endpoint) (datagram : Bytes) (now : Nat) (stamp : UInt64) :
    Receiving e datagram now stamp (e.receive datagram now stamp).1 (e.receive datagram now stamp).2 := by
  simp only [receive]
  cases hd : Packet.deserialize datagram with
  | error cause => exact .unreadable hd
  | ok p =>
    cases hf : e.fault? p with
    | some reason =>
      simp only [hf, reject_eq]
      exact .refused hd hf
    | none =>
      simp only [hf]
      exact receiving_accept now stamp hd hf

/-- The fragment that a datagram brings, if it is a valid one of the endpoint's session and addressed to it. -/
def fragmentIn? (e : Endpoint) (datagram : Bytes) : Option Packet :=
  match Packet.deserialize datagram with
  | .ok p => if e.fault? p = none ∧ p.header.kind? = some .fragment then some p else none
  | .error _ => none

theorem fragmentIn?_eq_some_iff {e : Endpoint} {datagram : Bytes} {p : Packet} :
    e.fragmentIn? datagram = some p ↔
      Packet.deserialize datagram = .ok p ∧ e.fault? p = none ∧ p.header.kind? = some .fragment := by
  simp only [fragmentIn?]
  cases hd : Packet.deserialize datagram with
  | error cause => simp
  | ok q =>
    simp only [Option.ite_none_right_eq_some, Option.some.injEq, Except.ok.injEq]
    constructor
    · rintro ⟨⟨hf, hk⟩, rfl⟩
      exact ⟨rfl, hf, hk⟩
    · rintro ⟨rfl, hf, hk⟩
      exact ⟨⟨hf, hk⟩, rfl⟩

/-- An endpoint that has at most taken a sequence number. -/
def Advances (e e' : Endpoint) : Prop := e' = e ∨ e' = e.nextSequence.2

theorem send_advances (e : Endpoint) (kind : PacketKind) (dest : UInt8) (payload : Bytes) (stamp : UInt64) :
    e.Advances (e.send kind dest payload stamp).2 := by
  simp only [send]
  split
  · exact .inl rfl
  split
  · exact .inl rfl
  split
  · exact .inl rfl
  · exact .inr rfl

theorem sendErrorIn_advances (e : Endpoint) (session : UInt32) (dest : UInt8) (code : ErrorCode)
    (message : String) (stamp : UInt64) :
    e.Advances (e.sendErrorIn session dest code message stamp).2 := by
  simp only [sendErrorIn]
  split
  · exact .inl rfl
  · exact .inr rfl

theorem reply_advances (e : Endpoint) (h : Header) (reason : SessionError) (stamp : UInt64) :
    e.Advances (e.reply h reason stamp).2 := by
  simp only [reply]
  split
  · have ha := e.sendErrorIn_advances h.session h.source reason.code reason.message stamp
    split <;> (rename_i hs; rwa [hs] at ha)
  · exact .inl rfl

theorem Advances.table_eq {e e' : Endpoint} (h : e.Advances e') : e'.table = e.table := by
  rcases h with rfl | rfl <;> rfl

/-- What a datagram does to the table: a valid fragment is inserted, anything else leaves it alone. -/
theorem receive_table (e : Endpoint) (datagram : Bytes) (now : Nat) (stamp : UInt64) :
    (e.receive datagram now stamp).2.table =
      match e.fragmentIn? datagram with
      | some p => (e.table.insert p now).2
      | none => e.table := by
  have hr := e.receiving datagram now stamp
  generalize (e.receive datagram now stamp).1 = reception at hr
  generalize (e.receive datagram now stamp).2 = e' at hr
  cases hr with
  | unreadable hd => simp [fragmentIn?, hd]
  | refused hd hf => simp [fragmentIn?, hd, hf, (e.reply_advances _ _ stamp).table_eq]
  | badReport hd hf hk => simp [fragmentIn?, hd, hk, (e.reply_advances _ _ stamp).table_eq]
  | report hd hf hk => simp [fragmentIn?, hd, hk]
  | delivered hd hf hk => simp [fragmentIn?, hd, hk]
  | completed hd hf hk => simp [fragmentIn?, hd, hf, hk]
  | stored hd hf hk => simp [fragmentIn?, hd, hf, hk]
  | dropped hd hf hk => simp [fragmentIn?, hd, hf, hk, (reply_advances _ _ _ stamp).table_eq]

/-- The answer to a valid fragment is that of the table. -/
theorem receive_of_fragment {e : Endpoint} {datagram : Bytes} {p : Packet} (h : e.fragmentIn? datagram = some p)
    (now : Nat) (stamp : UInt64) :
    (e.receive datagram now stamp).1 =
      match (e.table.insert p now).1 with
      | .ok (some data) => .message p.header.key data
      | .ok none => .pending
      | .error reason =>
        .rejected reason ({ e with table := (e.table.insert p now).2 }.reply p.header reason stamp).1 := by
  obtain ⟨hd, hf, hk⟩ := fragmentIn?_eq_some_iff.mp h
  simp only [receive, hd, hf, accept, hk]
  rcases e.table.insert p now with ⟨⟨reason⟩ | ⟨_ | data⟩, t⟩
  · simp only [reject_eq]
  · rfl
  · rfl

/-- A message is handed out for a fragment to which the table answers with it. -/
theorem receive_eq_message_iff {e : Endpoint} {datagram : Bytes} {now : Nat} {stamp : UInt64} {key : MessageKey}
    {data : Bytes} :
    (e.receive datagram now stamp).1 = .message key data ↔
      ∃ p, e.fragmentIn? datagram = some p ∧ p.header.key = key ∧ (e.table.insert p now).1 = .ok (some data) := by
  constructor
  · intro h
    have hr := e.receiving datagram now stamp
    rw [h] at hr
    generalize (e.receive datagram now stamp).2 = e' at hr
    cases hr with
    | completed hd hf hk hi => exact ⟨_, fragmentIn?_eq_some_iff.mpr ⟨hd, hf, hk⟩, rfl, hi⟩
  · rintro ⟨p, hp, rfl, hi⟩
    rw [receive_of_fragment hp, hi]

theorem receive_eq_pending_iff {e : Endpoint} {datagram : Bytes} {now : Nat} {stamp : UInt64} :
    (e.receive datagram now stamp).1 = .pending ↔
      ∃ p, e.fragmentIn? datagram = some p ∧ (e.table.insert p now).1 = .ok none := by
  constructor
  · intro h
    have hr := e.receiving datagram now stamp
    rw [h] at hr
    generalize (e.receive datagram now stamp).2 = e' at hr
    cases hr with
    | stored hd hf hk hi => exact ⟨_, fragmentIn?_eq_some_iff.mpr ⟨hd, hf, hk⟩, hi⟩
  · rintro ⟨p, hp, hi⟩
    rw [receive_of_fragment hp, hi]

theorem Receiving.advances {e e' : Endpoint} {datagram : Bytes} {now : Nat} {stamp : UInt64} {reception : Reception}
    (h : Receiving e datagram now stamp reception e') : ∃ t, { e with table := t }.Advances e' := by
  cases h with
  | unreadable | report | delivered => exact ⟨e.table, .inl rfl⟩
  | refused | badReport => exact ⟨e.table, e.reply_advances _ _ stamp⟩
  | completed | stored => exact ⟨_, .inl rfl⟩
  | dropped => exact ⟨_, reply_advances _ _ _ stamp⟩

end Endpoint
end LocalPlay
