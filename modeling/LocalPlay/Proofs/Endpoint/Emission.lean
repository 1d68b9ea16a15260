import LocalPlay.Proofs.Endpoint.Steps
import LocalPlay.Proofs.Packet.Reports

/-! What an endpoint puts on the network: the packets of a payload, which are read back as they were and convey
it, and error reports. -/
namespace LocalPlay

/-- A traversal in which nothing fails is a map. -/
theorem mapM_eq_ok_map {α β ε : Type} {f : α → Except ε β} {g : α → β} {l : List α} (h : ∀ a ∈ l, f a = .ok (g a)) :
    l.mapM f = .ok (l.map g) := by
  induction l with
  | nil => rfl
  | cons a rest ih =>
    rw [List.mapM_cons, h a List.mem_cons_self, ih fun b hb => h b (List.mem_cons_of_mem a hb)]
    rfl

/-- The packets of a payload: one, or a fragment for each chunk. -/
def ChunkSize.packets (c : ChunkSize) (kind : PacketKind) (key : MessageKey) (stamp : UInt64) (payload : Bytes) :
    List Packet :=
  if c.exceededBy payload.length then
    (c.chunks payload).mapIdx (Fragment.packet key stamp (UInt32.ofNat (c.chunks payload).length))
  else [Packet.whole kind key stamp payload]

/-- The packet is the payload in one piece, or carries a chunk of it. -/
def Packet.Conveys (c : ChunkSize) (kind : PacketKind) (payload : Bytes) (p : Packet) : Prop :=
  p.header.kind? = some kind ∧ kind ≠ .fragment ∧ p.payload = payload ∨
    p.header.kind? = some .fragment ∧ kind = .data ∧ p.Carries (c.chunks payload)

namespace ChunkSize
variable {c : ChunkSize} {kind : PacketKind} {key : MessageKey} {stamp : UInt64} {payload : Bytes} {p : Packet}

theorem packets_of_fits (h : payload.length ≤ c.bytes) :
    c.packets kind key stamp payload = [Packet.whole kind key stamp payload] := by
  simp [packets, exceededBy, Nat.not_lt.mpr h]

theorem packets_of_exceeds (h : c.bytes < payload.length) :
    c.packets kind key stamp payload =
      (c.chunks payload).mapIdx (Fragment.packet key stamp (UInt32.ofNat (c.chunks payload).length)) := by
  simp [packets, exceededBy, h]

theorem mem_packets : p ∈ c.packets kind key stamp payload ↔
    payload.length ≤ c.bytes ∧ p = Packet.whole kind key stamp payload ∨
      c.bytes < payload.length ∧ ∃ (i : Nat) (hi : i < (c.chunks payload).length),
        p = Fragment.packet key stamp (UInt32.ofNat (c.chunks payload).length) i (c.chunks payload)[i] := by
  by_cases h : c.bytes < payload.length
  · rw [packets_of_exceeds h, List.mem_mapIdx]
    simp [h, Nat.not_le.mpr h, eq_comm]
  · simp [packets_of_fits (Nat.not_lt.mp h), h, Nat.not_lt.mp h]

/-- One packet is enough exactly for a payload that fits into it. -/
theorem packets_eq_singleton_iff :
    c.packets kind key stamp payload = [p] ↔ payload.length ≤ c.bytes ∧ p = Packet.whole kind key stamp payload := by
  by_cases hl : payload.length ≤ c.bytes
  · rw [packets_of_fits hl]
    simp [hl, eq_comm]
  · have h2 := two_le_count (Nat.not_le.mp hl)
    rw [packets_of_exceeds (Nat.not_le.mp hl)]
    simp only [hl, false_and, iff_false]
    intro hp
    have hlen := congrArg List.length hp
    rw [List.length_mapIdx, length_chunks, List.length_singleton] at hlen
    omega

theorem key_of_mem_packets (h : p ∈ c.packets kind key stamp payload) : p.header.key = key := by
  rcases mem_packets.mp h with ⟨-, rfl⟩ | ⟨-, i, hi, rfl⟩ <;> rfl

/-- No packet of a payload carries more than a chunk. -/
theorem payload_length_le_bytes (h : p ∈ c.packets kind key stamp payload) : p.payload.length ≤ c.bytes := by
  rcases mem_packets.mp h with ⟨hl, rfl⟩ | ⟨-, i, hi, rfl⟩
  · exact hl
  · exact length_le_of_mem_pieces (List.getElem_mem hi)

theorem payload_length_le_of_mem_packets (h : p ∈ c.packets kind key stamp payload) :
    p.payload.length ≤ maxPayloadLength :=
  Nat.le_trans (payload_length_le_bytes h) c.le_max

theorem deserialize_of_mem_packets (h : p ∈ c.packets kind key stamp payload) :
    Packet.deserialize p.datagram = .ok p := by
  have hl := payload_length_le_of_mem_packets h
  rcases mem_packets.mp h with ⟨-, rfl⟩ | ⟨-, i, hi, rfl⟩
  · exact Packet.deserialize_whole key stamp hl
  · exact Fragment.deserialize_packet key stamp _ i hl

theorem serialize_of_mem_packets (h : p ∈ c.packets kind key stamp payload) : p.serialize = .ok p.datagram := by
  have hl := payload_length_le_of_mem_packets h
  rcases mem_packets.mp h with ⟨-, rfl⟩ | ⟨-, i, hi, rfl⟩ <;> exact Packet.serialize_sealed hl

theorem conveys_of_mem_packets (hk : kind ≠ .fragment) (hc : kind.isControl → payload.length ≤ c.bytes)
    (hn : c.count payload.length < UInt32.size) (h : p ∈ c.packets kind key stamp payload) :
    p.Conveys c kind payload := by
  rcases mem_packets.mp h with ⟨-, rfl⟩ | ⟨hl, i, hi, rfl⟩
  · exact .inl ⟨Packet.kind?_whole .., hk, rfl⟩
  · have hd : kind = .data := PacketKind.eq_data hk fun hi => Nat.not_le.mpr hl (hc hi)
    rw [← length_chunks] at hn
    exact .inr ⟨Fragment.kind?_packet .., hd, Fragment.carries_packet key stamp hn hi⟩

end ChunkSize

namespace Endpoint

/-- The key of the message that is sent next. -/
def nextKey (e : Endpoint) (dest : UInt8) : MessageKey where
  session := e.session
  source := e.node
  dest := dest
  sequence := e.sequencer.peek

/-- A payload that is sent: it is not too long, and data if it takes more than one packet. -/
structure Sendable (e : Endpoint) (kind : PacketKind) (payload : Bytes) : Prop where
  not_fragment : kind ≠ .fragment
  length_le : payload.length ≤ e.settings.maxMessageSize
  control : kind.isControl → payload.length ≤ e.chunkSize.bytes
  count_lt : e.chunkSize.count payload.length < UInt32.size

/-- The datagrams of a payload are those of its packets, unless its chunks are too many to count. -/
theorem datagrams_eq (e : Endpoint) (kind : PacketKind) (key : MessageKey) (payload : Bytes) (stamp : UInt64) :
    e.datagrams kind key payload stamp =
      if UInt32.size ≤ e.chunkSize.count payload.length then
        .error (.tooManyFragments (e.chunkSize.count payload.length))
      else .ok ((e.chunkSize.packets kind key stamp payload).map Packet.datagram) := by
  have hs := mapM_eq_ok_map fun p (hp : p ∈ e.chunkSize.packets kind key stamp payload) =>
    ChunkSize.serialize_of_mem_packets hp
  by_cases hl : e.chunkSize.bytes < payload.length
  · rw [ChunkSize.packets_of_exceeds hl, ChunkSize.length_chunks] at hs
    simp only [datagrams, ChunkSize.exceededBy, hl, decide_true, if_true, Fragment.split]
    split
    · rfl
    · rw [ChunkSize.packets_of_exceeds hl, ChunkSize.length_chunks]
      exact hs
  · have hle := Nat.not_lt.mp hl
    have hc := e.chunkSize.count_le_one hle
    rw [ChunkSize.packets_of_fits hle] at hs ⊢
    rw [if_neg (by simp only [UInt32.size]; omega)]
    simp only [datagrams, ChunkSize.exceededBy, hl, decide_false]
    exact hs

/-- A payload is sent exactly if it may be, in its packets and under the next number. -/
theorem send_eq_ok_iff {e e' : Endpoint} {kind : PacketKind} {dest : UInt8} {payload : Bytes} {stamp : UInt64}
    {ds : List Bytes} :
    e.send kind dest payload stamp = (.ok ds, e') ↔
      e.Sendable kind payload ∧
        ds = (e.chunkSize.packets kind (e.nextKey dest) stamp payload).map Packet.datagram ∧
        e' = e.nextSequence.2 := by
  have hd := e.datagrams_eq kind (e.nextKey dest) payload stamp
  simp only [nextKey] at hd
  simp only [send, nextSequence, Sequencer.next, hd, ChunkSize.exceededBy, decide_eq_true_eq]
  constructor
  · intro h
    split at h
    · simp at h
    split at h
    · simp at h
    split at h
    · simp at h
    split at h
    · simp [Except.mapError] at h
    · rename_i hk hl hc hn
      simp only [Except.mapError, Prod.mk.injEq, Except.ok.injEq] at h
      obtain ⟨rfl, rfl⟩ := h
      exact ⟨⟨hk, Nat.not_lt.mp hl, fun hi => Nat.not_lt.mp fun hx => hc ⟨hi, hx⟩, Nat.not_le.mp hn⟩, rfl, rfl⟩
  · rintro ⟨⟨hk, hl, hc, hn⟩, rfl, rfl⟩
    rw [if_neg hk, if_neg (Nat.not_lt.mpr hl), if_neg fun hx => Nat.not_lt.mpr (hc hx.1) hx.2,
      if_neg (Nat.not_le.mpr hn)]
    rfl

/-- What is sent conveys the payload under the key. -/
theorem Sendable.conveys {e : Endpoint} {kind : PacketKind} {key : MessageKey} {payload : Bytes} {stamp : UInt64}
    {p : Packet} (h : e.Sendable kind payload) (hp : p ∈ e.chunkSize.packets kind key stamp payload) :
    p.Conveys e.chunkSize kind payload :=
  ChunkSize.conveys_of_mem_packets h.not_fragment h.control h.count_lt hp

/-- The datagram is read as a packet of this kind. -/
def IsOf (kind : PacketKind) (datagram : Bytes) : Prop :=
  ∃ p, Packet.deserialize datagram = .ok p ∧ p.header.kind? = some kind

/-- The error report that is sent next. -/
def errorPacket (e : Endpoint) (session : UInt32) (dest : UInt8) (code : ErrorCode) (message : String)
    (stamp : UInt64) : Packet :=
  Packet.whole .error { session := session, source := e.node, dest := dest, sequence := e.sequencer.peek } stamp
    (ErrorReport.payload code (ErrorReport.shorten message))

/-- An error report is always sent, whatever its text. -/
theorem sendErrorIn_eq (e : Endpoint) (session : UInt32) (dest : UInt8) (code : ErrorCode) (message : String)
    (stamp : UInt64) :
    e.sendErrorIn session dest code message stamp =
      (.ok (e.errorPacket session dest code message stamp).datagram, e.nextSequence.2) := by
  have hl := ErrorReport.length_payload_shorten_le code message
  have hs : (e.errorPacket session dest code message stamp).serialize = .ok _ := Packet.serialize_sealed hl
  simp only [errorPacket] at hs ⊢
  simp only [sendErrorIn, ErrorReport.toPacket_eq_ok hl, Packet.whole_renumbered, nextSequence, Sequencer.next]
  rw [hs]
  rfl

theorem deserialize_errorPacket (e : Endpoint) (session : UInt32) (dest : UInt8) (code : ErrorCode)
    (message : String) (stamp : UInt64) :
    Packet.deserialize (e.errorPacket session dest code message stamp).datagram =
      .ok (e.errorPacket session dest code message stamp) :=
  Packet.deserialize_whole _ _ (ErrorReport.length_payload_shorten_le code message)

/-- A packet that is refused is answered exactly if the settings say so and it is no error packet itself. -/
theorem reply_eq (e : Endpoint) (h : Header) (reason : SessionError) (stamp : UInt64) :
    e.reply h reason stamp =
      if e.settings.replyWithErrors ∧ h.kindCode ≠ PacketKind.error.code then
        (some (e.errorPacket h.session h.source reason.code reason.message stamp).datagram, e.nextSequence.2)
      else (none, e) := by
  simp only [reply, sendErrorIn_eq]

theorem sendErrorIn_isOf {e : Endpoint} {session : UInt32} {dest : UInt8} {code : ErrorCode} {message : String}
    {stamp : UInt64} {datagram : Bytes}
    (h : (e.sendErrorIn session dest code message stamp).1 = .ok datagram) : IsOf .error datagram := by
  rw [sendErrorIn_eq] at h
  obtain rfl := Except.ok.inj h
  exact ⟨_, deserialize_errorPacket .., Packet.kind?_whole ..⟩

theorem reply_isOf {e : Endpoint} {h : Header} {reason : SessionError} {stamp : UInt64} {datagram : Bytes}
    (hr : (e.reply h reason stamp).1 = some datagram) : IsOf .error datagram := by
  rw [reply_eq] at hr
  split at hr
  · obtain rfl := Option.some.inj hr
    exact ⟨_, deserialize_errorPacket .., Packet.kind?_whole ..⟩
  · simp at hr

theorem mem_emitted_rejected {reason : SessionError} {answer : Option Bytes} {datagram : Bytes} :
    datagram ∈ (Outcome.received (.rejected reason answer)).emitted ↔ answer = some datagram := by
  cases answer <;> simp [Outcome.emitted, eq_comm]

/-- All that is answered to a datagram is an error report. -/
theorem Receiving.emitted_isOf {e e' : Endpoint} {datagram answer : Bytes} {now : Nat} {stamp : UInt64}
    {reception : Reception} (h : Receiving e datagram now stamp reception e')
    (ha : answer ∈ (Outcome.received reception).emitted) : IsOf .error answer := by
  cases h with
  | unreadable => simp [mem_emitted_rejected] at ha
  | refused | badReport | dropped => exact reply_isOf (mem_emitted_rejected.mp ha)
  | report | delivered | completed | stored => simp [Outcome.emitted] at ha

/-- What is emitted for a payload are its packets. -/
theorem emitted_send {e : Endpoint} {kind : PacketKind} {dest : UInt8} {payload : Bytes} {stamp : UInt64}
    {datagram : Bytes} (h : datagram ∈ (e.step (.send kind dest payload stamp)).1.emitted) :
    e.Sendable kind payload ∧ (e.step (.send kind dest payload stamp)).2 = e.nextSequence.2 ∧
      ∃ p ∈ e.chunkSize.packets kind (e.nextKey dest) stamp payload, datagram = p.datagram := by
  rw [step_send] at h ⊢
  cases hs : (e.send kind dest payload stamp).1 with
  | error reason => simp [hs, Outcome.emitted] at h
  | ok ds =>
    obtain ⟨hk, rfl, he⟩ := send_eq_ok_iff.mp (Prod.ext hs rfl)
    simp only [hs, Outcome.emitted, List.mem_map] at h
    obtain ⟨p, hp, rfl⟩ := h
    exact ⟨hk, he, p, hp, rfl⟩

/-- A step puts packets of a payload on the network, or an error report. -/
theorem emitted_step {e : Endpoint} {op : Op} {datagram : Bytes} (h : datagram ∈ (e.step op).1.emitted) :
    (∃ kind dest payload stamp, op = .send kind dest payload stamp ∧ e.Sendable kind payload ∧
      (e.step op).2 = e.nextSequence.2 ∧
      ∃ p ∈ e.chunkSize.packets kind (e.nextKey dest) stamp payload, datagram = p.datagram) ∨
    IsOf .error datagram := by
  cases op with
  | send kind dest payload stamp =>
    obtain ⟨hk, he, p, hp, rfl⟩ := emitted_send h
    exact .inl ⟨kind, dest, payload, stamp, rfl, hk, he, p, hp, rfl⟩
  | sendError dest code message stamp =>
    rw [step_sendError] at h
    cases hs : (e.sendError dest code message stamp).1 with
    | error reason => simp [hs, Outcome.emitted] at h
    | ok d =>
      obtain rfl : datagram = d := by simpa [hs, Outcome.emitted] using h
      exact .inr (sendErrorIn_isOf hs)
  | receive d now stamp =>
    rw [step_receive] at h
    exact .inr ((e.receiving d now stamp).emitted_isOf h)
  | sweep | setSequence | nextSequence => simp [step, Outcome.emitted] at h

end Endpoint
end LocalPlay
