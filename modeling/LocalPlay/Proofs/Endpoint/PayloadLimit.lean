import LocalPlay.Proofs.Endpoint.Replies

/-! How long the payloads are that an endpoint puts on the network. What it sends of a payload keeps to the limit in its
settings. The length of an error report depends on its text alone, so reports keep to that limit only if it is not set
below what any packet may carry. -/
namespace LocalPlay

/-- A text of so many bytes. -/
theorem Utf8.length_bytes_replicate (n : Nat) : (bytes (String.ofList (List.replicate n 'x'))).length = n := by
  rw [bytes, String.toList_ofList]
  induction n with
  | zero => rfl
  | succ n ih =>
    have hx : 'x'.utf8Size = 1 := by decide
    rw [List.replicate_succ, length_encode_cons, ih, hx, Nat.add_comm]

/-- The length of a payload that reports a text. -/
def ErrorReport.payloadLength (text : String) : Nat := errorCodeLength + (Utf8.bytes (shorten text)).length

theorem ErrorReport.payloadLength_le (text : String) : payloadLength text ≤ maxPayloadLength := by
  have hl := length_payload_shorten_le .success text
  rwa [length_payload] at hl

/-- A text that fits is reported in full. -/
theorem ErrorReport.payloadLength_of_fits {text : String} (h : (Utf8.bytes text).length ≤ maxErrorMessageLength) :
    payloadLength text = errorCodeLength + (Utf8.bytes text).length := by
  rw [payloadLength, (longestWithin_shorten text).eq_of_fits h]

namespace Endpoint

/-- The text that a step reports to a peer: the caller's own, or why a datagram is refused. -/
def reported? : Op → Outcome → Option String
  | .sendError _ _ message _, _ => some message
  | .receive _ _ _, .received (.rejected reason _) => some reason.message
  | _, _ => none

/-- The datagram is read as a packet whose payload is of such a length. -/
def PayloadLength (P : Nat → Prop) (datagram : Bytes) : Prop :=
  ∃ p, Packet.deserialize datagram = .ok p ∧ P p.payload.length

/-- What a step puts on the network of a payload is within the limit, and what it reports is as long as its text. -/
def KeepsLimit (limit : Nat) (op : Op) (outcome : Outcome) : Prop :=
  ∀ datagram ∈ outcome.emitted, PayloadLength
    (fun length => match reported? op outcome with
      | none => length ≤ limit
      | some text => length = ErrorReport.payloadLength text) datagram

theorem payloadLength_errorPacket (e : Endpoint) (session : UInt32) (dest : UInt8) (code : ErrorCode) (text : String)
    (stamp : UInt64) :
    PayloadLength (· = ErrorReport.payloadLength text) (e.errorPacket session dest code text stamp).datagram :=
  ⟨_, deserialize_errorPacket .., ErrorReport.length_payload code (ErrorReport.shorten text)⟩

/-- The answer to a datagram that is refused reports the reason. -/
theorem Receiving.payloadLength_answer {e e' : Endpoint} {datagram answer : Bytes} {now : Nat} {stamp : UInt64}
    {reason : SessionError} (h : Receiving e datagram now stamp (.rejected reason (some answer)) e') :
    PayloadLength (· = ErrorReport.payloadLength reason.message) answer := by
  rcases h.rejected with ⟨cause, -, ha⟩ | ⟨p, t, -, he⟩
  · cases ha
  · rw [reply_eq] at he
    split at he
    · obtain rfl := Option.some.inj (Prod.mk.inj he).1
      exact payloadLength_errorPacket ..
    · cases (Prod.mk.inj he).1

theorem step_keepsLimit (e : Endpoint) (op : Op) : KeepsLimit e.chunkSize.bytes op (e.step op).1 := by
  intro datagram h
  cases op with
  | send kind dest payload stamp =>
    obtain ⟨-, -, p, hp, rfl⟩ := emitted_send h
    exact ⟨p, ChunkSize.deserialize_of_mem_packets hp, ChunkSize.payload_length_le_bytes hp⟩
  | sendError dest code message stamp =>
    simp only [step_sendError, sendError, sendErrorIn_eq, Outcome.emitted, List.mem_singleton] at h
    rw [h]
    exact payloadLength_errorPacket ..
  | receive d now stamp =>
    have hr := e.receiving d now stamp
    rw [step_receive] at h ⊢
    generalize (e.receive d now stamp).1 = reception at h hr
    cases reception with
    | rejected reason answer =>
      rw [mem_emitted_rejected.mp h] at hr
      exact hr.payloadLength_answer
    | packet | message | peerError | pending => simp [Outcome.emitted] at h
  | sweep | setSequence | nextSequence => simp [step, Outcome.emitted] at h

theorem run_keepsLimit (session : UInt32) (node : UInt8) (settings : Settings) (ops : List Op) :
    List.Forall₂ (KeepsLimit (ChunkSize.clamp settings.maxPayloadSize).bytes) ops
      ((new session node settings).run ops).1 := by
  have hstep : ∀ op ∈ ops, ∀ e, (new session node settings).SameNode e →
      KeepsLimit (ChunkSize.clamp settings.maxPayloadSize).bytes op (e.step op).1 ∧
        (new session node settings).SameNode (e.step op).2 := by
    intro op _ e he
    have hk := e.step_keepsLimit op
    rw [he.chunkSize_eq] at hk
    exact ⟨hk, he.trans (e.step_sameNode op)⟩
  rw [run_eq]
  exact (Machine.run_invariant _ _ hstep ⟨rfl, rfl, rfl⟩).1

/-- No payload is longer than that of any packet may be. -/
theorem KeepsLimit.within {limit : Nat} {op : Op} {outcome : Outcome} (h : KeepsLimit limit op outcome)
    (hl : maxPayloadLength ≤ limit) : ∀ datagram ∈ outcome.emitted, PayloadLength (· ≤ limit) datagram := by
  intro datagram hd
  obtain ⟨p, hp, hlen⟩ := h datagram hd
  refine ⟨p, hp, ?_⟩
  split at hlen
  · exact hlen
  · rw [hlen]
    exact Nat.le_trans (ErrorReport.payloadLength_le _) hl

/-- There is an error report that is as long as a packet may be. -/
theorem sendError_longest (e : Endpoint) (dest : UInt8) (code : ErrorCode) (stamp : UInt64) :
    ∃ text, ∃ datagram ∈ (e.step (.sendError dest code text stamp)).1.emitted,
      PayloadLength (· = maxPayloadLength) datagram := by
  obtain ⟨text, htext⟩ : ∃ text, (Utf8.bytes text).length = maxErrorMessageLength :=
    ⟨_, Utf8.length_bytes_replicate maxErrorMessageLength⟩
  refine ⟨text, (e.errorPacket e.session dest code text stamp).datagram, ?_, ?_⟩
  · simp only [step_sendError, sendError, sendErrorIn_eq, Outcome.emitted, List.mem_singleton]
  · have hl := payloadLength_errorPacket e e.session dest code text stamp
    rwa [ErrorReport.payloadLength_of_fits (Nat.le_of_eq htext), htext] at hl

/-- In every run of a new endpoint, what is sent of a payload carries no more than the limit in the settings, while a
report is as long as its text, up to what a packet holds. So all that is put on the network keeps to the limit exactly if
the settings do not lower it. -/
theorem run_within_limit_iff (session : UInt32) (node : UInt8) (settings : Settings) :
    let limit := (ChunkSize.clamp settings.maxPayloadSize).bytes
    let outcomes (ops : List Op) := ((new session node settings).run ops).1
    (∀ ops, List.Forall₂ (KeepsLimit limit) ops (outcomes ops)) ∧
      ((∀ ops, ∀ outcome ∈ outcomes ops, ∀ datagram ∈ outcome.emitted, PayloadLength (· ≤ limit) datagram) ↔
        maxPayloadLength ≤ settings.maxPayloadSize) := by
  intro limit outcomes
  have hkeeps := run_keepsLimit session node settings
  have hlimit : maxPayloadLength ≤ limit ↔ maxPayloadLength ≤ settings.maxPayloadSize := by
    simp only [limit, ChunkSize.bytes_clamp, maxPayloadLength]
    omega
  refine ⟨hkeeps, ?_, ?_⟩
  · intro h
    obtain ⟨text, datagram, hd, p, hp, hlen⟩ := sendError_longest (new session node settings) 0 .success 0
    have hrun : outcomes [.sendError 0 .success text 0] =
        [((new session node settings).step (.sendError 0 .success text 0)).1] := by
      simp only [outcomes, run_eq, Machine.run]
    obtain ⟨q, hq, hle⟩ := h _ _ (hrun ▸ List.mem_singleton.mpr rfl) datagram hd
    obtain rfl := Except.ok.inj (hp.symm.trans hq)
    exact hlimit.mp (hlen ▸ hle)
  · intro h ops
    exact Machine.forall_answers ((hkeeps ops).imp fun _ _ hk => hk.within (hlimit.mpr h))

/-- Where eight bytes go into a packet, a payload of twelve is refused, and a report with the same payload is sent. -/
example :
    let e := new 7 1 { maxPayloadSize := 8 }
    let content := ErrorReport.payload .timeout "too late"
    (e.send .error 2 content 0).1 = .error (.protocol (.payloadTooLarge 12)) ∧
      (e.sendError 2 .timeout "too late" 0).1 = .ok (Packet.whole .error (e.nextKey 2) 0 content).datagram := by
  decide +kernel

end Endpoint
end LocalPlay
