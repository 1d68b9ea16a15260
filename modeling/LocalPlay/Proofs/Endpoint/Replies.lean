import LocalPlay.Proofs.Endpoint.Emission

/-! Answers to what is refused. A bad packet is answered with an error report to its sender, an error packet never
is: a report that comes back is taken or dropped, but no third datagram follows. -/
namespace LocalPlay.Endpoint

/-- What a refusal leads to: unreadable bytes have no sender, and a packet is answered to the one that it names. -/
theorem Receiving.rejected {e e' : Endpoint} {datagram : Bytes} {now : Nat} {stamp : UInt64} {reason : SessionError}
    {answer : Option Bytes} (h : Receiving e datagram now stamp (.rejected reason answer) e') :
    (∃ cause, Packet.deserialize datagram = .error cause ∧ answer = none) ∨
      ∃ p t, Packet.deserialize datagram = .ok p ∧
        { e with table := t }.reply p.header reason stamp = (answer, e') := by
  cases h with
  | unreadable hd => exact .inl ⟨_, hd, rfl⟩
  | refused hd | badReport hd => exact .inr ⟨_, e.table, hd, Prod.mk.eta.symm⟩
  | dropped hd => exact .inr ⟨_, _, hd, Prod.mk.eta.symm⟩

/-- The packet reports the reason of a refusal to the sender of a header, in the session and under the number that
the header and the endpoint give. -/
structure Reports (e : Endpoint) (h : Header) (reason : SessionError) (q : Packet) : Prop where
  kind : q.header.kind? = some .error
  valid : q.check = .ok ()
  session : q.header.session = h.session
  source : q.header.source = e.node
  dest : q.header.dest = h.source
  sequence : q.header.sequence = e.sequencer.peek
  report : ErrorReport.ofPacket q =
    .ok { rawCode := reason.code.number, message := ErrorReport.shorten reason.message }

theorem reports_errorPacket (e : Endpoint) (h : Header) (reason : SessionError) (stamp : UInt64) :
    e.Reports h reason (e.errorPacket h.session h.source reason.code reason.message stamp) where
  kind := Packet.kind?_whole ..
  valid := Packet.check_whole _ _ (by decide) (ErrorReport.length_payload_shorten_le ..)
  session := rfl
  source := rfl
  dest := rfl
  sequence := rfl
  report := ErrorReport.ofPacket_whole ..

/-- A packet that names the kind of an error is never answered. -/
theorem reply_of_error (e : Endpoint) {h : Header} (hk : h.kind? = some .error) (reason : SessionError)
    (stamp : UInt64) : e.reply h reason stamp = (none, e) := by
  rw [reply_eq, if_neg]
  exact fun hr => hr.2 (Header.kind?_eq_some_iff.mp hk)

section
variable {B E : Endpoint} {h : Header} {reason : SessionError} {q : Packet} {r : Bytes}

/-- An endpoint takes a report if it is in the session and is the one to which the report goes. -/
theorem Reports.fault?_eq_none_iff (hq : B.Reports h reason q) :
    E.fault? q = none ↔ h.session = E.session ∧ (h.source = E.node ∨ h.source = broadcastNode) := by
  rw [Endpoint.fault?_eq_none_iff, hq.session, hq.dest]
  exact and_iff_right hq.valid

/-- A report leaves its receiver as it was: it is handed out, or dropped without an answer. -/
theorem Reports.receive (hq : B.Reports h reason q) (hd : Packet.deserialize r = .ok q) (E : Endpoint) (now : Nat)
    (stamp : UInt64) :
    (E.receive r now stamp).2 = E ∧
      if h.session = E.session ∧ (h.source = E.node ∨ h.source = broadcastNode) then
        (E.receive r now stamp).1 =
          .peerError q.header { rawCode := reason.code.number, message := ErrorReport.shorten reason.message }
      else ∃ cause, (E.receive r now stamp).1 = .rejected cause none := by
  have hf := hq.fault?_eq_none_iff (E := E)
  simp only [Endpoint.receive, hd]
  split
  · rename_i cause hc
    rw [if_neg (hf.not.mp (by simp [hc])), reject_eq, reply_of_error E hq.kind]
    exact ⟨rfl, cause, rfl⟩
  · rename_i hc
    simp only [if_pos (hf.mp hc), accept, hq.kind, hq.report]
    trivial

end

/-- Let `B` refuse a datagram. It answers exactly if its settings say so and the datagram holds a packet that is no
error packet. The answer is a report of the reason to the sender of the packet; whoever receives it hands it out,
or drops it, and neither answers nor changes. -/
theorem rejected_answer {B : Endpoint} {datagram : Bytes} {now : Nat} {stamp : UInt64} {reason : SessionError}
    {answer : Option Bytes} (h : (B.receive datagram now stamp).1 = .rejected reason answer) :
    (answer.isSome ↔ B.settings.replyWithErrors ∧
      ∃ p, Packet.deserialize datagram = .ok p ∧ p.header.kindCode ≠ PacketKind.error.code) ∧
    ∀ r, answer = some r → ∃ p q, Packet.deserialize datagram = .ok p ∧ Packet.deserialize r = .ok q ∧
      B.Reports p.header reason q ∧ (B.receive datagram now stamp).2.sequencer = B.sequencer.next.2 ∧
      ∀ (E : Endpoint) (now' : Nat) (stamp' : UInt64),
        (E.receive r now' stamp').2 = E ∧
          if p.header.session = E.session ∧ (p.header.source = E.node ∨ p.header.source = broadcastNode) then
            (E.receive r now' stamp').1 =
              .peerError q.header { rawCode := reason.code.number, message := ErrorReport.shorten reason.message }
          else ∃ cause, (E.receive r now' stamp').1 = .rejected cause none := by
  have hr := B.receiving datagram now stamp
  rw [h] at hr
  rcases hr.rejected with ⟨cause, hd, rfl⟩ | ⟨p, t, hd, he⟩
  · simp [hd]
  rw [reply_eq] at he
  split at he
  · rename_i hc
    obtain ⟨rfl, hn⟩ := Prod.mk.inj he
    refine ⟨by simpa [hd] using hc, ?_⟩
    rintro _ ⟨⟩
    have hq : B.Reports p.header reason _ := B.reports_errorPacket p.header reason stamp
    have hq' := B.deserialize_errorPacket p.header.session p.header.source reason.code reason.message stamp
    exact ⟨p, _, hd, hq', hq, hn ▸ rfl, hq.receive hq'⟩
  · rename_i hc
    obtain ⟨rfl, -⟩ := Prod.mk.inj he
    exact ⟨by simpa [hd] using hc, by simp⟩

/-- A packet of node 1 in session 9. -/
def stray : Packet := Packet.whole .data ⟨⟨9, 1, 2⟩, 0⟩ 0 [1]

/-- Node 2 of session 7 answers it. Its sender takes the answer, and another node of session 9 drops it. -/
theorem rejected_answer_stray :
    ∃ r q, ((new 7 2 {}).receive stray.datagram 0 0).1 = .rejected (.wrongSession 9) (some r) ∧
      Packet.deserialize r = .ok q ∧ (new 7 2 {}).Reports stray.header (.wrongSession 9) q ∧
      ((new 9 1 {}).receive r 0 0).1 =
        .peerError q.header { rawCode := 4, message := ErrorReport.shorten (SessionError.wrongSession 9).message } ∧
      ∃ cause, ((new 9 3 {}).receive r 0 0).1 = .rejected cause none := by
  have hd : Packet.deserialize stray.datagram = .ok stray := Packet.deserialize_whole _ _ (by decide)
  have hf : (new 7 2 {}).fault? stray = some (.wrongSession 9) := by decide +kernel
  have hr : ∃ r, ((new 7 2 {}).receive stray.datagram 0 0).1 = .rejected (.wrongSession 9) (some r) := by
    simp only [receive, hd, hf, reject_eq, reply_eq]
    exact ⟨_, rfl⟩
  obtain ⟨r, hr⟩ := hr
  obtain ⟨-, ha⟩ := rejected_answer hr
  obtain ⟨p, q, hp, hq, hreports, -, hE⟩ := ha _ rfl
  obtain rfl := Except.ok.inj (hd.symm.trans hp)
  exact ⟨_, q, hr, hq, hreports, (hE (new 9 1 {}) 0 0).2, (hE (new 9 3 {}) 0 0).2⟩

end LocalPlay.Endpoint
