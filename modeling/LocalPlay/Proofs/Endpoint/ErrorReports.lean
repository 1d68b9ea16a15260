import LocalPlay.Proofs.Endpoint.Emission

/-! Error reports cross the wire. One can be sent for any text, and each endpoint to which it goes hands out the code
and as much of the text as fits into one packet. -/
namespace LocalPlay.Endpoint
variable {A E : Endpoint} {p : Packet} {datagram : Bytes} {report : ErrorReport}

/-- A report that is read, and meant for the endpoint, is handed out and changes nothing. -/
theorem receive_report (hd : Packet.deserialize datagram = .ok p) (hf : E.fault? p = none)
    (hk : p.header.kind? = some .error) (hr : ErrorReport.ofPacket p = .ok report) (now : Nat) (stamp : UInt64) :
    E.receive datagram now stamp = (.peerError p.header report, E) := by
  simp only [receive, hd, hf, accept, hk, hr]

theorem fault?_errorPacket (hs : E.session = A.session) {dest : UInt8} (hn : dest = E.node ∨ dest = broadcastNode)
    (code : ErrorCode) (message : String) (stamp : UInt64) :
    E.fault? (A.errorPacket A.session dest code message stamp) = none :=
  fault?_eq_none_iff.mpr
    ⟨Packet.check_whole _ _ (by decide) (ErrorReport.length_payload_shorten_le ..), hs.symm, hn⟩

/-- Whatever its text, an error report is sent. Each endpoint of the session that has the destination's number, or any
if it goes to all, hands it out with the sender's number, the sequence number that it took, the code, and the longest
beginning of the text that fits. Its table and its own sequence numbers stay as they were. -/
theorem sendError_receive (A : Endpoint) (dest : UInt8) (code : ErrorCode) (message : String) (stamp : UInt64) :
    ∃ datagram header text, A.sendError dest code message stamp = (.ok datagram, A.nextSequence.2) ∧
      header.source = A.node ∧ header.dest = dest ∧ header.sequence = A.nextSequence.1 ∧
      Utf8.LongestWithin maxErrorMessageLength message text ∧
      ∀ E : Endpoint, E.session = A.session → dest = E.node ∨ dest = broadcastNode →
        ∀ now stamp', E.receive datagram now stamp' = (.peerError header ⟨code.number, text⟩, E) := by
  let p := A.errorPacket A.session dest code message stamp
  refine ⟨p.datagram, p.header, ErrorReport.shorten message, A.sendErrorIn_eq A.session dest code message stamp, rfl,
    rfl, rfl, ErrorReport.longestWithin_shorten message, ?_⟩
  intro E hs hn now stamp'
  exact receive_report (A.deserialize_errorPacket ..) (fault?_errorPacket hs hn ..) (Packet.kind?_whole ..)
    (ErrorReport.ofPacket_whole ..) now stamp'

/-- A text with a long character goes to all, and node 9 gets it while it waits for the rest of a message. -/
theorem sendError_receive_broadcast :
    let E := (new 7 9 {}).receive (Fragment.packet ⟨⟨7, 1, 9⟩, 4⟩ 0 2 0 [1]).datagram 0 0 |>.2
    ∃ datagram header, ((new 7 1 {}).sendError broadcastNode .timeout "né" 0).1 = .ok datagram ∧
      E.receive datagram 5 0 = (.peerError header ⟨ErrorCode.timeout.number, "né"⟩, E) ∧ header.source = 1 := by
  intro E
  obtain ⟨datagram, header, text, hs, hsource, -, -, ht, hE⟩ :=
    sendError_receive (new 7 1 {}) broadcastNode .timeout "né" 0
  obtain rfl := ht.eq_of_fits (by decide +kernel)
  exact ⟨datagram, header, congrArg Prod.fst hs, hE E (by decide +kernel) (.inr rfl) 5 0, hsource⟩

end LocalPlay.Endpoint
