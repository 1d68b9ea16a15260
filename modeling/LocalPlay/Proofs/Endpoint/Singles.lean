import LocalPlay.Proofs.Endpoint.ErrorReports
import LocalPlay.Proofs.Endpoint.Replies

/-! Payloads that go out in one datagram. Their addressee takes each one, whatever its kind. An error packet alone can
still be refused: the sender does not look into a payload, and the receiver asks for a code in it. -/
namespace LocalPlay.Endpoint
variable {A A' B : Endpoint} {kind : PacketKind} {dest : UInt8} {payload datagram : Bytes} {stamp : UInt64} {p : Packet}

/-- What is sent in one datagram is read as a packet with the payload, and its addressee finds no fault in it. -/
theorem read_of_single (h : A.send kind dest payload stamp = (.ok [datagram], A')) (hs : B.session = A.session)
    (hd : dest = B.node ∨ dest = broadcastNode) :
    ∃ p, Packet.deserialize datagram = .ok p ∧ B.fault? p = none ∧ p.header.kind? = some kind ∧ kind ≠ .fragment ∧
      p.header.key = A.nextKey dest ∧ p.payload = payload := by
  obtain ⟨hsend, hds, -⟩ := send_eq_ok_iff.mp h
  obtain ⟨p, hp, rfl⟩ := List.map_eq_singleton_iff.mp hds.symm
  obtain ⟨hfits, rfl⟩ := ChunkSize.packets_eq_singleton_iff.mp hp
  have hk := hsend.not_fragment
  have hl := Nat.le_trans hfits A.chunkSize.le_max
  have hf : B.fault? (Packet.whole kind (A.nextKey dest) stamp payload) = none :=
    fault?_eq_none_iff.mpr ⟨Packet.check_whole _ _ hk hl, hs.symm, hd⟩
  exact ⟨_, Packet.deserialize_whole _ _ hl, hf, Packet.kind?_whole .., hk, rfl, rfl⟩

/-- A packet that is read, and meant for the endpoint, is handed out if it is neither a fragment nor a report. -/
theorem receive_packet (hd : Packet.deserialize datagram = .ok p) (hf : B.fault? p = none)
    (hk : p.header.kind? ≠ some .fragment) (hr : p.header.kind? ≠ some .error) (now : Nat) (stamp : UInt64) :
    B.receive datagram now stamp = (.packet p, B) := by
  simp only [receive, hd, hf, accept]

/-- A report that cannot be read is refused, and not answered. -/
theorem receive_bad_report {cause : ProtocolError} (hd : Packet.deserialize datagram = .ok p) (hf : B.fault? p = none)
    (hk : p.header.kind? = some .error) (hr : ErrorReport.ofPacket p = .error cause) (now : Nat) (stamp : UInt64) :
    B.receive datagram now stamp = (.rejected (.protocol cause) none, B) := by
  simp only [receive, hd, hf, accept, hk, hr, reject_eq, reply_of_error B hk]

/-- Let a payload go out in one datagram. The endpoint to which it goes hands it out under the sender's key, and stays as
it was: as a packet of its kind, or as the code and the text in it if it is an error report. It refuses only a report that
is too short for a code, and does not answer it. -/
theorem send_receive (h : A.send kind dest payload stamp = (.ok [datagram], A')) (hs : B.session = A.session)
    (hd : dest = B.node ∨ dest = broadcastNode) (now : Nat) (stamp' : UInt64) :
    ∃ p, p.header.kind? = some kind ∧ p.header.key = A.nextKey dest ∧ p.payload = payload ∧
      (kind ≠ .error → B.receive datagram now stamp' = (.packet p, B)) ∧
      (kind = .error → errorCodeLength ≤ payload.length → ∃ (code : UInt32) (text : Bytes),
        payload = LittleEndian.encode errorCodeLength code.toNat ++ text ∧
        B.receive datagram now stamp' = (.peerError p.header ⟨code, String.ofList (Utf8.decode text)⟩, B)) ∧
      (kind = .error → payload.length < errorCodeLength →
        B.receive datagram now stamp' = (.rejected (.protocol .reportTooShort) none, B)) := by
  obtain ⟨p, hread, hf, hkind, hk, hkey, hp⟩ := read_of_single h hs hd
  refine ⟨p, hkind, hkey, hp, ?_, ?_, ?_⟩
  · intro he
    exact receive_packet hread hf (by simpa [hkind] using hk) (by simpa [hkind] using he) now stamp'
  · rintro rfl hle
    obtain ⟨code, text, hsplit⟩ := ErrorReport.exists_code_append hle
    have hr := ErrorReport.ofPacket_append hkind (hp.trans hsplit)
    exact ⟨code, text, hsplit, receive_report hread hf hkind hr now stamp'⟩
  · rintro rfl hlt
    have hr := ErrorReport.ofPacket_of_short hkind (hp.symm ▸ hlt)
    exact receive_bad_report hread hf hkind hr now stamp'

/-- Node 1 sends a heartbeat to all and a report to node 2, which waits for the rest of a message. -/
theorem send_receive_two :
    let A := new 7 1 { maxPayloadSize := 8 }
    let B := (new 7 2 {}).receive (Fragment.packet ⟨⟨7, 1, 2⟩, 4⟩ 0 2 0 [1]).datagram 0 0 |>.2
    ∃ first second, (A.send .heartbeat broadcastNode [5] 0).1 = .ok [first] ∧
      (A.send .error 2 [6, 0, 0, 0, 104, 105] 0).1 = .ok [second] ∧
      (∃ p, B.receive first 1 0 = (.packet p, B) ∧ p.header.kind? = some .heartbeat ∧ p.payload = [5]) ∧
      ∃ header, B.receive second 2 0 = (.peerError header ⟨6, "hi"⟩, B) ∧ header.key = A.nextKey 2 := by
  intro A B
  have hfirst : A.send .heartbeat broadcastNode [5] 0 =
      (.ok [(Packet.whole .heartbeat (A.nextKey broadcastNode) 0 [5]).datagram], A.nextSequence.2) := by
    decide +kernel
  have hsecond : A.send .error 2 [6, 0, 0, 0, 104, 105] 0 =
      (.ok [(Packet.whole .error (A.nextKey 2) 0 [6, 0, 0, 0, 104, 105]).datagram], A.nextSequence.2) := by
    decide +kernel
  have hs : B.session = A.session := by decide +kernel
  obtain ⟨p, hkind, -, hp, hpacket, -⟩ := send_receive hfirst hs (.inr rfl) 1 0
  obtain ⟨q, -, hkey, -, -, hreport, -⟩ := send_receive hsecond hs (.inl (by decide +kernel)) 2 0
  obtain ⟨code, text, hsplit, hreport⟩ := hreport rfl (by decide)
  rw [errorCodeLength] at hsplit
  have hcode : code = 6 := by
    have hc := congrArg (LittleEndian.field · 0 4) hsplit
    simp only [LittleEndian.field_word32] at hc
    exact UInt32.toNat_inj.mp (hc.symm.trans (by decide))
  have htext : text = [104, 105] := by
    have ht := congrArg (List.drop 4) hsplit
    rw [List.drop_left' (LittleEndian.length_encode ..)] at ht
    exact ht.symm
  subst hcode htext
  exact ⟨_, _, congrArg Prod.fst hfirst, congrArg Prod.fst hsecond, ⟨p, hpacket (by decide), hkind, hp⟩, q.header,
    hreport, hkey⟩

/-- Three bytes are sent as an error packet, and refused. -/
theorem send_error_not_received :
    let datagram := (Packet.whole .error ⟨⟨7, 1, 2⟩, 0⟩ 0 [1, 0, 0]).datagram
    ((new 7 1 {}).send .error 2 [1, 0, 0] 0).1 = .ok [datagram] ∧
      (new 7 2 {}).receive datagram 0 0 = (.rejected (.protocol .reportTooShort) none, new 7 2 {}) := by
  decide +kernel

end LocalPlay.Endpoint
