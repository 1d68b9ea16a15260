import LocalPlay.Proofs.Endpoint.Delivery
import LocalPlay.Proofs.Endpoint.Integrity
import LocalPlay.Proofs.Reassembly.Repetition

/-! Repeated datagrams. While a message is gathered, its datagrams may come again without any effect. An endpoint keeps
nothing of a message that it has handed out, so a message is handed out again when all its datagrams come again, and
only then. -/
namespace LocalPlay.Endpoint

/-- Somewhere in the run a message is sent, under this key and in two datagrams or more. -/
def SendsInPieces (A : Endpoint) (opsA : List Op) (key : MessageKey) (payload : Bytes)
    (datagrams : List Bytes) : Prop :=
  ∃ before stamp after A', opsA = before ++ .send .data key.dest payload stamp :: after ∧
    (A.run before).2.send .data key.dest payload stamp = (.ok datagrams, A') ∧
    (A.run before).2.nextKey key.dest = key ∧ 2 ≤ datagrams.length

/-- The step brings the datagram. -/
def Op.brings (datagram : Bytes) : Op → Bool
  | .receive arrived _ _ => arrived == datagram
  | _ => false

/-- The answer hands out the message with this key. -/
def Outcome.delivers (key : MessageKey) : Outcome → Bool
  | received (.message found _) => found == key
  | _ => false

/-- How often a datagram comes. -/
def arrivals (datagram : Bytes) (ops : List Op) : Nat := ops.countP (Op.brings datagram)

/-- How often a message is handed out. -/
def deliveries (key : MessageKey) (outcomes : List Outcome) : Nat := outcomes.countP (Outcome.delivers key)

/-- At one of its datagrams a message is handed out, or given up because it is too long. -/
def Ends (datagrams : List Bytes) : Op → Outcome → Prop
  | .receive datagram _ _, .received reception => datagram ∈ datagrams ∧
      ((∃ key data, reception = .message key data) ∨
        ∃ length answer, reception = .rejected (.messageTooLarge length) answer)
  | _, _ => False

section
variable {A B e : Endpoint} {opsA : List Op} {key : MessageKey} {payload : Bytes} {datagrams : List Bytes}
  {node : UInt8} {settings : Settings} {op : Op} {p : Packet} {datagram : Bytes} {i : Nat}

theorem SendsInPieces.numbered (hs : A.SendsInPieces opsA key payload datagrams) :
    key.source = A.node ∧ ∃ stamp, (key.sequence, .send .data key.dest payload stamp) ∈ A.numbered opsA := by
  obtain ⟨before, stamp, after, A', rfl, hsend, hkey, -⟩ := hs
  have hsource : (A.run before).2.node = key.source := congrArg (·.source) hkey
  have hnumber : (A.run before).2.sequencer.peek = key.sequence := congrArg (·.sequence) hkey
  refine ⟨hsource.symm.trans (A.run_sameNode before).2.1, stamp, ?_⟩
  rw [numbered_append, numbered_of_send hsend, hnumber]
  exact List.mem_append_right _ List.mem_cons_self

/-- Of a message in pieces, each datagram is the fragment of its index. -/
theorem SendsInPieces.fragment (hs : A.SendsInPieces opsA key payload datagrams) (hi : datagrams[i]? = some datagram) :
    ∃ p, Packet.deserialize datagram = .ok p ∧ p.header.key = key ∧ p.Carries (A.chunkSize.chunks payload) ∧
      p.header.fragmentIndex.toNat = i := by
  obtain ⟨before, stamp, after, A', rfl, hsend, hkey, h2⟩ := hs
  obtain ⟨p, hp, -, -, hk, hc, hi⟩ := fragment_of_send hsend h2 hi
  exact ⟨p, hp, hk.trans hkey, (A.run_sameNode before).chunkSize_eq ▸ hc, hi⟩

theorem SendsInPieces.length_eq (hs : A.SendsInPieces opsA key payload datagrams) :
    datagrams.length = (A.chunkSize.chunks payload).length ∧ 2 ≤ datagrams.length := by
  obtain ⟨before, stamp, after, A', rfl, hsend, -, h2⟩ := hs
  exact ⟨(A.run_sameNode before).chunkSize_eq ▸ (getElem?_datagrams hsend h2).1, h2⟩

/-- No other step of the run puts fragments of the message on the network, as none takes its number. -/
theorem SendsInPieces.mem_of_emitted (hu : A.Unrepeated opsA) (hs : A.SendsInPieces opsA key payload datagrams)
    (hd : datagram ∈ (A.run opsA).1.flatMap Outcome.emitted) (hp : Packet.deserialize datagram = .ok p)
    (hk : p.header.kind? = some .fragment) (hkey : p.header.key = key) : datagram ∈ datagrams := by
  obtain ⟨before, stamp, after, A', rfl, hsend, hnext, -⟩ := hs
  have hnodup := A.nodup_numbered hu.not_set hu.length_le
  have hseq : p.header.sequence = (A.run before).2.sequencer.peek :=
    congrArg (·.sequence) (hkey.trans hnext.symm)
  have herror : p.header.kind? ≠ some .error := by simp [hk]
  rw [numbered_append, numbered_of_send hsend] at hnodup
  simp only [List.map_append, List.map_cons, List.nodup_append, List.nodup_cons, List.mem_cons] at hnodup
  obtain ⟨-, ⟨hlater, -⟩, hearlier⟩ := hnodup
  rw [run_eq, Machine.run_append, List.flatMap_append, List.mem_append, ← run_eq, Machine.run, List.flatMap_cons,
    List.mem_append, step_send, hsend, ← run_eq] at hd
  -- it went out before the message, with it, or after it
  rcases hd with hd | hd | hd
  · exact absurd hseq (hearlier _ (sequence_mem_numbered hd hp herror) _ (.inl rfl))
  · exact hd
  · exact absurd (hseq ▸ sequence_mem_numbered hd hp herror) hlater

/-- A datagram of the message that comes as a fragment is the one of its index. -/
theorem SendsInPieces.carries (hs : A.SendsInPieces opsA key payload datagrams) (hi : datagrams[i]? = some datagram)
    (hp : B.fragmentIn? datagram = some p) :
    p.header.key = key ∧ p.Carries (A.chunkSize.chunks payload) ∧ p.header.fragmentIndex.toNat = i := by
  obtain ⟨q, hq, hkey, hc, hj⟩ := hs.fragment hi
  obtain rfl := Except.ok.inj ((fragmentIn?_eq_some_iff.mp hp).1.symm.trans hq)
  exact ⟨hkey, hc, hj⟩

/-- What comes as a fragment of the message is its datagram of that index. -/
theorem SendsInPieces.piece (hu : A.Unrepeated opsA) (hs : A.SendsInPieces opsA key payload datagrams)
    (hB : B.session = A.session) {now : Nat} {stamp : UInt64} (hn : A.Genuine opsA (.receive datagram now stamp))
    (hp : B.fragmentIn? datagram = some p) (hkey : p.header.key = key) :
    datagrams[p.header.fragmentIndex.toNat]? = some datagram ∧ p.Carries (A.chunkSize.chunks payload) := by
  obtain ⟨hd, hf, hk⟩ := fragmentIn?_eq_some_iff.mp hp
  have hsession := (fault?_eq_none_iff.mp hf).2.1.trans hB
  have hsource : p.header.source = A.node := (congrArg (·.source) hkey).trans hs.numbered.1
  have hmem := hs.mem_of_emitted hu (hn p hd hsession hsource) hd hk hkey
  obtain ⟨j, hj⟩ := List.mem_iff_getElem?.mp hmem
  obtain ⟨-, hc, rfl⟩ := hs.carries hj hp
  exact ⟨hj, hc⟩

theorem delivers_step_iff :
    (e.step op).1.delivers key = true ↔ ∃ datagram now stamp p data, op = .receive datagram now stamp ∧
      e.fragmentIn? datagram = some p ∧ p.header.key = key ∧ (e.table.insert p now).1 = .ok (some data) := by
  constructor
  · intro h
    cases op with
    | receive datagram now stamp =>
      rw [step_receive] at h
      cases hr : (e.receive datagram now stamp).1 with
      | message found data =>
        obtain rfl : found = key := by simpa [hr, Outcome.delivers] using h
        obtain ⟨p, hp, hk, hi⟩ := receive_eq_message_iff.mp hr
        exact ⟨datagram, now, stamp, p, data, rfl, hp, hk, hi⟩
      | packet | peerError | pending | rejected => simp [hr, Outcome.delivers] at h
    | send | sendError | sweep | setSequence | nextSequence => simp [step, Outcome.delivers] at h
  · rintro ⟨datagram, now, stamp, p, data, rfl, hp, rfl, hi⟩
    rw [step_receive, receive_of_fragment hp, hi]
    simp [Outcome.delivers]

/-- What is handed out is gone from the table. -/
theorem absent_of_delivers (h : (e.step op).1.delivers key = true) : (e.step op).2.table.pending.find? key = none := by
  obtain ⟨datagram, now, stamp, p, data, rfl, hp, rfl, hi⟩ := delivers_step_iff.mp h
  have hins := Reassembly.Table.insertion e.table p now
  rw [hi] at hins
  rw [step_receive, receive_table, hp]
  exact hins.absent_of_message

/-- The receiver between two steps: what its table gathers in the name of the sender is what the sender's run sends. -/
structure Receiver (A : Endpoint) (opsA : List Op) (node : UInt8) (settings : Settings) (e : Endpoint) : Prop where
  sound : Sound A.session node settings e
  gathers : A.GathersSent opsA e.table

theorem Receiver.of_new (A : Endpoint) (opsA : List Op) (node : UInt8) (settings : Settings) :
    A.Receiver opsA node settings (new A.session node settings) := by
  refine ⟨.of_new .., ?_⟩
  intro key e payload stamp hf
  simp [new, Reassembly.Table.ofSettings, Reassembly.Table.new] at hf

theorem Receiver.step (hu : A.Unrepeated opsA) (h : A.Receiver opsA node settings e) (hn : A.Genuine opsA op) :
    A.Receiver opsA node settings (e.step op).2 :=
  ⟨h.sound.step op, (h.gathers.step hu h.sound.wellFormed h.sound.session_eq hn).2⟩

/-- A chunk of the message gets into the table with its datagram. -/
theorem Receiver.holdsChunk_step (hu : A.Unrepeated opsA) (hs : A.SendsInPieces opsA key payload datagrams)
    (h : A.Receiver opsA node settings e) (hn : A.Genuine opsA op) (hd : datagrams[i]? = some datagram)
    (hh : (e.step op).2.table.holdsChunk key i = true) :
    e.table.holdsChunk key i = true ∨ op.brings datagram = true := by
  cases op with
  | receive arrived now stamp =>
    rw [step_receive, receive_table] at hh
    cases hp : e.fragmentIn? arrived with
    | none => exact .inl (by simpa [hp] using hh)
    | some p =>
      rw [hp] at hh
      have hins := Reassembly.Table.insertion e.table p now
      by_cases hkey : p.header.key = key
      case neg => exact .inl (Reassembly.Table.holdsChunk_congr (hins.find?_of_ne (Ne.symm hkey)) i ▸ hh)
      obtain ⟨hj, -⟩ := hs.piece hu h.sound.session_eq hn hp hkey
      subst hkey
      rcases hins.holdsChunk_le h.sound.wellFormed hh with hh | rfl
      · exact .inl hh
      · exact .inr (by simpa [Op.brings] using Option.some.inj (hj.symm.trans hd))
  | sweep now =>
    refine .inl ?_
    have hf := Reassembly.Table.find?_sweep e.table now key
    change (e.table.sweep now).2.holdsChunk key i = true at hh
    simp only [Reassembly.Table.holdsChunk, hf, Option.any_eq_true, Option.filter_eq_some_iff] at hh ⊢
    obtain ⟨entry, ⟨he, -⟩, hs⟩ := hh
    exact ⟨entry, he, hs⟩
  | send | sendError | setSequence | nextSequence =>
    rw [step_table_of_none rfl] at hh
    exact .inl hh

/-- When the message is handed out, each of its chunks is in the table or comes just now. -/
theorem Receiver.holdsChunk_of_delivers (hu : A.Unrepeated opsA) (hs : A.SendsInPieces opsA key payload datagrams)
    (h : A.Receiver opsA node settings e) (hn : A.Genuine opsA op) (hd : datagrams[i]? = some datagram)
    (hm : (e.step op).1.delivers key = true) : e.table.holdsChunk key i = true ∨ op.brings datagram = true := by
  obtain ⟨arrived, now, stamp, p, data, rfl, hp, rfl, hi⟩ := delivers_step_iff.mp hm
  obtain ⟨hsource, stamp', hnum⟩ := hs.numbered
  obtain ⟨hlen, h2⟩ := hs.length_eq
  obtain ⟨hj, hc⟩ := hs.piece hu h.sound.session_eq hn hp rfl
  have hins := Reassembly.Table.insertion e.table p now
  rw [hi] at hins
  have hlt : i < (A.chunkSize.chunks payload).length := hlen ▸ (List.getElem?_eq_some_iff.mp hd).1
  rcases hins.holdsChunk_of_message h.sound.wellFormed hc (hlen ▸ h2)
    (fun entry he => h.gathers _ entry payload stamp' he hsource hnum) hlt with hh | rfl
  · exact .inl hh
  · exact .inr (by simpa [Op.brings] using Option.some.inj (hj.symm.trans hd))

/-- A chunk serves for one delivery: what is handed out and what is in the table came in. -/
theorem Receiver.account (hu : A.Unrepeated opsA) (hs : A.SendsInPieces opsA key payload datagrams)
    (h : A.Receiver opsA node settings e) (hn : A.Genuine opsA op) (hd : datagrams[i]? = some datagram) :
    ((e.step op).1.delivers key).toNat + ((e.step op).2.table.holdsChunk key i).toNat ≤
      (e.table.holdsChunk key i).toNat + (op.brings datagram).toNat := by
  have hstep := h.holdsChunk_step hu hs hn hd
  have hmessage := h.holdsChunk_of_delivers hu hs hn hd
  cases hm : (e.step op).1.delivers key with
  | true =>
    rw [Reassembly.Table.holdsChunk_eq_false (absent_of_delivers hm)]
    rcases hmessage hm with hh | hb
    · rw [hh]
      exact Nat.le_add_right 1 _
    · rw [hb]
      exact Nat.le_add_left 1 _
  | false =>
    cases hh : (e.step op).2.table.holdsChunk key i with
    | true =>
      rcases hstep hh with hh | hb
      · rw [hh]
        exact Nat.le_add_right 1 _
      · rw [hb]
        exact Nat.le_add_left 1 _
    | false => exact Nat.zero_le _

/-- Until the message ends, a fragment of it that has come stays. -/
theorem Receiver.keeps_step (hu : A.Unrepeated opsA) (hs : A.SendsInPieces opsA key payload datagrams)
    (h : A.Receiver opsA node settings e) (hn : A.Genuine opsA op) (hk : e.table.Keeps p) (hkey : p.header.key = key)
    (hc : p.Carries (A.chunkSize.chunks payload)) (hsweep : ∀ now, op ≠ .sweep now)
    (hends : ¬ Ends datagrams op (e.step op).1) : (e.step op).2.table.Keeps p := by
  cases op with
  | receive arrived now stamp =>
    rw [step_receive] at hends ⊢
    rw [receive_table]
    cases hq : e.fragmentIn? arrived with
    | none => exact hk
    | some q =>
      refine (Reassembly.Table.insertion e.table q now).keeps h.sound.wellFormed hk ?_
      intro hkey'
      obtain ⟨hj, hc'⟩ := hs.piece hu h.sound.session_eq hn hq (hkey'.trans hkey)
      have hmem := List.mem_of_getElem? hj
      refine ⟨UInt32.toNat_inj.mp (hc'.1.trans hc.1.symm), ?_⟩
      rintro (⟨message, ha⟩ | ⟨length, ha⟩)
      · exact hends ⟨hmem, .inl ⟨_, message, by rw [receive_of_fragment hq, ha]⟩⟩
      · exact hends ⟨hmem, .inr ⟨length, _, by rw [receive_of_fragment hq, ha]⟩⟩
  | sweep now => exact absurd rfl (hsweep now)
  | send | sendError | setSequence | nextSequence =>
    rw [step_table_of_none rfl]
    exact hk

/-- A fragment that has come is answered with nothing, and nothing changes. -/
theorem receive_of_keeps (hp : e.fragmentIn? datagram = some p) (hk : e.table.Keeps p) (now : Nat) (stamp : UInt64) :
    e.receive datagram now stamp = (.pending, e) := by
  obtain ⟨hd, hf, hkind⟩ := fragmentIn?_eq_some_iff.mp hp
  simp only [receive, hd, hf, accept, hkind, hk.insert_eq]

/-- When nothing of a message is in the table, it is handed out from then on at most as often as each of its datagrams
comes. -/
theorem Receiver.deliveries_le {opsB : List Op} (hu : A.Unrepeated opsA)
    (hs : A.SendsInPieces opsA key payload datagrams) (h : A.Receiver opsA node settings e)
    (hn : ∀ op ∈ opsB, A.Genuine opsA op) (habsent : e.table.pending.find? key = none)
    (hd : datagram ∈ datagrams) : deliveries key (e.run opsB).1 ≤ arrivals datagram opsB := by
  obtain ⟨i, hi⟩ := List.mem_iff_getElem?.mp hd
  have haccount := Machine.run_account (A.Receiver opsA node settings) (fun e => (e.table.holdsChunk key i).toNat)
    (Outcome.delivers key) (Op.brings datagram)
    (fun op ho e h => ⟨h.step hu (hn op ho), h.account hu hs (hn op ho) hi⟩) h
  rw [Reassembly.Table.holdsChunk_eq_false habsent, ← run_eq] at haccount
  exact Nat.le_trans (Nat.le_add_right ..) (haccount.trans (Nat.le_of_eq (Nat.zero_add _)))

theorem receiver_run {opsB : List Op} (node : UInt8) (settings : Settings) (hu : A.Unrepeated opsA)
    (hn : ∀ op ∈ opsB, A.Genuine opsA op) :
    A.Receiver opsA node settings ((new A.session node settings).run opsB).2 := by
  rw [run_eq]
  exact (Machine.run_invariant _ (fun _ _ => True) (fun op ho e h => ⟨trivial, h.step hu (hn op ho)⟩)
    (.of_new A opsA node settings)).2

/-- At the start, and after a step that hands the message out, nothing of it is in the table. -/
theorem absent_of_getLast {session : UInt32} {ops : List Op}
    (h : ((new session node settings).run ops).1.getLast?.all (Outcome.delivers key) = true) :
    ((new session node settings).run ops).2.table.pending.find? key = none := by
  rcases ops.eq_nil_or_concat' with rfl | ⟨before, op, rfl⟩
  · exact KeyedList.find?_empty key
  · rw [run_eq, Machine.run_append, Machine.run, Machine.run, List.getLast?_concat, Option.all_some] at h
    rw [run_eq, Machine.run_concat]
    exact absent_of_delivers h

/-- A datagram that was answered with nothing has no effect when it comes again before its message ends. -/
theorem Receiver.ignores {later : List Op} {now : Nat} {stamp : UInt64} (hu : A.Unrepeated opsA)
    (hs : A.SendsInPieces opsA key payload datagrams) (h : A.Receiver opsA node settings e)
    (hn : ∀ op ∈ .receive datagram now stamp :: later, A.Genuine opsA op) (hd : datagram ∈ datagrams)
    (hpending : (e.receive datagram now stamp).1 = .pending) (hsweep : ∀ time, .sweep time ∉ later)
    (hends : List.Forall₂ (fun op outcome => ¬ Ends datagrams op outcome) later
      ((e.receive datagram now stamp).2.run later).1) (now' : Nat) (stamp' : UInt64) :
    ((e.receive datagram now stamp).2.run later).2.receive datagram now' stamp' =
      (.pending, ((e.receive datagram now stamp).2.run later).2) := by
  obtain ⟨hfirst, hlater⟩ := List.forall_mem_cons.mp hn
  obtain ⟨p, hp, hi⟩ := receive_eq_pending_iff.mp hpending
  obtain ⟨i, hdi⟩ := List.mem_iff_getElem?.mp hd
  obtain ⟨hkey, hc, -⟩ := hs.carries hdi hp
  have hins := Reassembly.Table.insertion e.table p now
  rw [hi] at hins
  have hkeeps : (e.receive datagram now stamp).2.table.Keeps p := by
    rw [receive_table, hp]
    exact hins.keeps_self h.sound.wellFormed
  have hnext := h.step hu hfirst
  rw [step_receive] at hnext
  -- the fragment stays through the later steps
  have hstep : ∀ op ∈ later, ∀ e, A.Receiver opsA node settings e ∧ e.table.Keeps p →
      ¬ Ends datagrams op (e.step op).1 →
      A.Receiver opsA node settings (e.step op).2 ∧ (e.step op).2.table.Keeps p := by
    rintro op ho e ⟨hr, hk⟩ he
    have hne : ∀ time, op ≠ .sweep time := fun time heq => hsweep time (heq ▸ ho)
    exact ⟨hr.step hu (hlater op ho), hr.keeps_step hu hs (hlater op ho) hk hkey hc hne he⟩
  have hsame := (e.step_sameNode (.receive datagram now stamp)).trans (run_sameNode _ later)
  rw [step_receive, run_eq] at hsame
  rw [run_eq] at hends ⊢
  have hlast := (Machine.run_of_allowed (fun e => A.Receiver opsA node settings e ∧ e.table.Keeps p) _ hstep
    ⟨hnext, hkeeps⟩ hends).2
  exact receive_of_keeps ((fragmentIn?_congr hsame datagram).trans hp) hlast now' stamp'

end

/-- Let a run of `A` take no number twice and send a message in pieces, and let whatever reaches `B` in the name of `A`
have been put on the network by that run, in any order and any number of times. From the start on, and again from each
time that `B` hands out the message, it hands it out at most as often as each of the datagrams comes; so it does once at
most if one of them comes once. A datagram to which `B` has answered with nothing may come again: as long as the message
is not handed out, given up as too long or swept away, it is answered with nothing, and `B` stays as it is. -/
theorem run_repeats {A : Endpoint} {opsA : List Op} {key : MessageKey} {payload : Bytes} {datagrams : List Bytes}
    (node : UInt8) (settings : Settings) {opsB : List Op} (hu : A.Unrepeated opsA)
    (hs : A.SendsInPieces opsA key payload datagrams) (hn : ∀ op ∈ opsB, A.Genuine opsA op) :
    let B := new A.session node settings
    (∀ before after, opsB = before ++ after → (B.run before).1.getLast?.all (Outcome.delivers key) = true →
        ∀ datagram ∈ datagrams, deliveries key ((B.run before).2.run after).1 ≤ arrivals datagram after) ∧
      ∀ earlier datagram now stamp later, opsB = earlier ++ .receive datagram now stamp :: later →
        datagram ∈ datagrams → ((B.run earlier).2.receive datagram now stamp).1 = .pending →
        (∀ time, .sweep time ∉ later) →
        List.Forall₂ (fun op outcome => ¬ Ends datagrams op outcome) later
          (((B.run earlier).2.receive datagram now stamp).2.run later).1 →
        ∀ now' stamp', (B.run opsB).2.receive datagram now' stamp' = (.pending, (B.run opsB).2) := by
  intro B
  constructor
  · rintro before after rfl hlast datagram hd
    obtain ⟨hbefore, hafter⟩ := List.forall_mem_append.mp hn
    exact (receiver_run node settings hu hbefore).deliveries_le hu hs hafter (absent_of_getLast hlast) hd
  · rintro earlier datagram now stamp later rfl hd hpending hsweep hends now' stamp'
    obtain ⟨hearlier, hrest⟩ := List.forall_mem_append.mp hn
    have hrun : (B.run (earlier ++ .receive datagram now stamp :: later)).2 =
        (((B.run earlier).2.receive datagram now stamp).2.run later).2 := by
      rw [run_eq, Machine.run_append, Machine.run, step_receive, ← run_eq, ← run_eq]
    rw [hrun]
    exact (receiver_run node settings hu hearlier).ignores hu hs hrest hd hpending hsweep hends now' stamp'

/-- The datagrams of a message in three pieces. -/
def thirds : List Bytes := [third 0 [1, 2], third 1 [3, 4], third 2 [5, 6]]

def inThirds : List Op := [.send .data 2 [1, 2, 3, 4, 5, 6] 0]

/-- Each of the three comes once. -/
def copies : List Op := thirds.map (.receive · 0 0)

theorem sendsInPieces_thirds :
    splitter.SendsInPieces inThirds ⟨⟨7, 1, 2⟩, 0⟩ [1, 2, 3, 4, 5, 6] thirds := by
  have hsend : splitter.send .data 2 [1, 2, 3, 4, 5, 6] 0 = (.ok thirds, splitter.nextSequence.2) :=
    send_eq_ok_iff.mpr ⟨⟨by decide, by decide, by decide, by decide⟩, by decide +kernel, rfl⟩
  exact ⟨[], 0, [], _, rfl, hsend, by decide +kernel, by decide⟩

theorem genuine_copies : ∀ op ∈ copies ++ [.receive (third 0 [1, 2]) 1 0], splitter.Genuine inThirds op := by
  have hemitted : (splitter.run inThirds).1.flatMap Outcome.emitted = thirds := by decide +kernel
  intro op ho
  obtain ⟨datagram, hd, now, stamp, rfl⟩ : ∃ datagram ∈ thirds, ∃ now stamp, op = .receive datagram now stamp := by
    simp only [copies, thirds, List.map_cons, List.map_nil, List.cons_append, List.nil_append, List.mem_cons,
      List.not_mem_nil, or_false] at ho
    rcases ho with rfl | rfl | rfl | rfl <;> exact ⟨_, by simp [thirds], _, _, rfl⟩
  exact fun _ _ _ _ => hemitted ▸ hd

/-- A late copy opens the message anew. It is not handed out for that, and a further copy changes nothing. -/
theorem run_repeats_late :
    let B := new 7 2 {}
    let late : List Op := [.receive (third 0 [1, 2]) 1 0]
    splitter.Unrepeated inThirds ∧ (∀ op ∈ copies ++ late, splitter.Genuine inThirds op) ∧
      deliveries ⟨⟨7, 1, 2⟩, 0⟩ (B.run copies).1 = 1 ∧
      deliveries ⟨⟨7, 1, 2⟩, 0⟩ ((B.run copies).2.run late).1 ≤ arrivals (third 1 [3, 4]) late ∧
      (B.run (copies ++ late)).2.receive (third 0 [1, 2]) 2 0 = (.pending, (B.run (copies ++ late)).2) := by
  intro B late
  have hu : splitter.Unrepeated inThirds := ⟨by simp [inThirds], by decide +kernel⟩
  obtain ⟨hcount, hignored⟩ := run_repeats 2 {} hu sendsInPieces_thirds genuine_copies
  have hdelivered : deliveries ⟨⟨7, 1, 2⟩, 0⟩ (B.run copies).1 = 1 := by decide +kernel
  have hle := hcount copies late rfl (by decide +kernel) (third 1 [3, 4]) (by simp [thirds])
  have hagain := hignored copies (third 0 [1, 2]) 1 0 [] rfl (by simp [thirds]) (by decide +kernel) (by simp) .nil 2 0
  exact ⟨hu, genuine_copies, hdelivered, hle, hagain⟩

/-- A message is handed out twice when all its datagrams come twice. The first of them to come again opens an entry:
after the message was handed out, and also after it was given up because it is too long. -/
theorem repeats_not_ignored :
    let B := new 7 2 {}
    let C := new 7 2 { maxMessageSize := 4 }
    splitter.Unrepeated inThirds ∧ splitter.SendsInPieces inThirds ⟨⟨7, 1, 2⟩, 0⟩ [1, 2, 3, 4, 5, 6] thirds ∧
      (B.receive (third 0 [1, 2]) 0 0).1 = .pending ∧ (C.receive (third 0 [1, 2]) 0 0).1 = .pending ∧
      deliveries ⟨⟨7, 1, 2⟩, 0⟩ (B.run (copies ++ copies)).1 = 2 ∧
      ((B.run copies).2.receive (third 0 [1, 2]) 0 0).2.table ≠ (B.run copies).2.table ∧
      ((C.run copies).2.receive (third 0 [1, 2]) 0 0).2.table ≠ (C.run copies).2.table := by
  intro B C
  have hu : splitter.Unrepeated inThirds := ⟨by simp [inThirds], by decide +kernel⟩
  exact ⟨hu, sendsInPieces_thirds, by decide +kernel, by decide +kernel, by decide +kernel, by decide +kernel,
    by decide +kernel⟩

end LocalPlay.Endpoint
