import LocalPlay.Proofs.Endpoint.Numbering
import LocalPlay.Proofs.Reassembly.Gathering

/-! Message integrity over a network that loses, repeats, reorders and delays datagrams, and forges those of other
sources. The entries of a table gather messages that were sent, so what is handed out was sent. -/
namespace LocalPlay.Endpoint
variable {A : Endpoint} {opsA : List Op} {p : Packet}

/-- A datagram that arrives in the name of a node was put on the network by the node's run. -/
def Genuine (A : Endpoint) (opsA : List Op) : Op → Prop
  | .receive datagram _ _ => ∀ p, Packet.deserialize datagram = .ok p → p.header.session = A.session →
      p.header.source = A.node → datagram ∈ (A.run opsA).1.flatMap Outcome.emitted
  | _ => True

/-- A message or packet that is handed out in the name of a node is what the one step of its run that took the
sequence number sent to that destination. -/
def Faithful (A : Endpoint) (opsA : List Op) : Outcome → Prop
  | .received (.message key data) => key.source = A.node →
      ∃ stamp, A.takers opsA key.sequence = [.send .data key.dest data stamp]
  | .received (.packet p) => p.header.source = A.node →
      ∃ kind stamp, p.header.kind? = some kind ∧
        A.takers opsA p.header.sequence = [.send kind p.header.dest p.payload stamp]
  | _ => True

/-- What a table gathers in the name of a node is what the node's run sends. -/
def GathersSent (A : Endpoint) (opsA : List Op) (t : Reassembly.Table) : Prop :=
  ∀ key e payload stamp, t.pending.find? key = some e → key.source = A.node →
    (key.sequence, .send .data key.dest payload stamp) ∈ A.numbered opsA →
    e.Gathers (A.chunkSize.chunks payload)

/-- The run never sets the sequencer, and takes no number twice. -/
structure Unrepeated (A : Endpoint) (opsA : List Op) : Prop where
  not_set : ∀ value, .setSequence value ∉ opsA
  length_le : (A.numbered opsA).length ≤ UInt32.size

theorem Unrepeated.takers_eq (h : A.Unrepeated opsA) {number : UInt32} {op : Op}
    (ho : (number, op) ∈ A.numbered opsA) : A.takers opsA number = [op] :=
  A.takers_eq_singleton h.not_set h.length_le ho

theorem Genuine.sent {datagram : Bytes} {now : Nat} {stamp : UInt64}
    (h : A.Genuine opsA (.receive datagram now stamp)) (hd : Packet.deserialize datagram = .ok p)
    (hs : p.header.session = A.session) (hn : p.header.source = A.node) (he : p.header.kind? ≠ some .error) :
    ∃ kind payload, A.Sent opsA kind payload p := by
  rcases emitted_run (h p hd hs hn) with ⟨kind, payload, q, hq, hsent⟩ | ⟨q, hq, hk⟩
  · obtain rfl := Except.ok.inj (hd.symm.trans hq)
    exact ⟨kind, payload, hsent⟩
  · obtain rfl := Except.ok.inj (hd.symm.trans hq)
    exact absurd hk he

/-- A fragment that was sent carries a chunk of data that was sent. -/
theorem Sent.carries {kind : PacketKind} {payload : Bytes} (h : A.Sent opsA kind payload p)
    (hk : p.header.kind? = some .fragment) :
    p.Carries (A.chunkSize.chunks payload) ∧
      ∃ stamp, (p.header.sequence, .send .data p.header.dest payload stamp) ∈ A.numbered opsA := by
  rcases h with ⟨-, -, ⟨hk', hne, -⟩ | ⟨-, rfl, hc⟩, hm⟩
  · exact absurd (Option.some.inj (hk'.symm.trans hk)) hne
  · exact ⟨hc, hm⟩

/-- A packet that was sent and is no fragment holds what was sent. -/
theorem Sent.whole {kind : PacketKind} {payload : Bytes} (h : A.Sent opsA kind payload p)
    (hk : p.header.kind? ≠ some .fragment) :
    p.header.kind? = some kind ∧
      ∃ stamp, (p.header.sequence, .send kind p.header.dest p.payload stamp) ∈ A.numbered opsA := by
  rcases h with ⟨-, -, ⟨hk', -, rfl⟩ | ⟨hk', -⟩, hm⟩
  · exact ⟨hk', hm⟩
  · exact absurd hk' hk

theorem GathersSent.insertion {t t' : Reassembly.Table} {now : Nat}
    {answer : Except SessionError (Option Bytes)} (hu : A.Unrepeated opsA) (h : t.WellFormed)
    (hg : A.GathersSent opsA t) (hi : Reassembly.Table.Insertion t p now answer t')
    (hk : p.header.kind? = some .fragment)
    (hp : p.header.source = A.node → ∃ kind payload, A.Sent opsA kind payload p) :
    A.GathersSent opsA t' ∧
      ∀ data, answer = .ok (some data) → A.Faithful opsA (.received (.message p.header.key data)) := by
  by_cases hn : p.header.source = A.node
  · obtain ⟨kind, payload, hsent⟩ := hp hn
    obtain ⟨hc, stamp, hm⟩ := hsent.carries hk
    obtain ⟨he, hd⟩ := hi.gathers h hc fun e he => hg _ e payload stamp he hn hm
    constructor
    · intro key e payload' stamp' hf hs hm'
      by_cases hkey : key = p.header.key
      · subst hkey
        -- the number determines the message
        have ho := List.singleton_inj.mp ((hu.takers_eq hm).symm.trans (hu.takers_eq hm'))
        obtain rfl : payload = payload' := (Op.send.inj ho).2.2.1
        exact he e hf
      · exact hg key e payload' stamp' (hi.find?_of_ne hkey ▸ hf) hs hm'
    · intro data ha _
      obtain rfl := hd data ha
      rw [ChunkSize.flatten_chunks]
      exact ⟨stamp, hu.takers_eq hm⟩
  · refine ⟨?_, fun data _ hs => absurd hs hn⟩
    intro key e payload stamp hf hs hm
    have hkey : key ≠ p.header.key := by
      rintro rfl
      exact hn hs
    exact hg key e payload stamp (hi.find?_of_ne hkey ▸ hf) hs hm

theorem GathersSent.sweep {t : Reassembly.Table} (hg : A.GathersSent opsA t) (now : Nat) :
    A.GathersSent opsA (t.sweep now).2 := by
  intro key e payload stamp hf hs hm
  rw [Reassembly.Table.find?_sweep, Option.filter_eq_some_iff] at hf
  exact hg key e payload stamp hf.1 hs hm

/-- What a datagram leads to is faithful, and leaves the table gathering what was sent. -/
theorem Receiving.faithful {e e' : Endpoint} {datagram : Bytes} {now : Nat} {stamp : UInt64}
    {reception : Reception} (hu : A.Unrepeated opsA) (hr : Receiving e datagram now stamp reception e')
    (h : e.table.WellFormed) (hs : e.session = A.session) (hg : A.GathersSent opsA e.table)
    (hn : A.Genuine opsA (.receive datagram now stamp)) :
    A.Faithful opsA (.received reception) ∧ A.GathersSent opsA e'.table := by
  have hsent {p : Packet} (hd : Packet.deserialize datagram = .ok p) (hf : e.fault? p = none)
      (he : p.header.kind? ≠ some .error) (hn' : p.header.source = A.node) :
      ∃ kind payload, A.Sent opsA kind payload p :=
    hn.sent hd ((fault?_eq_none_iff.mp hf).2.1.trans hs) hn' he
  have hins {p : Packet} (hd : Packet.deserialize datagram = .ok p) (hf : e.fault? p = none)
      (hk : p.header.kind? = some .fragment) :=
    hg.insertion hu h (Reassembly.Table.insertion e.table p now) hk (hsent hd hf (by simp [hk]))
  cases hr with
  | unreadable | report => exact ⟨trivial, hg⟩
  | refused | badReport => exact ⟨trivial, (e.reply_advances _ _ stamp).table_eq ▸ hg⟩
  | delivered hd hf hk he =>
    refine ⟨?_, hg⟩
    intro hn'
    obtain ⟨kind, payload, hp⟩ := hsent hd hf he hn'
    obtain ⟨hkind, stamp, hm⟩ := hp.whole hk
    exact ⟨kind, stamp, hkind, hu.takers_eq hm⟩
  | completed hd hf hk hi => exact ⟨(hins hd hf hk).2 _ hi, (hins hd hf hk).1⟩
  | stored hd hf hk => exact ⟨trivial, (hins hd hf hk).1⟩
  | dropped hd hf hk =>
    refine ⟨trivial, ?_⟩
    rw [(reply_advances _ _ _ stamp).table_eq]
    exact (hins hd hf hk).1

theorem GathersSent.step {e : Endpoint} {op : Op} (hu : A.Unrepeated opsA) (h : e.table.WellFormed)
    (hs : e.session = A.session) (hg : A.GathersSent opsA e.table) (hn : A.Genuine opsA op) :
    A.Faithful opsA (e.step op).1 ∧ A.GathersSent opsA (e.step op).2.table := by
  cases op with
  | receive datagram now stamp =>
    rw [step_receive]
    exact (e.receiving datagram now stamp).faithful hu h hs hg hn
  | send | sendError =>
    rw [step_table_of_none rfl]
    simp only [step_send, step_sendError]
    exact ⟨trivial, hg⟩
  | sweep now => exact ⟨trivial, hg.sweep now⟩
  | setSequence | nextSequence => exact ⟨trivial, hg⟩

/-- Let a run of `A` take no number twice, and let whatever reaches `B` in the name of `A` have been put on the
network by that run, in any order and any number of times. Then all that `B` hands out in the name of `A` is what
`A` sent to that destination under that number. -/
theorem run_faithful (A : Endpoint) (opsA : List Op) (node : UInt8) (settings : Settings) (opsB : List Op)
    (hu : A.Unrepeated opsA) (hn : ∀ op ∈ opsB, A.Genuine opsA op) :
    ∀ outcome ∈ ((new A.session node settings).run opsB).1, A.Faithful opsA outcome := by
  have hstep : ∀ op ∈ opsB, ∀ e, (Sound A.session node settings e ∧ A.GathersSent opsA e.table) →
      A.Faithful opsA (e.step op).1 ∧
        (Sound A.session node settings (e.step op).2 ∧ A.GathersSent opsA (e.step op).2.table) := by
    rintro op hop e ⟨hs, hg⟩
    obtain ⟨hf, ht⟩ := hg.step hu hs.wellFormed hs.session_eq (hn op hop)
    exact ⟨hf, hs.step op, ht⟩
  have hnew : A.GathersSent opsA (new A.session node settings).table := by
    intro key e payload stamp hf
    simp [new, Reassembly.Table.ofSettings, Reassembly.Table.new] at hf
  rw [run_eq]
  exact Machine.forall_answers (Machine.run_invariant _ (fun _ => A.Faithful opsA) hstep ⟨.of_new .., hnew⟩).1

/-- A node that splits what is longer than two bytes. -/
def splitter : Endpoint := new 7 1 { maxPayloadSize := 2 }

def splitterSends : List Op := [.send .data 2 [1, 2, 3] 0, .send .ack 2 [4] 0]

/-- Its datagrams, in reverse order and each one twice. -/
def reversedArrivals : List Op :=
  ((splitter.run splitterSends).1.flatMap Outcome.emitted).reverse.flatMap fun d => [.receive d 0 0, .receive d 0 0]

theorem run_faithful_reversed :
    splitter.Unrepeated splitterSends ∧ (∀ op ∈ reversedArrivals, splitter.Genuine splitterSends op) ∧
      ((new 7 2 {}).run reversedArrivals).1.any (· matches .received (.message _ [1, 2, 3])) ∧
      ∀ outcome ∈ ((new 7 2 {}).run reversedArrivals).1, splitter.Faithful splitterSends outcome := by
  have hu : splitter.Unrepeated splitterSends := ⟨by simp [splitterSends], by decide +kernel⟩
  have hn : ∀ op ∈ reversedArrivals, splitter.Genuine splitterSends op := by
    intro op ho
    obtain ⟨d, hd, ho⟩ := List.mem_flatMap.mp ho
    obtain rfl : op = .receive d 0 0 := by simpa using ho
    exact fun _ _ _ _ => List.mem_reverse.mp hd
  exact ⟨hu, hn, by decide +kernel, run_faithful splitter splitterSends 2 {} reversedArrivals hu hn⟩

end LocalPlay.Endpoint
