import LocalPlay.Proofs.Endpoint.Exchange

/-! Delivery in any order. The datagrams of a message may come in any order and more than once, with anything else
in between that is no fragment of it: all but the last to come are kept, and the last one delivers the message. -/
namespace LocalPlay.Endpoint

/-- A run brings a datagram at some time. -/
def Arrives (datagram : Bytes) (ops : List Op) : Prop := ∃ now stamp, .receive datagram now stamp ∈ ops

theorem arrives_append {datagram : Bytes} {past : List Op} {op : Op} :
    Arrives datagram (past ++ [op]) ↔ Arrives datagram past ∨ Arrives datagram [op] := by
  simp only [Arrives, List.mem_append, exists_or]

theorem arrives_receive {datagram datagram' : Bytes} {now : Nat} {stamp : UInt64} :
    Arrives datagram [.receive datagram' now stamp] ↔ datagram = datagram' := by
  simp [Arrives]

/-- What happens between the first of some datagrams and the last one to come: all others come, any other fragment
is of another message, and no sweep is later than the timeout after the first. -/
structure Schedule (e : Endpoint) (key : MessageKey) (datagrams : List Bytes) (first last : Bytes) (start : Nat)
    (middle : List Op) : Prop where
  first_mem : first ∈ datagrams
  last_mem : last ∈ datagrams
  first_ne_last : first ≠ last
  last_new : ¬ Arrives last middle
  complete : ∀ datagram ∈ datagrams, datagram ≠ first → datagram ≠ last → Arrives datagram middle
  others : ∀ datagram, Arrives datagram middle → datagram ∉ datagrams →
    ∀ p, e.fragmentIn? datagram = some p → p.header.key ≠ key
  sweeps : ∀ now, .sweep now ∈ middle → now ≤ start + e.settings.reassemblyTimeout

/-- While a message is gathered, its datagrams are answered with nothing. -/
def Kept (datagrams : List Bytes) : Op → Outcome → Prop
  | .receive datagram _ _, outcome => datagram ∈ datagrams → outcome = .received .pending
  | _, _ => True

/-- The chunks whose datagrams came in these steps. -/
def Came (datagrams : List Bytes) (past : List Op) (i : Nat) : Prop :=
  ∃ datagram, datagrams[i]? = some datagram ∧ Arrives datagram past

theorem came_append {datagrams : List Bytes} {past : List Op} {op : Op} {i : Nat} :
    Came datagrams (past ++ [op]) i ↔ Came datagrams past i ∨ Came datagrams [op] i := by
  simp only [Came, arrives_append, exists_or, and_or_left]

theorem not_came {datagrams : List Bytes} {op : Op} (h : ∀ datagram, Arrives datagram [op] → datagram ∉ datagrams)
    (i : Nat) : ¬ Came datagrams [op] i := by
  rintro ⟨datagram, hi, ha⟩
  exact h datagram ha (List.mem_of_getElem? hi)

/-- The receiver knows which chunk of the message each of the datagrams brings. -/
structure Pieces (e : Endpoint) (key : MessageKey) (chunks datagrams : List Bytes) : Prop where
  length_eq : datagrams.length = chunks.length
  two_le : 2 ≤ chunks.length
  le_max : chunks.length ≤ maxFragments
  length_le : chunks.flatten.length ≤ e.settings.maxMessageSize
  brings : ∀ {i datagram}, datagrams[i]? = some datagram → e.Brings key chunks i datagram

section
variable {B e : Endpoint} {key : MessageKey} {chunks datagrams : List Bytes} {first last : Bytes} {start i : Nat}
  {past middle : List Op} {op : Op}

theorem Pieces.came_receive (hp : B.Pieces key chunks datagrams) {datagram : Bytes} {j : Nat}
    (hi : datagrams[i]? = some datagram) (now : Nat) (stamp : UInt64) :
    Came datagrams [.receive datagram now stamp] j ↔ j = i := by
  constructor
  · rintro ⟨datagram', hj, ha⟩
    obtain rfl := arrives_receive.mp ha
    exact (hp.brings hj).index_unique (hp.brings hi)
  · rintro rfl
    exact ⟨datagram, hi, arrives_receive.mpr rfl⟩

/-- The receiver after some of the steps: its table holds the chunks that came, and the last one did not. -/
structure Collecting (B : Endpoint) (key : MessageKey) (chunks datagrams : List Bytes) (last : Bytes) (start : Nat)
    (past : List Op) (e : Endpoint) : Prop where
  sound : Sound B.session B.node B.settings e
  holds : e.table.Holds key chunks start (Came datagrams past)
  last_new : ¬ Arrives last past

theorem Collecting.sameNode (h : Collecting B key chunks datagrams last start past e) : B.SameNode e :=
  ⟨h.sound.session_eq, h.sound.node_eq, h.sound.settings_eq⟩

/-- A step that brings none of the datagrams and leaves the entry alone. -/
private theorem Collecting.skip (h : Collecting B key chunks datagrams last start past e)
    (hl : last ∈ datagrams) (ha : ∀ datagram, Arrives datagram [op] → datagram ∉ datagrams)
    (ht : (e.step op).2.table.Holds key chunks start (Came datagrams past)) :
    Collecting B key chunks datagrams last start (past ++ [op]) (e.step op).2 where
  sound := h.sound.step op
  holds := ht.of_iff fun i _ => by simp only [came_append, not_came ha, or_false]
  last_new := by
    rw [arrives_append]
    rintro (hr | hr)
    · exact h.last_new hr
    · exact ha last hr hl

private theorem Collecting.settings_eq (h : Collecting B key chunks datagrams last start past e) :
    e.table.timeout = B.settings.reassemblyTimeout ∧ e.table.maxMessageSize = B.settings.maxMessageSize :=
  ⟨h.sound.limits.1, h.sound.limits.2.2⟩

/-- One of the datagrams comes that is not the last one. -/
private theorem Collecting.take (hp : B.Pieces key chunks datagrams) (hl : last ∈ datagrams)
    (h : Collecting B key chunks datagrams last start past e) {datagram : Bytes} (hd : datagram ∈ datagrams)
    (hne : datagram ≠ last) (now : Nat) (stamp : UInt64) :
    (e.receive datagram now stamp).1 = .pending ∧
      Collecting B key chunks datagrams last start (past ++ [.receive datagram now stamp])
        (e.step (.receive datagram now stamp)).2 := by
  obtain ⟨i, hi⟩ := List.mem_iff_getElem?.mp hd
  obtain ⟨j, hj⟩ := List.mem_iff_getElem?.mp hl
  have hm : ∃ j < chunks.length, j ≠ i ∧ ¬ Came datagrams past j := by
    refine ⟨j, hp.length_eq ▸ (List.getElem?_eq_some_iff.mp hj).1, ?_, ?_⟩
    · rintro rfl
      exact hne (Option.some.inj (hi.symm.trans hj))
    · rintro ⟨datagram', hj', ha⟩
      obtain rfl := Option.some.inj (hj.symm.trans hj')
      exact h.last_new ha
  have hb := (hp.brings hi).congr h.sameNode
  obtain ⟨ha, ht⟩ := hb.adds h.sound.wellFormed hp.two_le hp.le_max (h.settings_eq.2 ▸ hp.length_le) h.holds hm
    now stamp
  refine ⟨ha, h.sound.step _, ?_, ?_⟩
  · rw [step_receive]
    exact ht.of_iff fun k _ => by rw [came_append, hp.came_receive hi]
  · rw [arrives_append, arrives_receive]
    rintro (hr | rfl)
    · exact h.last_new hr
    · exact hne rfl

theorem Collecting.step (hp : B.Pieces key chunks datagrams)
    (hs : B.Schedule key datagrams first last start middle) (ho : op ∈ middle)
    (h : Collecting B key chunks datagrams last start past e) :
    Kept datagrams op (e.step op).1 ∧
      Collecting B key chunks datagrams last start (past ++ [op]) (e.step op).2 := by
  cases op with
  | receive datagram now stamp =>
    by_cases hd : datagram ∈ datagrams
    · have hne : datagram ≠ last := by
        rintro rfl
        exact hs.last_new ⟨now, stamp, ho⟩
      obtain ⟨ha, hc⟩ := h.take hp hs.last_mem hd hne now stamp
      refine ⟨?_, hc⟩
      intro _
      rw [step_receive, ha]
    · refine ⟨fun hd' => absurd hd' hd, h.skip hs.last_mem ?_ ?_⟩
      · intro datagram' ha
        rwa [arrives_receive.mp ha]
      · apply h.holds.congr
        rw [step_receive, receive_table, fragmentIn?_congr h.sameNode]
        cases hf : B.fragmentIn? datagram with
        | none => rfl
        | some p =>
          have hne := hs.others datagram ⟨now, stamp, ho⟩ hd p hf
          exact (Reassembly.Table.insertion e.table p now).find?_of_ne hne.symm
  | sweep now =>
    refine ⟨trivial, h.skip hs.last_mem (by simp [Arrives]) ?_⟩
    exact h.holds.sweep (h.settings_eq.1 ▸ hs.sweeps now ho)
  | send | sendError | setSequence | nextSequence =>
    refine ⟨trivial, h.skip hs.last_mem (by simp [Arrives]) ?_⟩
    rw [step_table_of_none rfl]
    exact h.holds

/-- The first of the datagrams to come opens the entry. -/
private theorem Pieces.collecting (hp : B.Pieces key chunks datagrams) (hB : B.Reachable)
    (hn : B.table.pending.find? key = none) (hr : B.table.size < B.settings.maxPendingReassemblies)
    (hf : first ∈ datagrams) (hne : first ≠ last) (now : Nat) (stamp : UInt64) :
    (B.step (.receive first now stamp)).1 = .received .pending ∧
      Collecting B key chunks datagrams last now [.receive first now stamp] (B.step (.receive first now stamp)).2 := by
  obtain ⟨i, hi⟩ := List.mem_iff_getElem?.mp hf
  have hs := hB.sound
  obtain ⟨-, hmax, hlim⟩ := hs.limits
  obtain ⟨ha, ht⟩ := (hp.brings hi).opens hs.wellFormed hp.two_le hp.le_max (hlim ▸ hp.length_le) hn (hmax ▸ hr)
    now stamp
  refine ⟨by rw [step_receive, ha], hs.step _, ?_, ?_⟩
  · rw [step_receive]
    exact ht.of_iff fun j _ => (hp.came_receive hi now stamp).symm
  · rw [arrives_receive]
    exact hne.symm

/-- When all others came, the last one delivers the message. -/
private theorem Collecting.deliver (hp : B.Pieces key chunks datagrams) (hl : last ∈ datagrams)
    (hc : ∀ datagram ∈ datagrams, datagram ≠ last → Arrives datagram past)
    (h : Collecting B key chunks datagrams last start past e) (now : Nat) (stamp : UInt64) :
    (e.step (.receive last now stamp)).1 = .received (.message key chunks.flatten) ∧
      (e.step (.receive last now stamp)).2.table.pending.find? key = none := by
  obtain ⟨i, hi⟩ := List.mem_iff_getElem?.mp hl
  have hnew : ¬ Came datagrams past i := by
    rintro ⟨datagram, hi', ha⟩
    obtain rfl := Option.some.inj (hi.symm.trans hi')
    exact h.last_new ha
  have hm : ∀ j < chunks.length, j ≠ i → Came datagrams past j := by
    intro j hj hne
    have hj' := List.getElem?_eq_getElem (hp.length_eq.symm ▸ hj : j < datagrams.length)
    refine ⟨_, hj', hc _ (List.getElem_mem _) ?_⟩
    intro heq
    exact hne ((hp.brings hj').index_unique (hp.brings (heq ▸ hi)))
  have hb := (hp.brings hi).congr h.sameNode
  obtain ⟨ha, ht⟩ := hb.completes h.sound.wellFormed hp.two_le hp.le_max (h.settings_eq.2 ▸ hp.length_le) h.holds hnew
    hm now stamp
  rw [step_receive, ha]
  exact ⟨rfl, by rw [ht, Reassembly.Table.find?_drop_self]⟩

/-- The run from the first datagram to the last one. -/
theorem Pieces.run (hp : B.Pieces key chunks datagrams) (hB : B.Reachable)
    (hn : B.table.pending.find? key = none) (hr : B.table.size < B.settings.maxPendingReassemblies)
    (hs : B.Schedule key datagrams first last start middle) (stamp₁ : UInt64) (stop : Nat) (stamp₂ : UInt64) :
    ∃ outcomes e, B.run (.receive first start stamp₁ :: middle ++ [.receive last stop stamp₂]) =
        (outcomes ++ [.received (.message key chunks.flatten)], e) ∧
      List.Forall₂ (Kept datagrams) (.receive first start stamp₁ :: middle) outcomes ∧
      e.table.pending.find? key = none := by
  obtain ⟨ha, hc⟩ := hp.collecting hB hn hr hs.first_mem hs.first_ne_last start stamp₁
  obtain ⟨hkept, hc⟩ := Machine.run_history (fun past e => Collecting B key chunks datagrams last start past e)
    (Kept datagrams) (fun op ho past e h => h.step hp hs ho) _ hc
  have hall : ∀ datagram ∈ datagrams, datagram ≠ last →
      Arrives datagram ([.receive first start stamp₁] ++ middle) := by
    intro datagram hd hne
    by_cases hf : datagram = first
    · exact ⟨start, stamp₁, by simp [hf]⟩
    · obtain ⟨now, stamp, hr⟩ := hs.complete datagram hd hf hne
      exact ⟨now, stamp, List.mem_append_right _ hr⟩
  obtain ⟨hl, he⟩ := hc.deliver hp hs.last_mem hall stop stamp₂
  refine ⟨_ :: _, _, ?_, .cons (fun _ => ha) hkept, he⟩
  rw [run_eq, Machine.run_append]
  simp only [Machine.run, hl, List.cons_append]

/-- Let `A` send a message in at most as many datagrams as a receiver gathers, and let `B` be an endpoint of the
session to which it is addressed, with room for it. However the datagrams come, each but the last one to come is
kept, and that one delivers the message. -/
theorem run_delivers {A A' : Endpoint} {dest : UInt8} {payload : Bytes} {stamp : UInt64}
    (hA : A.send .data dest payload stamp = (.ok datagrams, A')) (h2 : 2 ≤ datagrams.length)
    (hm : datagrams.length ≤ maxFragments) (hB : B.Reachable) (hsession : B.session = A.session)
    (hd : dest = B.node ∨ dest = broadcastNode) (hl : payload.length ≤ B.settings.maxMessageSize)
    (hk : ¬ B.table.contains (A.nextKey dest)) (hr : B.table.size < B.settings.maxPendingReassemblies)
    (hs : B.Schedule (A.nextKey dest) datagrams first last start middle) (stamp₁ : UInt64) (stop : Nat)
    (stamp₂ : UInt64) :
    let run := B.run (.receive first start stamp₁ :: middle ++ [.receive last stop stamp₂])
    ∃ outcomes, run.1 = outcomes ++ [.received (.message (A.nextKey dest) payload)] ∧
      List.Forall₂ (Kept datagrams) (.receive first start stamp₁ :: middle) outcomes ∧
      ¬ run.2.table.contains (A.nextKey dest) := by
  obtain ⟨hlen, -, -⟩ := getElem?_datagrams hA h2
  have hp : B.Pieces (A.nextKey dest) (A.chunkSize.chunks payload) datagrams :=
    ⟨hlen, hlen ▸ h2, hlen ▸ hm, by rwa [ChunkSize.flatten_chunks], brings_of_send hA hsession hd h2⟩
  have hn : B.table.pending.find? (A.nextKey dest) = none := by
    simpa [Reassembly.Table.contains, KeyedList.contains] using hk
  obtain ⟨outcomes, e, hrun, hkept, he⟩ := hp.run hB hn hr hs stamp₁ stop stamp₂
  rw [ChunkSize.flatten_chunks] at hrun
  simp only [hrun]
  refine ⟨outcomes, rfl, hkept, ?_⟩
  simp [Reassembly.Table.contains, KeyedList.contains, he]

end

/-- One of three datagrams with two bytes each, from node 1 to node 2. -/
def third (i : Nat) (chunk : Bytes) : Bytes := (Fragment.packet ⟨⟨7, 1, 2⟩, 0⟩ 0 3 i chunk).datagram

/-- Between the last of them and the second come garbage, the first and a repetition. -/
def interlude : List Op :=
  [.receive [9] 1 0, .receive (third 0 [1, 2]) 2 0, .sweep 5, .receive (third 2 [5, 6]) 4 0]

theorem schedule_interlude :
    (new 7 2 {}).Schedule ⟨⟨7, 1, 2⟩, 0⟩ [third 0 [1, 2], third 1 [3, 4], third 2 [5, 6]] (third 2 [5, 6])
      (third 1 [3, 4]) 0 interlude := by
  have ha (datagram : Bytes) : Arrives datagram interlude ↔ datagram ∈ [[9], third 0 [1, 2], third 2 [5, 6]] := by
    simp [Arrives, interlude, exists_or]
  refine ⟨by simp, by simp, by decide +kernel, ?_, ?_, ?_, by simp [interlude, new]⟩
  · rw [ha]
    decide +kernel
  · intro datagram hd hf hl
    obtain rfl : datagram = third 0 [1, 2] := by simpa [hf, hl] using hd
    simp [ha]
  · intro datagram hr hd p hp
    obtain rfl : datagram = [9] := by grind
    have hn : (new 7 2 {}).fragmentIn? [9] = none := by decide +kernel
    simp [hn] at hp

/-- Three datagrams, the last of them first. -/
theorem run_delivers_interlude :
    let run := (new 7 2 {}).run (.receive (third 2 [5, 6]) 0 0 :: interlude ++ [.receive (third 1 [3, 4]) 9 0])
    ∃ outcomes, run.1 = outcomes ++ [.received (.message ⟨⟨7, 1, 2⟩, 0⟩ [1, 2, 3, 4, 5, 6])] ∧
      List.Forall₂ (Kept [third 0 [1, 2], third 1 [3, 4], third 2 [5, 6]])
        (.receive (third 2 [5, 6]) 0 0 :: interlude) outcomes ∧
      ¬ run.2.table.contains ⟨⟨7, 1, 2⟩, 0⟩ := by
  have hA : (new 7 1 { maxPayloadSize := 2 }).send .data 2 [1, 2, 3, 4, 5, 6] 0 =
      (.ok [third 0 [1, 2], third 1 [3, 4], third 2 [5, 6]], _) :=
    send_eq_ok_iff.mpr ⟨⟨by decide, by decide, by decide, by decide⟩, by decide +kernel, rfl⟩
  have hk : (new 7 1 { maxPayloadSize := 2 }).nextKey 2 = ⟨⟨7, 1, 2⟩, 0⟩ := by decide +kernel
  have hn : ¬ (new 7 2 {}).table.contains ⟨⟨7, 1, 2⟩, 0⟩ := by decide +kernel
  rw [← hk] at hn ⊢
  have hB : (new 7 2 {}).Reachable := ⟨7, 2, {}, [], rfl⟩
  exact run_delivers hA (by decide) (by decide) hB rfl (.inl rfl) (by decide) hn (by decide)
    (hk ▸ schedule_interlude) 0 9 0

end LocalPlay.Endpoint
