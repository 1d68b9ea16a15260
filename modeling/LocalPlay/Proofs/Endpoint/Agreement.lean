import Mathlib.Data.List.Nodup
import LocalPlay.Proofs.Endpoint.Delivery
import LocalPlay.Proofs.Endpoint.Singles

/-! A sender and a receiver with the same settings. What the one sends the other takes, up to the number of
fragments that a receiver gathers: the sender does not look at that bound. -/
namespace LocalPlay.Endpoint

/-- Datagrams come one after the other. -/
def feed (arrivals : List (Bytes × Nat × UInt64)) : List Op :=
  arrivals.map fun (datagram, now, stamp) => .receive datagram now stamp

/-- No answer is a refusal, and the last one gives the payload: in a packet if it is the only one, else as a message. -/
structure Delivered (payload : Bytes) (outcomes : List Outcome) : Prop where
  not_rejected : ∀ reason answer, .received (.rejected reason answer) ∉ outcomes
  last : if outcomes.length = 1 then ∃ p, outcomes.getLast? = some (.received (.packet p)) ∧ p.payload = payload
    else ∃ key, outcomes.getLast? = some (.received (.message key payload))

theorem not_delivered_of_rejected {payload : Bytes} {outcomes : List Outcome}
    (h : ∀ outcome ∈ outcomes, ∃ reason answer, outcome = .received (.rejected reason answer)) :
    ¬ Delivered payload outcomes := by
  intro hd
  have hlast := hd.last
  split at hlast
  · obtain ⟨p, hp, -⟩ := hlast
    obtain ⟨reason, answer, ho⟩ := h _ (List.mem_of_getLast? hp)
    simp at ho
  · obtain ⟨key, hk⟩ := hlast
    obtain ⟨reason, answer, ho⟩ := h _ (List.mem_of_getLast? hk)
    simp at ho

theorem Pieces.nodup {B : Endpoint} {key : MessageKey} {chunks datagrams : List Bytes}
    (hp : B.Pieces key chunks datagrams) : datagrams.Nodup := by
  rw [List.nodup_iff_getElem?_ne_getElem?]
  intro i j hij hj heq
  have hj := List.getElem?_eq_getElem hj
  exact Nat.ne_of_lt hij ((hp.brings (heq.trans hj)).index_unique (hp.brings hj))

section
variable {A A' B : Endpoint} {dest : UInt8} {payload : Bytes} {stamp : UInt64} {datagrams : List Bytes}
  {arrivals : List (Bytes × Nat × UInt64)}

/-- A payload in one datagram is taken as a packet. -/
theorem receive_of_single {datagram : Bytes} (h : A.send .data dest payload stamp = (.ok [datagram], A'))
    (hs : B.session = A.session) (hd : dest = B.node ∨ dest = broadcastNode) (now : Nat) (stamp' : UInt64) :
    ∃ p, (B.receive datagram now stamp').1 = .packet p ∧ p.payload = payload := by
  obtain ⟨p, hread, hf, hkind, -, -, hp⟩ := read_of_single h hs hd
  have hr := receive_packet hread hf (by simp [hkind]) (by simp [hkind]) now stamp'
  exact ⟨p, congrArg Prod.fst hr, hp⟩

theorem arrives_feed {datagram : Bytes} : Arrives datagram (feed arrivals) ↔ datagram ∈ arrivals.map Prod.fst := by
  simp [Arrives, feed]

private theorem pending_of_kept (hd : ∀ datagram ∈ arrivals.map Prod.fst, datagram ∈ datagrams)
    {outcomes : List Outcome} (h : List.Forall₂ (Kept datagrams) (feed arrivals) outcomes) :
    ∀ outcome ∈ outcomes, outcome = .received .pending := by
  induction arrivals generalizing outcomes with
  | nil =>
    cases h
    simp
  | cons arrival rest ih =>
    obtain ⟨ha, hr⟩ := List.forall_mem_cons.mp hd
    cases h with
    | cons hk ht => exact List.forall_mem_cons.mpr ⟨hk ha, ih hr ht⟩

/-- Fragments that come in order are a schedule, so they deliver the message. -/
theorem Pieces.delivered {key : MessageKey} {chunks : List Bytes}
    (hp : B.Pieces key chunks (arrivals.map Prod.fst)) (hB : B.Reachable) (hn : B.table.pending.find? key = none)
    (hr : B.table.size < B.settings.maxPendingReassemblies) :
    Delivered chunks.flatten (B.run (feed arrivals)).1 := by
  have hnodup := hp.nodup
  have h2 := hp.length_eq.symm ▸ hp.two_le
  rcases arrivals with _ | ⟨first, rest⟩
  · simp at h2
  rcases rest.eq_nil_or_concat' with rfl | ⟨middle, last, rfl⟩
  · simp at h2
  simp only [List.map_cons, List.map_append, List.map_nil, List.nodup_cons, List.mem_append,
    List.nodup_append, List.mem_singleton] at hnodup
  obtain ⟨hfirst, -, -, hlast⟩ := hnodup
  have hs : B.Schedule key ((first :: (middle ++ [last])).map Prod.fst) first.1 last.1 first.2.1 (feed middle) := by
    refine ⟨by simp, by simp, fun h => hfirst (.inr h), ?_, ?_, ?_, ?_⟩
    · rw [arrives_feed]
      exact fun h => hlast last.1 h last.1 rfl rfl
    · intro datagram hd hf hl
      rw [arrives_feed]
      simpa [hf, hl] using hd
    · intro datagram ha hd
      rw [arrives_feed] at ha
      exact absurd (by simp [ha]) hd
    · simp [feed]
  obtain ⟨outcomes, e, hrun, hkept, -⟩ := hp.run hB hn hr hs first.2.2 last.2.1 last.2.2
  have hfeed : feed (first :: (middle ++ [last])) =
      .receive first.1 first.2.1 first.2.2 :: feed middle ++ [.receive last.1 last.2.1 last.2.2] := by
    simp [feed]
  rw [hfeed, hrun]
  have hpending : ∀ outcome ∈ outcomes, outcome = .received .pending := by
    refine pending_of_kept ?_ (show List.Forall₂ _ (feed (first :: middle)) outcomes from hkept)
    intro datagram hd
    rw [← List.cons_append, List.map_append]
    exact List.mem_append_left _ hd
  have hlen := hkept.length_eq
  constructor
  · intro reason answer ho
    rcases List.mem_append.mp ho with ho | ho
    · simpa using hpending _ ho
    · simp at ho
  · rw [if_neg (by simp [← hlen])]
    exact ⟨key, List.getLast?_concat ..⟩

/-- Every fragment of a message that has too many is refused. -/
theorem refused_of_too_many (h : A.send .data dest payload stamp = (.ok (arrivals.map Prod.fst), A'))
    (hs : B.session = A.session) (hd : dest = B.node ∨ dest = broadcastNode)
    (hm : maxFragments < A.chunkSize.count payload.length) :
    ∀ outcome ∈ (B.run (feed arrivals)).1, ∃ answer, outcome =
      .received (.rejected (.protocol (.tooManyFragments (A.chunkSize.count payload.length))) answer) := by
  have h2 : 2 ≤ (arrivals.map Prod.fst).length := by
    rw [length_of_send h]
    simp only [maxFragments] at hm
    omega
  have hstep : ∀ op ∈ feed arrivals, ∀ e, B.SameNode e →
      (∃ answer, (e.step op).1 =
        .received (.rejected (.protocol (.tooManyFragments (A.chunkSize.count payload.length))) answer)) ∧
        B.SameNode (e.step op).2 := by
    intro op ho e he
    obtain ⟨⟨datagram, now, stamp'⟩, ha, rfl⟩ := List.mem_map.mp ho
    obtain ⟨i, hi⟩ := List.mem_iff_getElem?.mp (List.mem_map_of_mem ha)
    have hb := (brings_of_send h hs hd h2 hi).congr he
    obtain ⟨answer, hr⟩ := hb.refused (ChunkSize.length_chunks .. ▸ hm) now stamp'
    rw [ChunkSize.length_chunks] at hr
    exact ⟨⟨answer, by rw [step_receive, hr]⟩, he.trans (e.step_sameNode _)⟩
  rw [run_eq]
  exact Machine.forall_answers (Machine.run_invariant _ _ hstep ⟨rfl, rfl, rfl⟩).1

private theorem delivered_of_le (h : A.send .data dest payload stamp = (.ok (arrivals.map Prod.fst), A'))
    (hB : B.Reachable) (hs : B.session = A.session) (hd : dest = B.node ∨ dest = broadcastNode)
    (hl : payload.length ≤ B.settings.maxMessageSize) (hn : B.table.pending.find? (A.nextKey dest) = none)
    (hr : B.table.size < B.settings.maxPendingReassemblies) (hm : A.chunkSize.count payload.length ≤ maxFragments) :
    Delivered payload (B.run (feed arrivals)).1 := by
  have hlen := length_of_send h
  by_cases h2 : 2 ≤ (arrivals.map Prod.fst).length
  · obtain ⟨hc, -, -⟩ := getElem?_datagrams h h2
    have hp : B.Pieces (A.nextKey dest) (A.chunkSize.chunks payload) (arrivals.map Prod.fst) :=
      ⟨hc, hc ▸ h2, ChunkSize.length_chunks .. ▸ hm, by rwa [ChunkSize.flatten_chunks], brings_of_send h hs hd h2⟩
    have hdelivered := hp.delivered hB hn hr
    rwa [ChunkSize.flatten_chunks] at hdelivered
  · obtain ⟨⟨datagram, now, stamp'⟩, rfl⟩ : ∃ arrival, arrivals = [arrival] := by
      rw [← List.length_eq_one_iff]
      rw [List.length_map] at hlen h2
      omega
    obtain ⟨p, hp, hpayload⟩ := receive_of_single h hs hd now stamp'
    have hrun : (B.run (feed [(datagram, now, stamp')])).1 = [.received (.packet p)] := by
      simp only [feed, List.map_cons, List.map_nil, run_eq, Machine.run, step_receive, hp]
    rw [hrun]
    exact ⟨by simp, by simpa using hpayload⟩

/-- Let a new endpoint with room for a message be fed what another one with the same settings sends it. The payload
is delivered exactly if it makes no more fragments than a receiver gathers, and of more each one is refused: the
sender lets through all that its own bounds on length allow. -/
theorem delivered_iff {session : UInt32} {a b : UInt8} {settings : Settings}
    (hr : 1 ≤ settings.maxPendingReassemblies)
    (h : (new session a settings).send .data b payload stamp = (.ok (arrivals.map Prod.fst), A')) :
    let count := (ChunkSize.clamp settings.maxPayloadSize).count payload.length
    let outcomes := ((new session b settings).run (feed arrivals)).1
    arrivals.length = max 1 count ∧ (Delivered payload outcomes ↔ count ≤ maxFragments) ∧
      (maxFragments < count → ∀ outcome ∈ outcomes, ∃ answer, outcome =
        .received (.rejected (.protocol (.tooManyFragments count)) answer)) := by
  have hlen := length_of_send h
  rw [List.length_map] at hlen
  have hs : (new session b settings).session = (new session a settings).session := rfl
  have hd : b = (new session b settings).node ∨ b = broadcastNode := .inl rfl
  have hl := (send_eq_ok_iff.mp h).1.length_le
  have hB : (new session b settings).Reachable := ⟨session, b, settings, [], rfl⟩
  have hn : (new session b settings).table.pending.find? ((new session a settings).nextKey b) = none :=
    KeyedList.find?_empty _
  have hdelivered := delivered_of_le h hB hs hd hl hn hr
  have hrefused := refused_of_too_many h hs hd
  refine ⟨hlen, ⟨?_, hdelivered⟩, hrefused⟩
  intro hd
  apply Nat.not_lt.mp
  intro hm
  exact not_delivered_of_rejected (fun outcome ho => ⟨_, hrefused hm outcome ho⟩) hd

end

/-- In fragments of one byte, a message of 1025 bytes is sent, and its receiver refuses it. -/
theorem not_delivered_single_bytes :
    ∃ arrivals A', (new 7 1 { maxPayloadSize := 1 }).send .data 2 (List.replicate 1025 0) 0 =
        (.ok (arrivals.map Prod.fst), A') ∧
      ¬ Delivered (List.replicate 1025 0) ((new 7 2 { maxPayloadSize := 1 }).run (feed arrivals)).1 := by
  let settings : Settings := { maxPayloadSize := 1 }
  have hs : (new 7 1 settings).Sendable .data (List.replicate 1025 0) := by
    refine ⟨by decide, ?_, by decide, ?_⟩ <;> rw [List.length_replicate] <;> decide
  obtain ⟨datagrams, A', h⟩ : ∃ datagrams A', (new 7 1 settings).send .data 2 (List.replicate 1025 0) 0 =
      (.ok datagrams, A') := ⟨_, _, send_eq_ok_iff.mpr ⟨hs, rfl, rfl⟩⟩
  let arrivals : List (Bytes × Nat × UInt64) := datagrams.map (·, 0, 0)
  have hmap : arrivals.map Prod.fst = datagrams := by simp [arrivals, Function.comp_def]
  rw [← hmap] at h
  refine ⟨_, _, h, fun hd => ?_⟩
  have hm := (delivered_iff (by decide) h).2.1.mp hd
  rw [List.length_replicate] at hm
  exact absurd hm (by decide)

end LocalPlay.Endpoint
