import LocalPlay.Proofs.Endpoint.Emission

/-! The sequence numbers of an endpoint. Each step that sends fewer than 2^32 bytes takes one number or none, and its
answer shows which: what is sent, reported or answered bears the number, and what is refused has taken none. The numbers
follow each other from the last one that was set, so that of 2^32 in a row no two are the same and none is left out. -/
namespace LocalPlay

namespace ChunkSize

theorem packets_ne_nil (c : ChunkSize) (kind : PacketKind) (key : MessageKey) (stamp : UInt64) (payload : Bytes) :
    c.packets kind key stamp payload ≠ [] := by
  by_cases hl : c.bytes < payload.length
  · have h2 := two_le_count hl
    rw [← length_chunks] at h2
    apply List.ne_nil_of_length_pos
    rw [packets_of_exceeds hl, List.length_mapIdx]
    omega
  · simp [packets_of_fits (Nat.not_lt.mp hl)]

end ChunkSize

namespace Endpoint

/-- The datagram is read as a packet with this sequence number. -/
def CarriesNumber (number : UInt32) (datagram : Bytes) : Prop :=
  ∃ p, Packet.deserialize datagram = .ok p ∧ p.header.sequence = number

/-- The answer says that a number was taken: something was sent, reported or answered, or the number was asked for. -/
def Outcome.takes : Outcome → Bool
  | sent (.ok _) | errorSent (.ok _) | received (.rejected _ (some _)) | sequenceTaken _ => true
  | _ => false

/-- The answer shows the number: it is the one asked for, or all datagrams that go out carry it. -/
def Outcome.Bears (number : UInt32) : Outcome → Prop
  | sequenceTaken taken => taken = number
  | outcome => outcome.emitted ≠ [] ∧ ∀ datagram ∈ outcome.emitted, CarriesNumber number datagram

/-- A payload that is not sent: a fragment, one that is too long, or a control payload that takes more than one
packet. One packet takes as many bytes as the settings say, but at least one and no more than any packet may. -/
def Refuses (e : Endpoint) (kind : PacketKind) (payload : Bytes) : Prop :=
  kind = .fragment ∨ e.settings.maxMessageSize < payload.length ∨
    kind.isControl = true ∧ max 1 (min e.settings.maxPayloadSize maxPayloadLength) < payload.length

/-- A step that sends less than 2^32 bytes, if it sends. -/
def Op.Short : Op → Prop
  | .send _ _ payload _ => payload.length < UInt32.size
  | _ => True

/-- What each step answers, and how it leaves the sequencer. -/
inductive Numbers (e : Endpoint) : Op → Outcome → Sequencer → Prop where
  | refused {kind : PacketKind} {dest : UInt8} {payload : Bytes} {stamp : UInt64} {reason : SessionError}
      (hr : e.Refuses kind payload) :
      Numbers e (.send kind dest payload stamp) (.sent (.error reason)) e.sequencer
  | sent {kind : PacketKind} {dest : UInt8} {payload : Bytes} {stamp : UInt64} {datagrams : List Bytes}
      (hr : ¬ e.Refuses kind payload) (hb : (Outcome.sent (.ok datagrams)).Bears e.sequencer.peek) :
      Numbers e (.send kind dest payload stamp) (.sent (.ok datagrams)) e.sequencer.next.2
  | reported {dest : UInt8} {code : ErrorCode} {message : String} {stamp : UInt64} {datagram : Bytes}
      (hb : (Outcome.errorSent (.ok datagram)).Bears e.sequencer.peek) :
      Numbers e (.sendError dest code message stamp) (.errorSent (.ok datagram)) e.sequencer.next.2
  | answered {datagram : Bytes} {now : Nat} {stamp : UInt64} {reason : SessionError} {answer : Bytes}
      (hb : (Outcome.received (.rejected reason (some answer))).Bears e.sequencer.peek) :
      Numbers e (.receive datagram now stamp) (.received (.rejected reason (some answer))) e.sequencer.next.2
  | unanswered {datagram : Bytes} {now : Nat} {stamp : UInt64} {reception : Reception}
      (hr : ∀ reason answer, reception ≠ .rejected reason (some answer)) :
      Numbers e (.receive datagram now stamp) (.received reception) e.sequencer
  | swept {now : Nat} {expired : List SessionError} : Numbers e (.sweep now) (.swept expired) e.sequencer
  | set {value : UInt32} : Numbers e (.setSequence value) .sequenceSet (.resumeAfter value)
  | taken : Numbers e .nextSequence (.sequenceTaken e.sequencer.peek) e.sequencer.next.2

section
variable {e : Endpoint} {kind : PacketKind} {dest : UInt8} {payload : Bytes} {stamp : UInt64}

theorem sendable_iff_not_refuses (h : payload.length < UInt32.size) :
    e.Sendable kind payload ↔ ¬ e.Refuses kind payload := by
  have hc := Nat.lt_of_le_of_lt (e.chunkSize.count_le_length payload.length) h
  simp only [Refuses, ← e.bytes_chunkSize, not_or, not_and, Nat.not_lt]
  constructor
  · intro hs
    exact ⟨hs.not_fragment, hs.length_le, hs.control⟩
  · rintro ⟨hk, hl, hi⟩
    exact ⟨hk, hl, hi, hc⟩

theorem send_of_refuses (h : e.Refuses kind payload) (dest : UInt8) (stamp : UInt64) :
    ∃ reason, e.send kind dest payload stamp = (.error reason, e) := by
  rw [Refuses, ← e.bytes_chunkSize] at h
  simp only [send, ChunkSize.exceededBy, decide_eq_true_eq]
  split
  · exact ⟨_, rfl⟩
  split
  · exact ⟨_, rfl⟩
  split
  · exact ⟨_, rfl⟩
  · rename_i hk hl hc
    rcases h with h | h | h
    · exact absurd h hk
    · exact absurd h hl
    · exact absurd h hc

theorem step_send_numbers (h : payload.length < UInt32.size) (dest : UInt8) (stamp : UInt64) :
    e.Numbers (.send kind dest payload stamp) (e.step (.send kind dest payload stamp)).1
      (e.step (.send kind dest payload stamp)).2.sequencer := by
  rw [step_send]
  by_cases hr : e.Refuses kind payload
  · obtain ⟨reason, hs⟩ := send_of_refuses hr dest stamp
    rw [hs]
    exact .refused hr
  · have hs : e.send kind dest payload stamp =
        (.ok ((e.chunkSize.packets kind (e.nextKey dest) stamp payload).map Packet.datagram), e.nextSequence.2) :=
      send_eq_ok_iff.mpr ⟨(sendable_iff_not_refuses h).mpr hr, rfl, rfl⟩
    rw [hs]
    refine .sent hr ⟨?_, ?_⟩
    · simpa [Outcome.emitted] using e.chunkSize.packets_ne_nil kind (e.nextKey dest) stamp payload
    · intro datagram hd
      obtain ⟨p, hp, rfl⟩ := List.mem_map.mp hd
      exact ⟨p, ChunkSize.deserialize_of_mem_packets hp, congrArg (·.sequence) (ChunkSize.key_of_mem_packets hp)⟩

end

theorem carriesNumber_errorPacket (e : Endpoint) (session : UInt32) (dest : UInt8) (code : ErrorCode)
    (message : String) (stamp : UInt64) :
    CarriesNumber e.sequencer.peek (e.errorPacket session dest code message stamp).datagram :=
  ⟨_, e.deserialize_errorPacket session dest code message stamp, rfl⟩

theorem step_sendError_numbers (e : Endpoint) (dest : UInt8) (code : ErrorCode) (message : String) (stamp : UInt64) :
    e.Numbers (.sendError dest code message stamp) (e.step (.sendError dest code message stamp)).1
      (e.step (.sendError dest code message stamp)).2.sequencer := by
  rw [step_sendError, sendError, sendErrorIn_eq]
  refine .reported ⟨by simp [Outcome.emitted], ?_⟩
  intro datagram hd
  obtain rfl := List.mem_singleton.mp hd
  exact e.carriesNumber_errorPacket ..

/-- A refusal takes a number exactly if it is answered. -/
theorem reply_numbers (e : Endpoint) (t : Reassembly.Table) (h : Header) (reason : SessionError) (datagram : Bytes)
    (now : Nat) (stamp : UInt64) :
    e.Numbers (.receive datagram now stamp)
      (.received (.rejected reason ({ e with table := t }.reply h reason stamp).1))
      ({ e with table := t }.reply h reason stamp).2.sequencer := by
  rw [reply_eq]
  split
  · refine .answered ⟨by simp [Outcome.emitted], ?_⟩
    intro answer ha
    obtain rfl := List.mem_singleton.mp ha
    exact carriesNumber_errorPacket ..
  · exact .unanswered (by simp)

theorem Receiving.numbers {e e' : Endpoint} {datagram : Bytes} {now : Nat} {stamp : UInt64} {reception : Reception}
    (h : Receiving e datagram now stamp reception e') :
    e.Numbers (.receive datagram now stamp) (.received reception) e'.sequencer := by
  cases h with
  | unreadable | report | delivered | completed | stored => exact .unanswered (by simp)
  | refused | badReport => exact e.reply_numbers e.table ..
  | dropped => exact e.reply_numbers ..

/-- Every step deals with numbers in one of these ways. -/
theorem step_numbers (e : Endpoint) {op : Op} (h : op.Short) : e.Numbers op (e.step op).1 (e.step op).2.sequencer := by
  cases op with
  | send kind dest payload stamp => exact step_send_numbers h dest stamp
  | sendError dest code message stamp => exact e.step_sendError_numbers dest code message stamp
  | receive datagram now stamp =>
    rw [step_receive]
    exact (e.receiving datagram now stamp).numbers
  | sweep now => exact .swept
  | setSequence value => exact .set
  | nextSequence => exact .taken

/-- Unless it is set, the sequencer goes on by one if the answer bears the next number, and else stays. -/
theorem Numbers.advances {e : Endpoint} {op : Op} {outcome : Outcome} {s : Sequencer} (h : e.Numbers op outcome s)
    (hop : ∀ value, op ≠ .setSequence value) :
    outcome.takes = true ∧ outcome.Bears e.sequencer.peek ∧ s = e.sequencer.next.2 ∨
      outcome.takes = false ∧ s = e.sequencer := by
  cases h with
  | refused | swept => exact .inr ⟨rfl, rfl⟩
  | sent _ hb | reported hb | answered hb => exact .inl ⟨rfl, hb, rfl⟩
  | unanswered hr =>
    rename_i reception
    refine .inr ⟨?_, rfl⟩
    cases reception with
    | packet | message | peerError | pending => rfl
    | rejected reason answer =>
      cases answer with
      | none => rfl
      | some answer => exact absurd rfl (hr reason answer)
  | set => exact absurd rfl (hop _)
  | taken => exact .inl ⟨rfl, rfl, rfl⟩

theorem Outcome.Bears.unique {outcome : Outcome} {m n : UInt32} (hm : outcome.Bears m) (hn : outcome.Bears n) :
    m = n := by
  have hcarried (hm : outcome.emitted ≠ [] ∧ ∀ datagram ∈ outcome.emitted, CarriesNumber m datagram)
      (hn : outcome.emitted ≠ [] ∧ ∀ datagram ∈ outcome.emitted, CarriesNumber n datagram) : m = n := by
    obtain ⟨datagram, hd⟩ := List.exists_mem_of_ne_nil _ hm.1
    obtain ⟨p, hp, rfl⟩ := hm.2 datagram hd
    obtain ⟨q, hq, rfl⟩ := hn.2 datagram hd
    obtain rfl := Except.ok.inj (hp.symm.trans hq)
    rfl
  cases outcome with
  | sequenceTaken => exact hm.symm.trans hn
  | sent | errorSent | received | swept | sequenceSet => exact hcarried hm hn

theorem Outcome.Bears.sequence_eq {outcome : Outcome} {number : UInt32} (h : outcome.Bears number) {datagram : Bytes}
    (hd : datagram ∈ outcome.emitted) {p : Packet} (hp : Packet.deserialize datagram = .ok p) :
    p.header.sequence = number := by
  have hcarried (h : ∀ datagram ∈ outcome.emitted, CarriesNumber number datagram) : p.header.sequence = number := by
    obtain ⟨q, hq, rfl⟩ := h datagram hd
    obtain rfl := Except.ok.inj (hp.symm.trans hq)
    rfl
  cases outcome with
  | sequenceTaken => simp [Outcome.emitted] at hd
  | sent | errorSent | received | swept | sequenceSet => exact hcarried h.2

/-- The answers of a run that take numbers bear those that follow the last one, modulo 2^32. -/
theorem bears_of_getElem? {e : Endpoint} {ops : List Op} (hshort : ∀ op ∈ ops, op.Short)
    (hset : ∀ value, .setSequence value ∉ ops) {k : Nat} {outcome : Outcome}
    (hk : ((e.run ops).1.filter Outcome.takes)[k]? = some outcome) :
    outcome.Bears (UInt32.ofNat (e.sequencer.last.toNat + (k + 1))) := by
  induction ops generalizing e k with
  | nil => simp [run] at hk
  | cons op rest ih =>
    have hr := fun {k} => ih (e := (e.step op).2) (k := k) (fun o ho => hshort o (List.mem_cons_of_mem op ho))
      (fun value hv => hset value (List.mem_cons_of_mem op hv))
    have hop : ∀ value, op ≠ .setSequence value := fun value hv => hset value (hv ▸ List.mem_cons_self)
    have hrun : (e.run (op :: rest)).1 = (e.step op).1 :: ((e.step op).2.run rest).1 := rfl
    rw [hrun] at hk
    rcases (e.step_numbers (hshort op List.mem_cons_self)).advances hop with ⟨ht, hb, hs⟩ | ⟨ht, hs⟩
    · rw [List.filter_cons_of_pos ht] at hk
      cases k with
      | zero =>
        obtain rfl := Option.some.inj hk
        rw [UInt32.ofNat_add, UInt32.ofNat_toNat]
        exact hb
      | succ k =>
        have hb := hr hk
        rw [hs] at hb
        change outcome.Bears (UInt32.ofNat ((e.sequencer.last + 1).toNat + (k + 1))) at hb
        rw [UInt32.ofNat_add, UInt32.ofNat_toNat] at hb ⊢
        rw [Nat.add_comm (k + 1) 1, UInt32.ofNat_add 1, ← UInt32.add_assoc]
        exact hb
    · rw [List.filter_cons_of_neg (by simp [ht])] at hk
      have hb := hr hk
      rwa [hs] at hb

/-- After these steps the numbers go on behind a number: it was set just now, or the endpoint is new. -/
inductive GoesOnBehind : UInt32 → List Op → Prop where
  | new : GoesOnBehind 0xFFFFFFFF []
  | set (earlier : List Op) (value : UInt32) : GoesOnBehind value (earlier ++ [.setSequence value])

theorem GoesOnBehind.last_eq {last : UInt32} {before : List Op} (h : GoesOnBehind last before) (e : Endpoint)
    (he : e.sequencer = .new) : (e.run before).2.sequencer.last = last := by
  cases h with
  | new => exact congrArg Sequencer.last he
  | set earlier value =>
    rw [run_eq, Machine.run_concat]
    rfl

private theorem behind_injective {last : UInt32} {i j : Nat} (hij : i < j + UInt32.size) (hji : j < i + UInt32.size)
    (h : UInt32.ofNat (last.toNat + (i + 1)) = UInt32.ofNat (last.toNat + (j + 1))) : i = j := by
  rw [UInt32.ofNat_add last.toNat (i + 1), UInt32.ofNat_add last.toNat (j + 1)] at h
  exact Nat.succ.inj (Sequencer.add_ofNat_injective (by omega) (by omega) h)

private theorem behind_surjective (last : UInt32) (start : Nat) (number : UInt32) :
    ∃ k, (start ≤ k ∧ k < start + UInt32.size) ∧ UInt32.ofNat (last.toNat + (k + 1)) = number := by
  have hn := number.toNat_lt
  refine ⟨start + (number.toNat + 2 ^ 32 - (last.toNat + (start + 1)) % 2 ^ 32) % 2 ^ 32, ?_, ?_⟩
  · simp only [UInt32.size]
    omega
  · rw [← UInt32.toNat_inj, UInt32.toNat_ofNat']
    omega

/-- Each step takes a number or none, as its answer shows: a payload of fewer than 2^32 bytes is refused for its kind or
its length and for nothing else, and then takes none; what is sent, reported or answered takes one and bears it. The
numbers that are taken after the sequencer was set follow the one that it was set to; of 2^32 in a row each comes
exactly once, so that no two of their answers hold fragments of one message. -/
theorem run_numbers (session : UInt32) (node : UInt8) (settings : Settings) {last : UInt32} {before after : List Op}
    (hlast : GoesOnBehind last before) (hshort : ∀ op ∈ after, op.Short) (hset : ∀ value, .setSequence value ∉ after) :
    let takers := (((new session node settings).run before).2.run after).1.filter Outcome.takes
    (∀ (e : Endpoint) (op : Op), op.Short → e.Numbers op (e.step op).1 (e.step op).2.sequencer) ∧
      (∀ k (outcome : Outcome), takers[k]? = some outcome → outcome.Bears (UInt32.ofNat (last.toNat + (k + 1)))) ∧
      (∀ i number, i + UInt32.size ≤ takers.length →
        ∃! k, (i ≤ k ∧ k < i + UInt32.size) ∧ ∃ outcome : Outcome, takers[k]? = some outcome ∧ outcome.Bears number) ∧
      ∀ i j (a b : Outcome), i < j → j < i + UInt32.size → takers[i]? = some a → takers[j]? = some b →
        (∀ number, a.Bears number → ¬ b.Bears number) ∧
        ∀ d ∈ a.emitted, ∀ d' ∈ b.emitted, ∀ p p', Packet.deserialize d = .ok p → Packet.deserialize d' = .ok p' →
          p.header.key ≠ p'.header.key := by
  intro takers
  have hb {k : Nat} {outcome : Outcome} (hk : takers[k]? = some outcome) :
      outcome.Bears (UInt32.ofNat (last.toNat + (k + 1))) := by
    have hb := bears_of_getElem? hshort hset hk
    rwa [hlast.last_eq _ rfl] at hb
  refine ⟨fun e _ h => e.step_numbers h, fun _ _ hk => hb hk, ?_, ?_⟩
  · intro i number hlen
    obtain ⟨k, hk, rfl⟩ := behind_surjective last i number
    refine ⟨k, ⟨hk, _, List.getElem?_eq_getElem (by omega), hb (List.getElem?_eq_getElem _)⟩, ?_⟩
    rintro j ⟨hj, outcome, ho, hn⟩
    exact behind_injective (by omega) (by omega) ((hb ho).unique hn)
  · intro i j a b hij hji ha hb'
    have hne : ∀ number, a.Bears number → ¬ b.Bears number := by
      rintro number hn hn'
      exact Nat.ne_of_lt hij (behind_injective (by omega) hji
        (((hb ha).unique hn).trans ((hb hb').unique hn').symm))
    refine ⟨hne, ?_⟩
    intro d hd d' hd' p p' hp hp' hkey
    have hseq : p.header.sequence = p'.header.sequence := congrArg MessageKey.sequence hkey
    rw [(hb ha).sequence_eq hd hp, (hb hb').sequence_eq hd' hp'] at hseq
    exact Nat.ne_of_lt hij (behind_injective (by omega) hji hseq)

/-- The last two numbers and the first: a message in two fragments, a report, and an answer to a packet of another
session. In between an acknowledgement is refused, and garbage is dropped. -/
def aroundTheEnd : List Op :=
  [.send .data 2 [1, 2] 0, .send .ack 2 [1, 2] 0, .receive [9] 0 0, .sendError 2 .timeout "late" 0,
    .receive (Packet.whole .data ⟨⟨9, 1, 2⟩, 0⟩ 0 [1]).datagram 0 0]

theorem run_numbers_around_the_end :
    let takers := (((new 7 1 { maxPayloadSize := 0 }).run [.nextSequence, .setSequence 0xFFFFFFFD]).2.run
      aroundTheEnd).1.filter Outcome.takes
    GoesOnBehind 0xFFFFFFFD [.nextSequence, .setSequence 0xFFFFFFFD] ∧ (∀ op ∈ aroundTheEnd, op.Short) ∧
      (∀ value, .setSequence value ∉ aroundTheEnd) ∧ takers.length = 3 ∧
      ∃ a b c : Outcome, takers = [a, b, c] ∧ a.Bears 0xFFFFFFFE ∧ b.Bears 0xFFFFFFFF ∧ c.Bears 0 := by
  intro takers
  have hlast : GoesOnBehind 0xFFFFFFFD [.nextSequence, .setSequence 0xFFFFFFFD] := .set [.nextSequence] _
  have hshort : ∀ op ∈ aroundTheEnd, op.Short := by simp [aroundTheEnd, Op.Short, UInt32.size]
  have hset : ∀ value, .setSequence value ∉ aroundTheEnd := by simp [aroundTheEnd]
  have hlen : takers.length = 3 := by decide +kernel
  obtain ⟨a, b, c, htakers⟩ := List.length_eq_three.mp hlen
  obtain ⟨-, hb, -⟩ := run_numbers 7 1 { maxPayloadSize := 0 } hlast hshort hset
  change ∀ k (outcome : Outcome), takers[k]? = some outcome → _ at hb
  rw [htakers] at hb
  exact ⟨hlast, hshort, hset, hlen, a, b, c, htakers, hb 0 a rfl, hb 1 b rfl, hb 2 c rfl⟩

end Endpoint
end LocalPlay
