import Mathlib.InformationTheory.Coding.UniquelyDecodable
import LocalPlay.Proofs.Machine
import LocalPlay.Proofs.Packet.Acceptance

/-! Packets one after the other in a buffer. Each is appended whole or not at all. No datagram begins another one, so
that the bytes of a stream of packets say where each of them ends. -/
namespace LocalPlay

/-- Fields of the beginning of a byte string are fields of the whole. -/
theorem LittleEndian.field_of_isPrefix {short long : Bytes} {offset width : Nat} (h : short <+: long)
    (hl : offset + width ≤ short.length) : field short offset width = field long offset width := by
  obtain ⟨rest, rfl⟩ := h
  have hd : offset ≤ short.length := by omega
  have ht : width ≤ (short.drop offset).length := by
    rw [List.length_drop]
    omega
  simp only [field, List.drop_append_of_le_length hd, List.take_append_of_le_length ht]

/-- A code in which no word begins another one, and none is empty, is uniquely decodable. -/
theorem uniquelyDecodable_of_prefixFree {α : Type} {S : Set (List α)} (hne : [] ∉ S)
    (hfree : ∀ a ∈ S, ∀ b ∈ S, a <+: b → a = b) : InformationTheory.UniquelyDecodable S := by
  intro as bs
  induction as generalizing bs with
  | nil =>
    intro _ hbs h
    cases bs with
    | nil => rfl
    | cons b rest =>
      obtain ⟨rfl, -⟩ := List.append_eq_nil_iff.mp h.symm
      exact absurd (hbs [] List.mem_cons_self) hne
  | cons a as ih =>
    intro has hbs h
    obtain ⟨ha, has⟩ := List.forall_mem_cons.mp has
    cases bs with
    | nil =>
      obtain ⟨rfl, -⟩ := List.append_eq_nil_iff.mp h
      exact absurd ha hne
    | cons b rest =>
      obtain ⟨hb, hrest⟩ := List.forall_mem_cons.mp hbs
      simp only [List.flatten_cons] at h
      -- both words begin the same bytes, so that one begins the other
      have hab : a = b := by
        rcases List.prefix_or_prefix_of_prefix (List.prefix_append a as.flatten) (h ▸ List.prefix_append b rest.flatten)
          with hp | hp
        · exact hfree a ha b hb hp
        · exact (hfree b hb a ha hp).symm
      subst hab
      rw [ih rest has hrest (List.append_cancel_left h)]

namespace Header
variable {short long : Bytes}

theorem headerLength_le_lengthIn (datagram : Bytes) : headerLength ≤ lengthIn datagram := by
  rw [lengthIn]
  split <;> decide

/-- Where the header ends is said within its first bytes. -/
theorem lengthIn_of_isPrefix (h : short <+: long) (hl : headerLength ≤ short.length) :
    lengthIn short = lengthIn long := by
  rw [headerLength] at hl
  have hf : NamesFragment short ↔ NamesFragment long := by
    rw [NamesFragment, LittleEndian.field_of_isPrefix h (by omega), NamesFragment]
  simp only [lengthIn, hf]

end Header

namespace Packet
open Header
variable {a b datagram : Bytes} {p q : Packet} {ps qs : List Packet}

/-- The byte strings that are read as a packet. -/
def readable : Set Bytes := { datagram | ∃ p, deserialize datagram = .ok p }

/-- A datagram is as long as its first bytes say. -/
theorem length_of_deserialize (h : deserialize datagram = .ok p) :
    datagram.length = lengthIn datagram + LittleEndian.field datagram 24 4 := by
  obtain ⟨ht, hl, -⟩ := deserialize_eq_ok_iff.mp h
  have hle := lengthIn_le_of_not_truncated ht
  omega

/-- No datagram begins another one. -/
theorem eq_of_isPrefix (ha : deserialize a = .ok p) (hb : deserialize b = .ok q) (h : a <+: b) : a = b := by
  have hla := length_of_deserialize ha
  have hhead := headerLength_le_lengthIn a
  have hsize : LittleEndian.field a 24 4 = LittleEndian.field b 24 4 := by
    apply LittleEndian.field_of_isPrefix h
    rw [headerLength] at hhead
    omega
  apply h.eq_of_length
  rw [hla, length_of_deserialize hb, lengthIn_of_isPrefix h (by omega), hsize]

theorem uniquelyDecodable_readable : InformationTheory.UniquelyDecodable readable := by
  apply uniquelyDecodable_of_prefixFree
  · rintro ⟨p, hp⟩
    have hl := length_of_deserialize hp
    have hhead := headerLength_le_lengthIn []
    rw [headerLength] at hhead
    simp only [List.length_nil] at hl
    omega
  · rintro a ⟨p, ha⟩ b ⟨q, hb⟩
    exact eq_of_isPrefix ha hb

/-- The packet as it is sent, without the fragment fields of a packet that is no fragment. -/
def asSent (p : Packet) : Packet := { p with header := p.header.asSent }

/-- The fields that are not sent do not matter to what is sent. -/
theorem serialize_asSent (p : Packet) : p.asSent.serialize = p.serialize := by
  have hc : p.header.asSent.checksum = p.header.checksum := by
    rw [Header.asSent]
    split <;> rfl
  have he := p.header.agrees_asSent.encode_eq (payloadSize_asSent _).symm hc.symm
  simp only [serialize, appendTo, asSent, payloadSize_asSent, he]
  rfl

/-- The datagrams of those packets that can be sent. -/
def datagrams (ps : List Packet) : List Bytes := ps.filterMap (·.serialize.toOption)

theorem datagrams_cons_of_ok (h : p.serialize = .ok datagram) : datagrams (p :: ps) = datagram :: datagrams ps :=
  List.filterMap_cons_some (by rw [h, Except.toOption])

theorem datagrams_cons_of_error {cause : ProtocolError} (h : p.serialize = .error cause) :
    datagrams (p :: ps) = datagrams ps :=
  List.filterMap_cons_none (by rw [h, Except.toOption])

/-- The datagrams of packets that can be sent are read as these packets. -/
theorem map_deserialize_datagrams (h : ∀ p ∈ ps, ∃ datagram, p.serialize = .ok datagram) :
    (datagrams ps).map deserialize = (ps.map asSent).map .ok := by
  induction ps with
  | nil => rfl
  | cons p rest ih =>
    obtain ⟨⟨datagram, hs⟩, hrest⟩ := List.forall_mem_cons.mp h
    rw [datagrams_cons_of_ok hs, List.map_cons, ih hrest, deserialize_of_serialize hs]
    rfl

theorem readable_of_mem_datagrams (h : datagram ∈ datagrams ps) : datagram ∈ readable := by
  obtain ⟨p, -, hp⟩ := List.mem_filterMap.mp h
  cases hs : p.serialize with
  | error cause => simp [hs, Except.toOption] at hp
  | ok _ =>
    obtain rfl : _ = datagram := by simpa [hs, Except.toOption] using hp
    exact ⟨_, deserialize_of_serialize hs⟩

/-- Packets that can be sent write the same bytes exactly if they are the same as they are sent. -/
theorem flatten_datagrams_inj (hp : ∀ p ∈ ps, ∃ datagram, p.serialize = .ok datagram)
    (hq : ∀ q ∈ qs, ∃ datagram, q.serialize = .ok datagram) :
    (datagrams ps).flatten = (datagrams qs).flatten ↔ ps.map asSent = qs.map asSent := by
  constructor
  · intro h
    have hd : datagrams ps = datagrams qs :=
      uniquelyDecodable_readable _ _ (fun _ => readable_of_mem_datagrams) (fun _ => readable_of_mem_datagrams) h
    have hm := congrArg (List.map deserialize) hd
    rw [map_deserialize_datagrams hp, map_deserialize_datagrams hq] at hm
    exact List.map_injective_iff.mpr (fun _ _ => Except.ok.inj) hm
  · intro h
    have hd (xs : List Packet) : datagrams (xs.map asSent) = datagrams xs := by
      simp only [datagrams, List.filterMap_map, Function.comp_def, serialize_asSent]
    rw [← hd ps, h, hd]

/-- Append one packet after the other to a buffer, and go on when one is refused. -/
def appendAll (buffer : Bytes) (ps : List Packet) : List (Except ProtocolError Unit) × Bytes :=
  Machine.run (fun buffer p => p.appendTo buffer) buffer ps

/-- A packet is appended as its datagram, or refused as it is for one. -/
theorem appendTo_eq (p : Packet) (buffer : Bytes) :
    p.appendTo buffer =
      match p.serialize with
      | .ok datagram => (.ok (), buffer ++ datagram)
      | .error cause => (.error cause, buffer) := by
  simp only [serialize, appendTo]
  split
  · rfl
  split <;> rfl

theorem appendAll_eq (buffer : Bytes) (ps : List Packet) :
    appendAll buffer ps = (ps.map fun p => p.serialize.map fun _ => (), buffer ++ (datagrams ps).flatten) := by
  induction ps generalizing buffer with
  | nil => simp [appendAll, Machine.run, datagrams]
  | cons p rest ih =>
    have hrun : appendAll buffer (p :: rest) =
        ((p.appendTo buffer).1 :: (appendAll (p.appendTo buffer).2 rest).1,
          (appendAll (p.appendTo buffer).2 rest).2) := rfl
    rw [hrun, ih, appendTo_eq]
    cases hs : p.serialize with
    | error cause => simp [datagrams_cons_of_error hs, hs, Except.map]
    | ok datagram => simp [datagrams_cons_of_ok hs, hs, Except.map]

/-- Each packet is appended to a buffer as its datagram, or is refused as it is for one and leaves the buffer as it was.
So a buffer holds the datagrams of those that were taken, in order. No datagram begins another one, and the bytes of
packets that can be sent settle how many there are and all of each that is sent. -/
theorem appendAll_exact :
    (∀ buffer ps,
      (appendAll buffer ps).1 = ps.map (fun p => p.serialize.map fun _ => ()) ∧
        (appendAll buffer ps).2 = buffer ++ (datagrams ps).flatten) ∧
      (∀ (p : Packet) buffer cause, p.serialize = .error cause → p.appendTo buffer = (.error cause, buffer)) ∧
      (∀ a b p q, deserialize a = .ok p → deserialize b = .ok q → a <+: b → a = b) ∧
      ∀ buffer ps qs, (∀ p ∈ ps, ∃ datagram, p.serialize = .ok datagram) →
        (∀ q ∈ qs, ∃ datagram, q.serialize = .ok datagram) →
        ((appendAll buffer ps).2 = (appendAll buffer qs).2 ↔ ps.map asSent = qs.map asSent) := by
  refine ⟨?_, ?_, ?_, ?_⟩
  · intro buffer ps
    rw [appendAll_eq]
    exact ⟨rfl, rfl⟩
  · intro p buffer cause h
    rw [appendTo_eq, h]
  · intro a b p q
    exact eq_of_isPrefix
  · intro buffer ps qs hp hq
    rw [appendAll_eq, appendAll_eq, List.append_right_inj]
    exact flatten_datagrams_inj hp hq

/-- Of three packets one declares a wrong length. The other two are the same but for a field that is not sent. -/
theorem appendAll_exact_three :
    let p := Packet.whole .data ⟨⟨7, 1, 2⟩, 1⟩ 0 [1, 2]
    let q : Packet := { p with header := { p.header with fragmentCount := 5 } }
    let bad : Packet := { p with payload := [1] }
    appendAll [9] [p, bad, q] = ([.ok (), .error (.lengthMismatch 2 1), .ok ()], 9 :: (p.datagram ++ p.datagram)) ∧
      bad.appendTo [9] = (.error (.lengthMismatch 2 1), [9]) ∧ (appendAll [9] [p, q]).2 = (appendAll [9] [q, p]).2 := by
  intro p q bad
  obtain ⟨hall, hfail, -, hread⟩ := appendAll_exact
  have hp : p.serialize = .ok p.datagram := by decide +kernel
  have hq : q.serialize = .ok p.datagram := by decide +kernel
  have hbad : bad.serialize = .error (.lengthMismatch 2 1) := by decide +kernel
  refine ⟨?_, hfail bad [9] _ hbad, (hread [9] [p, q] [q, p] ?_ ?_).mpr (by decide +kernel)⟩
  · obtain ⟨hanswers, hbytes⟩ := hall [9] [p, bad, q]
    apply Prod.ext
    · rw [hanswers]
      simp only [List.map_cons, List.map_nil, hp, hq, hbad, Except.map]
    · rw [hbytes, datagrams_cons_of_ok hp, datagrams_cons_of_error hbad, datagrams_cons_of_ok hq]
      simp [datagrams]
  · simp [hp, hq]
  · simp [hp, hq]

end Packet
end LocalPlay
