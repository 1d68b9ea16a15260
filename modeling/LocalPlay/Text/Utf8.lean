import LocalPlay.Bytes.LittleEndian

/-! Text as UTF-8. Every byte string can be read: what is no character becomes the replacement character,
one for each longest beginning of a well-formed sequence, and one for each other byte. Reading what was
written gives the text back. A text can be cut to a number of bytes, between two characters. -/
namespace LocalPlay.Utf8

/-- The bytes of a sequence of characters. -/
def encode (text : List Char) : Bytes := text.flatMap String.utf8EncodeChar

/-- The bytes of a text. -/
def bytes (text : String) : Bytes := encode text.toList

/-- The longest beginning of a text that takes at most `budget` bytes. -/
def takeBytes : Nat → List Char → List Char
  | _, [] => []
  | budget, c :: rest =>
    if c.utf8Size ≤ budget then c :: takeBytes (budget - c.utf8Size) rest else []

/-- Stands for bytes that are no character. -/
def replacement : Char := Char.ofNat 0xFFFD

/-- Where a reader stands between two bytes. -/
inductive Reader where
  /-- Before a character. -/
  | ready
  /-- Inside a character: the next byte must lie from `low` to `high`, `more` bytes follow it, and `bits`
  have been read. -/
  | inside (more : Nat) (low high : UInt8) (bits : Nat)

namespace Reader

/-- Read the first byte of a character: the characters that it settles, and where the reader stands then. -/
def start (b : UInt8) : List Char × Reader :=
  if b < 0x80 then ([Char.ofNat b.toNat], ready)
  else if b < 0xC2 then ([replacement], ready)
  else if b < 0xE0 then ([], inside 0 0x80 0xBF (b.toNat - 0xC0))
  else if b < 0xF0 then
    ([], inside 1 (if b = 0xE0 then 0xA0 else 0x80) (if b = 0xED then 0x9F else 0xBF) (b.toNat - 0xE0))
  else if b < 0xF5 then
    ([], inside 2 (if b = 0xF0 then 0x90 else 0x80) (if b = 0xF4 then 0x8F else 0xBF) (b.toNat - 0xF0))
  else ([replacement], ready)

/-- Read a byte. One that cannot go on with the character at hand ends it and starts the next. -/
def step : Reader → UInt8 → List Char × Reader
  | ready, b => start b
  | inside more low high bits, b =>
    if low ≤ b ∧ b ≤ high then
      let bits := bits * 64 + (b.toNat - 0x80)
      match more with
      | 0 => ([Char.ofNat bits], ready)
      | more + 1 => ([], inside more 0x80 0xBF bits)
    else (replacement :: (start b).1, (start b).2)

/-- Read bytes up to their end, where an unfinished character is replaced. -/
def run : Reader → Bytes → List Char
  | ready, [] => []
  | inside .., [] => [replacement]
  | reader, b :: rest => (reader.step b).1 ++ run (reader.step b).2 rest

end Reader

/-- The characters of a byte string. -/
def decode (bytes : Bytes) : List Char := Reader.ready.run bytes

@[simp] theorem length_encode_cons (c : Char) (text : List Char) :
    (encode (c :: text)).length = c.utf8Size + (encode text).length := by
  simp [encode, String.length_utf8EncodeChar]

/-- What is taken fits. -/
theorem length_encode_takeBytes_le (budget : Nat) (text : List Char) :
    (encode (takeBytes budget text)).length ≤ budget := by
  induction text generalizing budget with
  | nil => simp [takeBytes, encode]
  | cons c rest ih =>
    rw [takeBytes]
    split
    · have := ih (budget - c.utf8Size)
      rw [length_encode_cons]
      omega
    · simp [encode]

/-- What is taken is a beginning of the text. -/
theorem takeBytes_isPrefix (budget : Nat) (text : List Char) : takeBytes budget text <+: text := by
  induction text generalizing budget with
  | nil => exact List.nil_prefix
  | cons c rest ih =>
    rw [takeBytes]
    split
    · exact (List.prefix_cons_inj c).mpr (ih _)
    · exact List.nil_prefix

/-- A longer beginning than what is taken does not fit. -/
theorem takeBytes_longest {budget : Nat} {text start : List Char} (hp : start <+: text)
    (hs : (encode start).length ≤ budget) : start <+: takeBytes budget text := by
  induction text generalizing budget start with
  | nil => simpa [takeBytes] using hp
  | cons c rest ih =>
    cases start with
    | nil => exact List.nil_prefix
    | cons d more =>
      obtain ⟨rfl, hm⟩ := List.cons_prefix_cons.mp hp
      rw [length_encode_cons] at hs
      have hc : d.utf8Size ≤ budget := by omega
      rw [takeBytes, if_pos hc]
      exact (List.prefix_cons_inj d).mpr (ih hm (by omega))

namespace Reader

private theorem run_last {low high b : UInt8} {bits n : Nat} {rest : Bytes} (hb : b.toNat = n + 128)
    (hl : low.toNat ≤ n + 128) (hh : n + 128 ≤ high.toNat) :
    (inside 0 low high bits).run (b :: rest) = Char.ofNat (bits * 64 + n) :: ready.run rest := by
  simp [run, step, UInt8.le_iff_toNat_le, hb, hl, hh]

private theorem run_more {low high b : UInt8} {more bits n : Nat} {rest : Bytes} (hb : b.toNat = n + 128)
    (hl : low.toNat ≤ n + 128) (hh : n + 128 ≤ high.toNat) :
    (inside (more + 1) low high bits).run (b :: rest) =
      (inside more 0x80 0xBF (bits * 64 + n)).run rest := by
  simp [run, step, UInt8.le_iff_toNat_le, hb, hl, hh]

private theorem run_one {b : UInt8} {rest : Bytes} (h : b.toNat < 128) :
    ready.run (b :: rest) = Char.ofNat b.toNat :: ready.run rest := by
  simp [run, step, start, UInt8.lt_iff_toNat_lt, h]

private theorem run_two {b : UInt8} {rest : Bytes} {n : Nat} (hb : b.toNat = n + 192) (hl : 2 ≤ n)
    (hh : n < 32) : ready.run (b :: rest) = (inside 0 0x80 0xBF n).run rest := by
  have h1 : ¬ n + 192 < 128 := by omega
  have h2 : ¬ n + 192 < 194 := by omega
  have h3 : n + 192 < 224 := by omega
  simp [run, step, start, UInt8.lt_iff_toNat_lt, hb, h1, h2, h3]

private theorem run_three {b : UInt8} {rest : Bytes} {n : Nat} (hb : b.toNat = n + 224) (hh : n < 16) :
    ready.run (b :: rest) =
      (inside 1 (if n = 0 then 0xA0 else 0x80) (if n = 13 then 0x9F else 0xBF) n).run rest := by
  have h1 : ¬ n + 224 < 128 := by omega
  have h2 : ¬ n + 224 < 194 := by omega
  have h3 : ¬ n + 224 < 224 := by omega
  have h4 : n + 224 < 240 := by omega
  simp [run, step, start, UInt8.lt_iff_toNat_lt, ← UInt8.toNat_inj, hb, h1, h2, h3, h4]

private theorem run_four {b : UInt8} {rest : Bytes} {n : Nat} (hb : b.toNat = n + 240) (hh : n < 5) :
    ready.run (b :: rest) =
      (inside 2 (if n = 0 then 0x90 else 0x80) (if n = 4 then 0x8F else 0xBF) n).run rest := by
  have h1 : ¬ n + 240 < 128 := by omega
  have h2 : ¬ n + 240 < 194 := by omega
  have h3 : ¬ n + 240 < 224 := by omega
  have h4 : ¬ n + 240 < 240 := by omega
  have h5 : n + 240 < 245 := by omega
  simp [run, step, start, UInt8.lt_iff_toNat_lt, ← UInt8.toNat_inj, hb, h1, h2, h3, h4, h5]

private theorem toNat_byte {n : Nat} (h : n < 256) : (UInt8.ofNat n).toNat = n := by
  rw [UInt8.toNat_ofNat']
  omega

/-- Between two characters, the bytes of a character are read as that character. -/
theorem run_utf8EncodeChar (c : Char) (rest : Bytes) :
    ready.run (String.utf8EncodeChar c ++ rest) = c :: ready.run rest := by
  have hv : c.toNat < 0xD800 ∨ 0xDFFF < c.toNat ∧ c.toNat < 0x110000 := c.valid
  have hc : Char.ofNat c.toNat = c := c.ofNat_toNat
  have ht : c.val.toNat = c.toNat := rfl
  have cont (n : Nat) : (UInt8.ofNat (n % 64 + 128)).toNat = n % 64 + 128 := toNat_byte (by omega)
  generalize c.toNat = v at hv hc ht
  simp only [String.utf8EncodeChar, ht]
  split
  · rw [List.cons_append, run_one (by rw [toNat_byte] <;> omega), toNat_byte (by omega), hc]
    rfl
  split
  · have hb : (UInt8.ofNat (v / 64 % 32 + 192)).toNat = v / 64 + 192 := by rw [toNat_byte] <;> omega
    have hn : v / 64 * 64 + v % 64 = v := by omega
    rw [List.cons_append, run_two hb (by omega) (by omega), List.cons_append,
      run_last (cont v) (by simp) (by simp; omega), hn, hc]
    rfl
  split
  · have hb : (UInt8.ofNat (v / 4096 % 16 + 224)).toNat = v / 4096 + 224 := by rw [toNat_byte] <;> omega
    have hn : (v / 4096 * 64 + v / 64 % 64) * 64 + v % 64 = v := by omega
    have hl : (if v / 4096 = 0 then (0xA0 : UInt8) else 0x80).toNat ≤ v / 64 % 64 + 128 := by
      split
      · simp; omega
      · simp
    have hh : v / 64 % 64 + 128 ≤ (if v / 4096 = 13 then (0x9F : UInt8) else 0xBF).toNat := by
      split
      · simp; omega
      · simp; omega
    rw [List.cons_append, run_three hb (by omega), List.cons_append, run_more (cont (v / 64)) hl hh,
      List.cons_append, run_last (cont v) (by simp) (by simp; omega), hn, hc]
    rfl
  · have hb : (UInt8.ofNat (v / 262144 % 8 + 240)).toNat = v / 262144 + 240 := by rw [toNat_byte] <;> omega
    have hn : ((v / 262144 * 64 + v / 4096 % 64) * 64 + v / 64 % 64) * 64 + v % 64 = v := by omega
    have hl : (if v / 262144 = 0 then (0x90 : UInt8) else 0x80).toNat ≤ v / 4096 % 64 + 128 := by
      split
      · simp; omega
      · simp
    have hh : v / 4096 % 64 + 128 ≤ (if v / 262144 = 4 then (0x8F : UInt8) else 0xBF).toNat := by
      split
      · simp; omega
      · simp; omega
    rw [List.cons_append, run_four hb (by omega), List.cons_append, run_more (cont (v / 4096)) hl hh,
      List.cons_append, run_more (cont (v / 64)) (by simp) (by simp; omega), List.cons_append,
      run_last (cont v) (by simp) (by simp; omega), hn, hc]
    rfl

end Reader

/-- Reading what was written gives the text back. -/
@[simp] theorem decode_encode (text : List Char) : decode (encode text) = text := by
  simp only [decode, encode]
  induction text with
  | nil => rfl
  | cons c rest ih => rw [List.flatMap_cons, Reader.run_utf8EncodeChar, ih]

end LocalPlay.Utf8
