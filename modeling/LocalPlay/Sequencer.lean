/-! Sequence numbers. A sequencer remembers the number it issued last and issues the next one, modulo 2^32;
a new one begins with zero. -/
namespace LocalPlay

/-- Issues sequence numbers. -/
structure Sequencer where
  /-- The number issued last. -/
  last : UInt32
  deriving DecidableEq

namespace Sequencer

/-- A sequencer that has issued nothing: its next number is zero. -/
def new : Sequencer := ⟨0xFFFFFFFF⟩

/-- The number that is issued next. -/
def peek (s : Sequencer) : UInt32 := s.last + 1

/-- Issue a number. -/
def next (s : Sequencer) : UInt32 × Sequencer := (s.peek, ⟨s.peek⟩)

/-- Go on behind a given number. -/
def resumeAfter (value : UInt32) : Sequencer := ⟨value⟩

@[simp] theorem peek_new : new.peek = 0 := by decide

@[simp] theorem peek_resumeAfter (value : UInt32) : (resumeAfter value).peek = value + 1 := rfl

@[simp] theorem peek_next (s : Sequencer) : s.next.2.peek = s.peek + 1 := rfl

/-- Of 2^32 numbers in a row no two are the same. -/
theorem add_ofNat_injective {first : UInt32} {i j : Nat} (hij : i < j + UInt32.size) (hji : j < i + UInt32.size)
    (h : first + UInt32.ofNat i = first + UInt32.ofNat j) : i = j := by
  have ho : UInt32.ofNat i = UInt32.ofNat j := by grind
  have hn := congrArg UInt32.toNat ho
  rw [UInt32.toNat_ofNat', UInt32.toNat_ofNat'] at hn
  simp only [UInt32.size] at hij hji
  omega

end Sequencer
end LocalPlay
