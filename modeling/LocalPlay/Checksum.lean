import LocalPlay.Bytes.LittleEndian

/-! The CRC-32 of a byte string: the reflected polynomial 0xEDB88320, a register that starts with all bits
set, and all bits inverted at the end. -/
namespace LocalPlay.Checksum

/-- Shift the register down by one bit; the polynomial is added when a set bit falls out. -/
def shiftBit (register : UInt32) : UInt32 :=
  if register &&& 1 = 1 then (register >>> 1) ^^^ 0xEDB88320 else register >>> 1

/-- Take one byte into the register, its lowest bit first. -/
def absorb (register : UInt32) (byte : UInt8) : UInt32 :=
  Nat.repeat shiftBit 8 (register ^^^ byte.toUInt32)

/-- The checksum of a byte string. -/
def crc32 (bytes : Bytes) : UInt32 :=
  bytes.foldl absorb 0xFFFFFFFF ^^^ 0xFFFFFFFF

/-- No bytes have the checksum zero. -/
@[simp] theorem crc32_nil : crc32 [] = 0 := by decide

end LocalPlay.Checksum
