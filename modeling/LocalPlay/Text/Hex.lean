/-! Numbers written in hexadecimal. -/
namespace LocalPlay.Hex

/-- The hexadecimal digits of a number, in lower case, with zeros in front up to `width` digits. -/
def padded (width n : Nat) : String :=
  let digits := Nat.toDigits 16 n
  String.ofList (List.replicate (width - digits.length) '0' ++ digits)

end LocalPlay.Hex
