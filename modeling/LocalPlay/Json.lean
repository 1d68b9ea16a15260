/-! JSON values, with numbers as they were written: settings take whole numbers only, and `1.0` is none. -/
namespace LocalPlay

/-- A JSON value. The fields of an object keep their order. -/
inductive Json where
  | null
  | bool (value : Bool)
  /-- A number written without fraction and exponent. -/
  | int (value : Int)
  /-- Any other number: the digits, times ten to the exponent. -/
  | real (digits exponent : Int)
  | text (value : String)
  | list (items : List Json)
  | object (fields : List (String × Json))

namespace Json

/-- A whole number below a bound. -/
def natBelow? (bound : Nat) : Json → Option Nat
  | int (.ofNat n) => if n < bound then some n else none
  | _ => none

@[simp] theorem natBelow?_natCast (bound n : Nat) :
    natBelow? bound (int n) = if n < bound then some n else none := rfl

def bool? : Json → Option Bool
  | bool value => some value
  | _ => none

end Json
end LocalPlay
