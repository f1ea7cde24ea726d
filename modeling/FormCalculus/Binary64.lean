/-!
Floating point constants, told apart by their bits.
-/
set_option autoImplicit false

namespace FormCalculus

/-- A double precision number. Unlike `Float` it tells the payloads of two NaNs apart, so
equality of constants is equality of bits. -/
structure Binary64 where
  bits : UInt64
deriving DecidableEq

namespace Binary64

def toFloat (x : Binary64) : Float := Float.ofBits x.bits

def ofFloat (x : Float) : Binary64 := ⟨x.toBits⟩

/-- The NaN of an invalid operation on numbers. -/
def invalid : Binary64 := ⟨0xfff8000000000000⟩

/-- A NaN as it leaves an operation that it entered. -/
def quieted (x : Binary64) : Binary64 := ⟨x.bits ||| 0x0008000000000000⟩

/-- Applies a binary operation; a NaN operand, the first one if both are, is handed on. -/
def combine (op : Float → Float → Float) (x y : Binary64) : Binary64 :=
  let result := op x.toFloat y.toFloat
  if result.isNaN then
    if x.toFloat.isNaN then x.quieted else if y.toFloat.isNaN then y.quieted else invalid
  else ofFloat result

/-- The nearest double to an integer, ties to even. -/
def ofInt (n : Int) : Binary64 := ofFloat (Float.ofInt n)

/-- Zero of either sign. -/
def isZero (x : Binary64) : Bool := x.toFloat == 0

def isOne (x : Binary64) : Bool := x.toFloat == 1

/-- The sixteen digits of the bits, with one spelling for every NaN. -/
def hex (x : Float) : String :=
  if x.isNaN then "nan"
  else
    let digits := Nat.toDigits 16 x.toBits.toNat
    String.ofList (List.replicate (16 - digits.length) '0' ++ digits)

end Binary64

end FormCalculus
