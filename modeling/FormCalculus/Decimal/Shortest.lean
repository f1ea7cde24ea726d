/-!
The shortest decimal that reads back as a given double: of the multiples of a power of ten that
round to the number, on the coarsest grid that has one, the nearest.
-/
set_option autoImplicit false

namespace FormCalculus

/-- `coefficient * 10 ^ exponent`. -/
structure Decimal where
  coefficient : Nat
  exponent : Int
deriving DecidableEq

namespace Decimal

/-- A positive number `value / unit` with the ends of the interval that rounds to it. -/
structure Target where
  value : Nat
  low : Nat
  high : Nat
  unit : Nat
  /-- Whether the ends themselves round to the number. -/
  closed : Bool

namespace Target

/-- The target of `mantissa * 2 ^ exponent`. The gap below is half the gap above when `narrow`. -/
def ofBinary (mantissa : Nat) (exponent : Int) (narrow : Bool) : Target :=
  let quarter := exponent - 2
  let up := Nat.pow 2 quarter.toNat
  ⟨4 * mantissa * up, (4 * mantissa - if narrow then 1 else 2) * up, (4 * mantissa + 2) * up,
   Nat.pow 2 (-quarter).toNat, mantissa % 2 == 0⟩

/-- The target in units of `10 ^ exponent`. -/
def scale (t : Target) (exponent : Int) : Target :=
  let shrink := Nat.pow 10 (-exponent).toNat
  ⟨t.value * shrink, t.low * shrink, t.high * shrink, t.unit * Nat.pow 10 exponent.toNat, t.closed⟩

def accepts (t : Target) (n : Nat) : Bool :=
  let point := n * t.unit
  if t.closed then t.low ≤ point && point ≤ t.high else t.low < point && point < t.high

/-- The whole number in the interval next to the value, the larger one of two at one distance. -/
def nearest? (t : Target) : Option Nat :=
  let below := t.value / t.unit
  let rest := t.value % t.unit
  match t.accepts below, t.accepts (below + 1) with
  | true, true => some (if 2 * rest < t.unit then below else below + 1)
  | true, false => some below
  | false, true => some (below + 1)
  | false, false => none

/-- The power of ten at or below the value; no double is below `10 ^ -324`. -/
def magnitude (t : Target) : Int :=
  if t.unit ≤ t.value then (Nat.toDigits 10 (t.value / t.unit)).length - 1
  else -((List.range 325).findIdx fun k => t.unit ≤ t.value * Nat.pow 10 k)

/-- Tries grids of one to seventeen digits; the last of them always has a hit. A value just below
a power of ten may round up to it and lose a digit. -/
def shortest (t : Target) : Decimal :=
  let grids := (List.range 17).map fun (digits : Nat) => t.magnitude - digits
  match grids.findSome? fun exponent => ((t.scale exponent).nearest?).map (·, exponent) with
  | none => ⟨0, 0⟩
  | some (coefficient, exponent) =>
      if coefficient % 10 = 0 then ⟨coefficient / 10, exponent + 1⟩ else ⟨coefficient, exponent⟩

end Target

/-- Every digit written out, with a point only where digits follow it. -/
def positional (d : Decimal) : String :=
  let digits := Nat.toDigits 10 d.coefficient
  if 0 ≤ d.exponent then String.ofList (digits ++ List.replicate d.exponent.toNat '0')
  else
    let places := (-d.exponent).toNat
    let padded := List.replicate (places + 1 - digits.length) '0' ++ digits
    let (whole, fraction) := padded.splitAt (padded.length - places)
    String.ofList (whole ++ '.' :: fraction)

/-- One more than the largest fraction field of a double: the weight of its leading digit, which
is not stored. -/
def leadingDigit : Nat := 0x10000000000000

/-- The sign bit of a double. -/
def signBit : Nat := 0x8000000000000000

/-- The shortest decimal of the double with the given bits, sign aside, if it is positive. -/
def ofBits (bits : Nat) : Decimal :=
  let exponent : Nat := bits / leadingDigit % 2048
  let fraction := bits % leadingDigit
  if exponent = 0 then (Target.ofBinary fraction (-1074) false).shortest
  else (Target.ofBinary (fraction + leadingDigit) (exponent - 1075 : Int) (fraction == 0 && exponent != 1)).shortest

/-- A double in positional notation with the fewest digits that read back. -/
def text (x : Float) : String :=
  if x.isNaN then "NaN"
  else
    let bits := x.toBits.toNat
    let sign := if signBit ≤ bits then "-" else ""
    sign ++
      (if x.isInf then "inf" else if x == 0 then "0" else (ofBits (bits % signBit)).positional)

end Decimal

end FormCalculus
