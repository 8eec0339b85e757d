import Flowchart.Decimal.Shortest

/-! The double nearest to a decimal, ties to the even mantissa. -/
namespace Flowchart.Decimal

/-- Round `num / den` to the nearest whole number, a half to the even one. -/
def roundHalfEven (num den : Nat) : Nat :=
  let d := num / den
  let r := num % den
  if 2 * r < den then d
  else if den < 2 * r then d + 1
  else d + d % 2

def leadingBit (num den : Nat) : Int :=
  let guess := (num.log2 : Int) - den.log2
  if num * Nat.pow 2 (-guess).toNat < den * Nat.pow 2 guess.toNat then guess - 1 else guess

/-- The encoding of the double nearest to the positive fraction `num / den`;
`none` above the largest double. -/
def nearestBits? (num den : Nat) : Option Nat :=
  let unit := max (leadingBit num den - 52) (-1074)
  let mantissa := roundHalfEven (num * Nat.pow 2 (-unit).toNat) (den * Nat.pow 2 unit.toNat)
  let bits := (unit + 1074).toNat * Nat.pow 2 52 + mantissa
  if bits < 2047 * Nat.pow 2 52 then some bits else none

/-- The encoding of the double nearest to `digits * 10 ^ power`; `none` on overflow. -/
def nearestDecimalBits? (digits : Nat) (power : Int) : Option Nat :=
  if digits = 0 then some 0
  else
    let top := (digitCount digits : Int) + power
    if 310 < top then none
    else if top < -330 then some 0
    else nearestBits? (digits * Nat.pow 10 power.toNat) (Nat.pow 10 (-power).toNat)

def signed (negative : Bool) (bits : Nat) : Float :=
  Float.ofBits (UInt64.ofNat (if negative then Nat.pow 2 63 + bits else bits))

/-- The float nearest to `digits * 10 ^ power` with the given sign; `none` on overflow. -/
def nearest? (negative : Bool) (digits : Nat) (power : Int) : Option Float :=
  (nearestDecimalBits? digits power).map (signed negative)

def ofInt? (i : Int) : Option Float := nearest? (i < 0) i.natAbs 0

end Flowchart.Decimal
