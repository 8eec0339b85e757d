import Flowchart.Decimal.Nearest

/-! Floats times powers of ten, rounded after every step. -/
namespace Flowchart.Decimal

/-- The largest power of ten that is no more than the largest float. -/
def topPower : Nat := 308

def powerOfTen (n : Nat) : Float := (nearest? false 1 n).getD 0

/-- A float times a power of ten, by one multiplication or division where that is within reach;
`none` on overflow. -/
def scaled? (x : Float) (power : Int) : Option Float :=
  if (topPower : Int) < power then if x == 0 then some x else none
  else if 0 ≤ power then
    let y := x * powerOfTen power.toNat
    if y.isInf then none else some y
  else if -(topPower : Int) ≤ power then some (x / powerOfTen (-power).toNat)
  else if x == 0 then some x
  else scaled? (x / powerOfTen topPower) (power + topPower)
termination_by (-power).toNat
decreasing_by simp only [topPower] at *; omega

end Flowchart.Decimal
