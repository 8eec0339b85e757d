/-! The shortest decimal that reads back as a given double. -/
namespace Flowchart.Decimal

/-- How many decimal digits a number is written with; zero takes one. -/
def digitCount (n : Nat) : Nat := (Nat.toDigits 10 n).length

def leadingPower (num den : Nat) : Int :=
  if den ≤ num then (digitCount (num / den) : Int) - 1
  else -(digitCount ((den + num - 1) / num - 1) : Int)

/-- The reals that round to one double, over a common denominator; its ends
with an even mantissa only. -/
structure Span where
  low : Nat
  mid : Nat
  high : Nat
  scale : Nat
  closed : Bool

/-- The span of `mantissa * 2 ^ exponent`. Below a power of two the doubles lie twice as dense. -/
def Span.ofParts (mantissa : Nat) (exponent : Int) (atPower : Bool) : Span :=
  let up := Nat.pow 2 (exponent - 2).toNat
  { low := (4 * mantissa - if atPower then 1 else 2) * up
    mid := 4 * mantissa * up
    high := (4 * mantissa + 2) * up
    scale := Nat.pow 2 (2 - exponent).toNat
    closed := mantissa % 2 == 0 }

def Span.inUnits (s : Span) (power : Int) : Span :=
  let up := Nat.pow 10 (-power).toNat
  { s with low := s.low * up, mid := s.mid * up, high := s.high * up,
           scale := s.scale * Nat.pow 10 power.toNat }

def Span.contains (s : Span) (d : Nat) : Bool :=
  if s.closed then s.low ≤ d * s.scale && d * s.scale ≤ s.high
  else s.low < d * s.scale && d * s.scale < s.high

/-- The whole number of the span that is nearest to its middle; the even one of two equally near. -/
def Span.nearest? (s : Span) : Option Nat :=
  let d := s.mid / s.scale
  let below := s.mid - d * s.scale
  let above := (d + 1) * s.scale - s.mid
  match s.contains d, s.contains (d + 1) with
  | false, false => none
  | true, false => some d
  | false, true => some (d + 1)
  | true, true =>
    if below < above then some d
    else if above < below then some (d + 1)
    else some (d + d % 2)

def trim (digits : Nat) (power : Int) : Nat × Int :=
  if h : digits % 10 = 0 ∧ digits ≠ 0 then trim (digits / 10) (power + 1) else (digits, power)
termination_by digits
decreasing_by omega

def Span.shortest (s : Span) : Nat × Int :=
  let top := leadingPower s.mid s.scale
  let found := (List.range 17).findSome? fun (i : Nat) =>
    let power := top - (i : Int)
    (s.inUnits power).nearest?.map (·, power)
  let (digits, power) := found.getD (s.mid / s.scale, 0)
  trim digits power

/-- The parts of a finite double: negative or not, mantissa, binary exponent, and whether the
doubles below it lie twice as dense. -/
structure Parts where
  negative : Bool
  mantissa : Nat
  exponent : Int
  atPower : Bool
deriving DecidableEq

/-- Take apart the interchange encoding of a double; `none` for an infinity or a NaN. -/
def Parts.ofBits? (bits : Nat) : Option Parts :=
  let fraction := bits % Nat.pow 2 52
  let field := bits / Nat.pow 2 52 % Nat.pow 2 11
  let negative := bits / Nat.pow 2 63 == 1
  if field = 2047 then none
  else if field = 0 then some ⟨negative, fraction, -1074, false⟩
  else some ⟨negative, Nat.pow 2 52 + fraction, (field : Int) - 1075, fraction == 0 && field != 1⟩

def Parts.ofFloat? (x : Float) : Option Parts := ofBits? x.toBits.toNat

def Parts.shortest (p : Parts) : Nat × Int :=
  if p.mantissa = 0 then (0, 0) else (Span.ofParts p.mantissa p.exponent p.atPower).shortest

end Flowchart.Decimal
