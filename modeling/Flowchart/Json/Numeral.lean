import Flowchart.Decimal.Scaled

/-! JSON number literals: their parts, their text, and the numbers they stand for. -/
namespace Flowchart.Json

/-- A number literal: all digits before the exponent as one number, and how
many of them follow the decimal point. -/
structure Numeral where
  negative : Bool := false
  digits : Nat
  point : Option Nat := none
  exponent : Option Int := none
deriving DecidableEq, Inhabited

namespace Numeral

def ofNat (n : Nat) : Numeral := { digits := n }

def ofInt (i : Int) : Numeral := { negative := i < 0, digits := i.natAbs }

def mantissaParts (digits point : Nat) : List Char × List Char :=
  let ds := Nat.toDigits 10 digits
  let padded := List.replicate (point + 1 - ds.length) '0' ++ ds
  padded.splitAt (padded.length - point)

def mantissaText (digits : Nat) : Option Nat → List Char
  | none => Nat.toDigits 10 digits
  | some k =>
    let (whole, fraction) := mantissaParts digits k
    whole ++ '.' :: fraction

def exponentText : Option Int → List Char
  | none => []
  | some e => 'e' :: (if e < 0 then '-' else '+') :: Nat.toDigits 10 e.natAbs

def render (n : Numeral) : List Char :=
  (if n.negative then ['-'] else []) ++ mantissaText n.digits n.point ++ exponentText n.exponent

def digitRun (s : List Char) : List Char × List Char := (s.takeWhile Char.isDigit, s.dropWhile Char.isDigit)

/-- The whole part of a literal: a single zero, or digits that start with none. -/
def readWhole? : List Char → Option (List Char × List Char)
  | '0' :: rest => some (['0'], rest)
  | s =>
    let (ds, rest) := digitRun s
    if ds.isEmpty then none else some (ds, rest)

/-- The digits after the decimal point, of which there is at least one if there is a point. -/
def readFraction? : List Char → Option (Option (List Char) × List Char)
  | '.' :: s =>
    let (ds, rest) := digitRun s
    if ds.isEmpty then none else some (some ds, rest)
  | s => some (none, s)

def exponentSign : List Char → Bool × List Char
  | '-' :: s => (true, s)
  | '+' :: s => (false, s)
  | s => (false, s)

def readExponent? : List Char → Option (Option Int × List Char)
  | c :: s =>
    if c = 'e' ∨ c = 'E' then
      let (negative, s) := exponentSign s
      let (ds, rest) := digitRun s
      if ds.isEmpty then none
      else
        let e : Int := Nat.ofDigitChars 10 ds 0
        some (some (if negative then -e else e), rest)
    else some (none, c :: s)
  | [] => some (none, [])

def readUnsigned? (negative : Bool) (s : List Char) : Option (Numeral × List Char) := do
  let (whole, s) ← readWhole? s
  let (fraction, s) ← readFraction? s
  let (exponent, s) ← readExponent? s
  let digits := Nat.ofDigitChars 10 (whole ++ fraction.getD []) 0
  return ({ negative, digits, point := fraction.map List.length, exponent }, s)

def read? : List Char → Option (Numeral × List Char)
  | '-' :: s => readUnsigned? true s
  | s => readUnsigned? false s

theorem digitRun_length (s : List Char) : (digitRun s).2.length ≤ s.length := by
  simpa [digitRun] using (List.dropWhile_sublist Char.isDigit (l := s)).length_le

theorem digitRun_length_add (s : List Char) :
    (digitRun s).1.length + (digitRun s).2.length = s.length := by
  rw [digitRun, ← List.length_append, List.takeWhile_append_dropWhile]

theorem readWhole?_length {s ds rest : List Char} (h : readWhole? s = some (ds, rest)) :
    rest.length < s.length := by
  rw [readWhole?.eq_def] at h
  split at h
  · simp_all
  · have := digitRun_length_add s
    split at h
    split at h
    · simp at h
    · rename_i ds' r' hr hne
      simp only [Option.some.injEq, Prod.mk.injEq] at h
      obtain ⟨rfl, rfl⟩ := h
      have : 0 < ds'.length := by simpa [List.length_pos_iff] using hne
      simp_all only
      omega

theorem readFraction?_length {s rest : List Char} {ds : Option (List Char)}
    (h : readFraction? s = some (ds, rest)) : rest.length ≤ s.length := by
  rw [readFraction?.eq_def] at h
  split at h
  · rename_i s
    have := digitRun_length s
    grind
  · simp_all

theorem exponentSign_length (s : List Char) : (exponentSign s).2.length ≤ s.length := by
  rw [exponentSign.eq_def]
  split <;> simp

theorem readExponent?_length {s rest : List Char} {e : Option Int}
    (h : readExponent? s = some (e, rest)) : rest.length ≤ s.length := by
  rw [readExponent?.eq_def] at h
  split at h
  · rename_i c s
    have h1 := exponentSign_length s
    have h2 := digitRun_length (exponentSign s).2
    grind
  · simp_all

theorem readUnsigned?_length {negative : Bool} {s rest : List Char} {n : Numeral}
    (h : readUnsigned? negative s = some (n, rest)) : rest.length < s.length := by
  simp only [readUnsigned?, Option.bind_eq_bind, Option.bind_eq_some_iff, Option.pure_def,
    Option.some.injEq, Prod.mk.injEq] at h
  obtain ⟨⟨_, _⟩, hw, ⟨_, _⟩, hf, ⟨_, _⟩, he, _, rfl⟩ := h
  have := readWhole?_length hw
  have := readFraction?_length hf
  have := readExponent?_length he
  simp only at *
  omega

theorem read?_length {s rest : List Char} {n : Numeral} (h : read? s = some (n, rest)) :
    rest.length < s.length := by
  rw [read?.eq_def] at h
  split at h
  · have := readUnsigned?_length h
    simp only [List.length_cons]; omega
  · exact readUnsigned?_length h

/-- The natural number a literal writes, which has no sign, no point, no
exponent and fits in 64 bits. -/
def toNat? (n : Numeral) : Option Nat :=
  if n.negative ∨ n.point.isSome ∨ n.exponent.isSome ∨ Nat.pow 2 64 ≤ n.digits then none
  else some n.digits

/-- The whole number a literal writes, from -2^63 up to 2^64 - 1. Minus zero is none. -/
def toInt? (n : Numeral) : Option Int :=
  if n.point.isSome ∨ n.exponent.isSome then none
  else if n.negative then
    if n.digits = 0 ∨ Nat.pow 2 63 < n.digits then none else some (-n.digits)
  else if n.digits < Nat.pow 2 64 then some n.digits else none

/-- Read digits on from `n` up to the first that would not fit in 64 bits, and count those left. -/
def readFitting (n : Nat) : List Char → Nat × Nat
  | [] => (n, 0)
  | c :: ds =>
    let m := Nat.ofDigitChars 10 [c] n
    if m < Nat.pow 2 64 then readFitting m ds else (n, ds.length + 1)

/-- The float of a literal: its leading digits, rounded, then scaled, which
rounds once more; `none` on overflow. -/
def toFloat? (n : Numeral) : Option Float :=
  let (whole, fraction) := mantissaParts n.digits (n.point.getD 0)
  let (number, left) := readFitting 0 whole
  let (number, unread) := readFitting number fraction
  let power := n.exponent.getD 0 + (left : Int) - (fraction.length - unread : Nat)
  ((Decimal.nearest? false number 0).bind (Decimal.scaled? · power)).map fun x =>
    if n.negative then -x else x

/-- Whether a leading digit at this power of ten is written without an exponent. -/
def isPositional (power : Int) : Bool := -5 ≤ power && power < 16

/-- The literal of `digits * 10 ^ power`: without an exponent at least one
digit follows the point. -/
def ofDecimal (negative : Bool) (digits : Nat) (power : Int) : Numeral :=
  let count := Decimal.digitCount digits
  let top := power + count - 1
  if isPositional top then
    if power < 0 then { negative, digits, point := some (-power).toNat }
    else { negative, digits := digits * Nat.pow 10 (power.toNat + 1), point := some 1 }
  else { negative, digits, point := if count = 1 then none else some (count - 1), exponent := some top }

/-- The literal of a finite float, with the fewest digits that read back;
`none` for an infinity or a NaN. -/
def ofFloat? (x : Float) : Option Numeral :=
  (Decimal.Parts.ofFloat? x).map fun p =>
    let (digits, power) := p.shortest
    ofDecimal p.negative digits power

end Numeral

end Flowchart.Json
