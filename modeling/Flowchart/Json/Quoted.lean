/-! Quoted JSON strings: escapes, and the surrogate halves that escapes can name. -/
namespace Flowchart.Json.Quoted

def hexDigit (n : Nat) : Char := if n < 10 then Char.ofNat (48 + n) else Char.ofNat (87 + n)

def hexValue? (c : Char) : Option Nat :=
  if '0' ≤ c ∧ c ≤ '9' then some (c.toNat - 48)
  else if 'a' ≤ c ∧ c ≤ 'f' then some (c.toNat - 87)
  else if 'A' ≤ c ∧ c ≤ 'F' then some (c.toNat - 55)
  else none

/-- One character between quotes. The quote, the backslash and control characters are escaped, in
the short form if possible. -/
def encodeChar (c : Char) : List Char :=
  if c = '"' then ['\\', '"']
  else if c = '\\' then ['\\', '\\']
  else if c = '\x08' then ['\\', 'b']
  else if c = '\x09' then ['\\', 't']
  else if c = '\x0a' then ['\\', 'n']
  else if c = '\x0c' then ['\\', 'f']
  else if c = '\x0d' then ['\\', 'r']
  else if c.toNat < 32 then ['\\', 'u', '0', '0', hexDigit (c.toNat / 16), hexDigit (c.toNat % 16)]
  else [c]

def encode (s : List Char) : List Char := s.flatMap encodeChar

def render (s : List Char) : List Char := '"' :: encode s ++ ['"']

def shortEscape? (c : Char) : Option Char :=
  if c = '"' ∨ c = '\\' ∨ c = '/' then some c
  else if c = 'b' then some '\x08'
  else if c = 't' then some '\x09'
  else if c = 'n' then some '\x0a'
  else if c = 'f' then some '\x0c'
  else if c = 'r' then some '\x0d'
  else none

def codeUnit? (a b c d : Char) : Option Nat := do
  return (((← hexValue? a) * 16 + (← hexValue? b)) * 16 + (← hexValue? c)) * 16 + (← hexValue? d)

/-- Read up to the closing quote into code units, among which escapes may
have put halves of surrogate pairs. -/
def scan? : List Char → Option (List Nat × List Char)
  | '"' :: rest => some ([], rest)
  | '\\' :: 'u' :: a :: b :: c :: d :: rest => do
    let unit ← codeUnit? a b c d
    let (units, rest) ← scan? rest
    return (unit :: units, rest)
  | '\\' :: c :: rest => do
    let c ← shortEscape? c
    let (units, rest) ← scan? rest
    return (c.toNat :: units, rest)
  | c :: rest =>
    if c.toNat < 32 ∨ c = '\\' then none
    else do
      let (units, rest) ← scan? rest
      return (c.toNat :: units, rest)
  | [] => none

theorem scan?_length {s : List Char} {units : List Nat} {rest : List Char}
    (h : scan? s = some (units, rest)) : rest.length < s.length := by
  fun_induction scan? s generalizing units rest with
  | case1 r => simp_all
  | case2 a b c d r ih =>
    simp only [Option.bind_eq_bind, Option.bind_eq_some_iff, Option.pure_def, Option.some.injEq, Prod.mk.injEq] at h
    obtain ⟨unit, _, ⟨us, r'⟩, hr, rfl, rfl⟩ := h
    have := ih hr
    simp only [List.length_cons]; omega
  | case3 c r _ ih =>
    simp only [Option.bind_eq_bind, Option.bind_eq_some_iff, Option.pure_def, Option.some.injEq, Prod.mk.injEq] at h
    obtain ⟨unit, _, ⟨us, r'⟩, hr, rfl, rfl⟩ := h
    have := ih hr
    simp only [List.length_cons]; omega
  | case4 => simp at h
  | case5 c r _ _ _ _ ih =>
    simp only [Option.bind_eq_bind, Option.bind_eq_some_iff, Option.pure_def, Option.some.injEq, Prod.mk.injEq] at h
    obtain ⟨⟨us, r'⟩, hr, rfl, rfl⟩ := h
    have := ih hr
    simp only [List.length_cons]; omega
  | case6 => simp at h

def isHigh (u : Nat) : Bool := 0xD800 ≤ u && u < 0xDC00

def isLow (u : Nat) : Bool := 0xDC00 ≤ u && u < 0xE000

def pair (high low : Nat) : Char := Char.ofNat (0x10000 + (high - 0xD800) * 0x400 + (low - 0xDC00))

/-- Join surrogate pairs; `none` when a half stands alone. -/
def join? : List Nat → Option (List Char)
  | [] => some []
  | [u] => if isHigh u || isLow u then none else some [Char.ofNat u]
  | u :: v :: rest =>
    if isHigh u && isLow v then (join? rest).map (pair u v :: ·)
    else if isHigh u || isLow u then none
    else (join? (v :: rest)).map (Char.ofNat u :: ·)

/-- Read a string after its opening quote; it is `none` when it names half of a surrogate pair. -/
def read? (s : List Char) : Option (Option String × List Char) := do
  let (units, rest) ← scan? s
  return ((join? units).map String.ofList, rest)

theorem read?_length {s rest : List Char} {t : Option String}
    (h : read? s = some (t, rest)) : rest.length < s.length := by
  simp only [read?, Option.bind_eq_bind, Option.bind_eq_some_iff, Option.pure_def,
    Option.some.injEq, Prod.mk.injEq] at h
  obtain ⟨⟨_, _⟩, hs, _, rfl⟩ := h
  exact scan?_length hs

end Flowchart.Json.Quoted
