import Flowchart.Json.Numeral
import Flowchart.Json.Quoted

/-! The lexemes of JSON text. -/
namespace Flowchart.Json

/-- A lexeme. A string is `none` when it names half of a surrogate pair. -/
inductive Token
  | openList
  | closeList
  | openObject
  | closeObject
  | comma
  | colon
  | null
  | bool (b : Bool)
  | number (n : Numeral)
  | text (s : Option String)
deriving DecidableEq

namespace Token

def isBlank (c : Char) : Bool := c = ' ' || c = '\x09' || c = '\x0a' || c = '\x0d'

/-- The text of a lexeme; a string that is no text has none. -/
def render : Token → List Char
  | openList => ['[']
  | closeList => [']']
  | openObject => ['\x7b']
  | closeObject => ['\x7d']
  | comma => [',']
  | colon => [':']
  | null => ['n', 'u', 'l', 'l']
  | bool true => ['t', 'r', 'u', 'e']
  | bool false => ['f', 'a', 'l', 's', 'e']
  | number n => n.render
  | text s => Quoted.render (s.getD "").toList

/-- Read the lexeme at the start of a text that does not start with white space. -/
def read? : List Char → Option (Token × List Char)
  | '[' :: s => some (openList, s)
  | ']' :: s => some (closeList, s)
  | '\x7b' :: s => some (openObject, s)
  | '\x7d' :: s => some (closeObject, s)
  | ',' :: s => some (comma, s)
  | ':' :: s => some (colon, s)
  | 'n' :: 'u' :: 'l' :: 'l' :: s => some (null, s)
  | 't' :: 'r' :: 'u' :: 'e' :: s => some (bool true, s)
  | 'f' :: 'a' :: 'l' :: 's' :: 'e' :: s => some (bool false, s)
  | '"' :: s => (Quoted.read? s).map fun (t, s) => (text t, s)
  | s => (Numeral.read? s).map fun (n, s) => (number n, s)

theorem read?_length {s rest : List Char} {t : Token} (h : read? s = some (t, rest)) :
    rest.length < s.length := by
  rw [read?.eq_def] at h
  split at h
  case h_10 =>
    simp only [Option.map_eq_some_iff, Prod.mk.injEq] at h
    obtain ⟨⟨_, _⟩, hq, _, rfl⟩ := h
    have := Quoted.read?_length hq
    simp only [List.length_cons]; omega
  case h_11 =>
    simp only [Option.map_eq_some_iff, Prod.mk.injEq] at h
    obtain ⟨⟨_, _⟩, hn, _, rfl⟩ := h
    exact Numeral.read?_length hn
  all_goals
    simp only [Option.some.injEq, Prod.mk.injEq] at h
    obtain ⟨_, rfl⟩ := h
    simp only [List.length_cons]; omega

def readAll? (s : List Char) : Option (List Token) :=
  match s with
  | [] => some []
  | c :: s =>
    if isBlank c then readAll? s
    else match _h : read? (c :: s) with
      | none => none
      | some (t, rest) => (readAll? rest).map (t :: ·)
termination_by s.length
decreasing_by
  · simp
  · exact read?_length _h

end Token

end Flowchart.Json
