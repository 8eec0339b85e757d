import Flowchart.Json.Token

/-! JSON as it is written: order, repeated keys and number literals are kept. -/
namespace Flowchart.Json

/-- A JSON text taken apart, before anything is decided about its numbers, its keys or the strings
that are no text. -/
inductive Written
  | null
  | bool (b : Bool)
  | number (n : Numeral)
  | text (s : Option String)
  | list (items : List Written)
  | object (fields : List (Option String × Written))

namespace Written

mutual
def depth : Written → Nat
  | list items => itemsDepth items + 1
  | object fields => fieldsDepth fields + 1
  | _ => 0

def itemsDepth : List Written → Nat
  | [] => 0
  | w :: rest => max w.depth (itemsDepth rest)

def fieldsDepth : List (Option String × Written) → Nat
  | [] => 0
  | (_, w) :: rest => max w.depth (fieldsDepth rest)
end

mutual
def tokens : Written → List Token
  | null => [.null]
  | bool b => [.bool b]
  | number n => [.number n]
  | text s => [.text s]
  | list items => .openList :: itemTokens items
  | object fields => .openObject :: fieldTokens fields

def itemTokens : List Written → List Token
  | [] => [.closeList]
  | [w] => w.tokens ++ [.closeList]
  | w :: rest => w.tokens ++ .comma :: itemTokens rest

def fieldTokens : List (Option String × Written) → List Token
  | [] => [.closeObject]
  | [(k, w)] => .text k :: .colon :: w.tokens ++ [.closeObject]
  | (k, w) :: rest => .text k :: .colon :: w.tokens ++ .comma :: fieldTokens rest
end

def render (w : Written) : List Char := w.tokens.flatMap Token.render

/-- What an unfinished list or object holds before the value being read, last first. -/
inductive Frame
  | items (before : List Written)
  | fields (before : List (Option String × Written)) (key : Option String)

inductive Expectation
  | value
  | itemOrClose
  | keyOrClose
  | key (before : List (Option String × Written))
  | colon (before : List (Option String × Written)) (key : Option String)
  | after (w : Written)

/-- A reading in progress: what may come next, inside which lists and objects. -/
structure Reading where
  next : Expectation := .value
  inside : List Frame := []

def Reading.enter (inside : List Frame) : Token → Option Reading
  | .null => some ⟨.after .null, inside⟩
  | .bool b => some ⟨.after (.bool b), inside⟩
  | .number n => some ⟨.after (.number n), inside⟩
  | .text s => some ⟨.after (.text s), inside⟩
  | .openList => some ⟨.itemOrClose, inside⟩
  | .openObject => some ⟨.keyOrClose, inside⟩
  | _ => none

def Reading.step (r : Reading) (t : Token) : Option Reading :=
  match r.next, t with
  | .value, t => enter r.inside t
  | .itemOrClose, .closeList => some ⟨.after (.list []), r.inside⟩
  | .itemOrClose, t => enter (.items [] :: r.inside) t
  | .keyOrClose, .closeObject => some ⟨.after (.object []), r.inside⟩
  | .keyOrClose, .text k => some ⟨.colon [] k, r.inside⟩
  | .key before, .text k => some ⟨.colon before k, r.inside⟩
  | .colon before k, .colon => some ⟨.value, .fields before k :: r.inside⟩
  | .after w, t =>
    match r.inside, t with
    | .items before :: outer, .comma => some ⟨.value, .items (w :: before) :: outer⟩
    | .items before :: outer, .closeList => some ⟨.after (.list (w :: before).reverse), outer⟩
    | .fields before k :: outer, .comma => some ⟨.key ((k, w) :: before), outer⟩
    | .fields before k :: outer, .closeObject =>
      some ⟨.after (.object ((k, w) :: before).reverse), outer⟩
    | _, _ => none
  | _, _ => none

def Reading.result? : Reading → Option Written
  | ⟨.after w, []⟩ => some w
  | _ => none

def ofTokens? (ts : List Token) : Option Written := do
  (← ts.foldlM Reading.step {}).result?

/-- Read a text that holds one value and white space. -/
def read? (s : String) : Option Written := do
  ofTokens? (← Token.readAll? s.toList)

end Written

end Flowchart.Json
