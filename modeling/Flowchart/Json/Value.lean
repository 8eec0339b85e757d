import Flowchart.Json.Written

/-! JSON values, the values that travel along data connections. -/
namespace Flowchart

/-- A JSON value. Whole numbers and floats are kept apart; an object's fields are sorted by key and
no key is repeated. -/
inductive Json
  | null
  | bool (b : Bool)
  | int (i : Int)
  | float (x : Float)
  | text (s : String)
  | list (items : List Json)
  | object (fields : List (String × Json))
deriving Inhabited

namespace Json

def maxDepth : Nat := 127

/-- Set a field of a sorted object; the last value of a repeated key stays. -/
def setField (key : String) (value : Json) : List (String × Json) → List (String × Json)
  | [] => [(key, value)]
  | (k, v) :: rest =>
    if key < k then (key, value) :: (k, v) :: rest
    else if key = k then (key, value) :: rest
    else (k, v) :: setField key value rest

/-- The number of a literal: whole where it is written as one and fits, else the nearest float. -/
def ofNumeral? (n : Numeral) : Option Json :=
  match n.toInt? with
  | some i => some (.int i)
  | none => n.toFloat?.map .float

mutual
def decode? : Written → Option Json
  | .null => some .null
  | .bool b => some (.bool b)
  | .number n => ofNumeral? n
  | .text s => s.map .text
  | .list items => (decodeItems? items).map .list
  | .object fields => (decodeFields? [] fields).map .object

def decodeItems? : List Written → Option (List Json)
  | [] => some []
  | w :: rest => do return (← decode? w) :: (← decodeItems? rest)

def decodeFields? (done : List (String × Json)) :
    List (Option String × Written) → Option (List (String × Json))
  | [] => some done
  | (k, w) :: rest => do decodeFields? (setField (← k) (← decode? w) done) rest
end

/-- The value that a written one stands for, if every number and string in it stands for one. -/
def ofWritten? (w : Written) : Option Json :=
  if w.depth ≤ maxDepth then decode? w else none

def read? (s : String) : Option Json := do ofWritten? (← Written.read? s)

mutual
def toWritten : Json → Written
  | .null => .null
  | .bool b => .bool b
  | .int i => .number (.ofInt i)
  | .float x => match Numeral.ofFloat? x with
    | some n => .number n
    | none => .null
  | .text s => .text (some s)
  | .list items => .list (writtenItems items)
  | .object fields => .object (writtenFields fields)

def writtenItems : List Json → List Written
  | [] => []
  | v :: rest => v.toWritten :: writtenItems rest

def writtenFields : List (String × Json) → List (Option String × Written)
  | [] => []
  | (k, v) :: rest => (some k, v.toWritten) :: writtenFields rest
end

def render (v : Json) : String := String.ofList v.toWritten.render

def toFloat? : Json → Option Float
  | .int i => Decimal.ofInt? i
  | .float x => some x
  | _ => none

def toBool? : Json → Option Bool
  | .bool b => some b
  | _ => none

/-- The value of a float; there is none for an infinity or a NaN, which become null. -/
def ofFloat (x : Float) : Json := if x.isFinite then .float x else .null

end Json

end Flowchart
