import Flowchart.Json.Value

/-! Records and enumerations in JSON text. -/
namespace Flowchart.Json.Written

def toText? : Written → Option String
  | .text s => s
  | _ => none

def toBool? : Written → Option Bool
  | .bool b => some b
  | _ => none

def toNat? : Written → Option Nat
  | .number n => n.toNat?
  | _ => none

def toList? {α : Type} (decode : Written → Option α) : Written → Option (List α)
  | .list items => items.mapM decode
  | _ => none

/-- The value named by a text, or by the single key of an object that holds null. -/
def toChoice? {α : Type} (choices : List (String × α)) : Written → Option α
  | .text s => do choices.lookup (← s)
  | .object [(k, .null)] => do choices.lookup (← k)
  | _ => none

/-- The only field of that name, `some none` if there is none, and `none` if there are several. -/
def field? (fields : List (Option String × Written)) (name : String) : Option (Option Written) :=
  match fields.filter (·.1 == some name) with
  | [] => some none
  | [(_, w)] => some (some w)
  | _ => none

/-- The values of a record's fields in the order of `names`, from an object
or from a list of the first fields. -/
def toRecord? (names : List String) : Written → Option (List (Option Written))
  | .object fields =>
    if fields.all (·.1.isSome) then names.mapM (field? fields) else none
  | .list items =>
    if items.length ≤ names.length then
      some (items.map some ++ List.replicate (names.length - items.length) none)
    else none
  | _ => none

def ofText (s : String) : Written := .text (some s)

def ofNat (n : Nat) : Written := .number (.ofNat n)

def ofFields (fields : List (String × Written)) : Written :=
  .object (fields.map fun (k, w) => (some k, w))

end Flowchart.Json.Written
