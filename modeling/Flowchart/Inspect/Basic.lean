import Flowchart.Inspect.Hidden
import Flowchart.Session.Host

/-! How accumulators and plans are shown to somebody who looks into them. -/
namespace Flowchart

namespace Inspect

/-- A character in a quoted text. What cannot be seen on its own is shown by its number. -/
def character (c : Char) : List Char :=
  if c = '"' then ['\\', '"']
  else if c = '\\' then ['\\', '\\']
  else if c = '\x00' then ['\\', '0']
  else if c = '\x09' then ['\\', 't']
  else if c = '\x0a' then ['\\', 'n']
  else if c = '\x0d' then ['\\', 'r']
  else if isHidden c then
    ['\\', 'u', '\x7b'] ++ Nat.toDigits 16 c.toNat ++ ['\x7d']
  else [c]

def text (s : String) : String :=
  String.ofList ('"' :: s.toList.flatMap character ++ ['"'])

def record (name : String) (fields : List (String × String)) : String :=
  name ++ " \x7b " ++ ", ".intercalate (fields.map fun (k, v) => k ++ ": " ++ v) ++ " \x7d"

def list (items : List String) : String := "[" ++ ", ".intercalate items ++ "]"

end Inspect

def Strategy.title : Strategy → String
  | linear => "Linear"
  | hierarchical => "Hierarchical"
  | immediate => "Immediate"

def Accumulator.inspect {σ : Type} (a : Accumulator σ) : String :=
  let units := a.labels.map fun (token, unit) =>
    Inspect.record "AccumulatedUnit" [("token", Inspect.text token), ("unit", Inspect.text unit)]
  Inspect.record "FlowAccumulator"
    [("units", Inspect.list units), ("current_token", Inspect.text a.current)]

def Plan.inspect {σ : Type} (p : Plan σ) (spent : Bool) : String :=
  Inspect.record "FlowPlan"
    [("label", Inspect.text p.label), ("kind", p.strategy.title),
      ("units", Inspect.list (p.labels.map Inspect.text)),
      ("consumed", if spent then "true" else "false")]

end Flowchart
