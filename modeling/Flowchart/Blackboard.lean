import Flowchart.Json.Value

/-! The blackboard, where the nodes of a flowchart keep variables. -/
namespace Flowchart

/-- Variables with their values, each name once. -/
structure Blackboard where
  entries : List (String × Json) := []
deriving Inhabited

namespace Blackboard

def get? (b : Blackboard) (name : String) : Option Json := b.entries.lookup name

def size (b : Blackboard) : Nat := b.entries.length

def set (b : Blackboard) (name : String) (value : Json) : Blackboard :=
  if (b.get? name).isSome then
    ⟨b.entries.map fun (k, v) => if k = name then (k, value) else (k, v)⟩
  else ⟨b.entries ++ [(name, value)]⟩

def remove (b : Blackboard) (name : String) : Blackboard := ⟨b.entries.filter (·.1 ≠ name)⟩

end Blackboard

end Flowchart
