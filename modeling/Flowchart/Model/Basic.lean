import Flowchart.Graph.Edit
import Flowchart.Graph.Review
import Flowchart.Script

/-! Models: graphs whose nodes have behaviours. -/
namespace Flowchart

/-- How a custom node answers for the value of a port. -/
inductive Answer
  | value (v : Json)
  /-- With the value of one of its inputs, by name. -/
  | pass (input : String)
  | fail (f : Fault)
deriving Inhabited

/-- A custom node: its script, the values of its ports by their ids, and the
names of its closed ports. -/
structure Custom where
  script : Script := []
  values : List (String × Answer) := []
  closed : List String := []
deriving Inhabited

inductive Behaviour
  | constant (value : Json)
  | add
  | getVariable (name : String)
  | setVariable (name : String)
  | print
  | delay (ms : Nat)
  | fail (message : String)
  /-- Decides between two ways by its input. -/
  | branch
  | bare
  | custom (c : Custom)
deriving Inhabited

structure Model where
  graph : Graph := {}
  behaviours : List (String × Behaviour) := []
deriving Inhabited

namespace Model

def behaviour? (m : Model) (node : String) : Option Behaviour := m.behaviours.lookup node

/-- Give a node a behaviour, in place of the one before. -/
def attach (m : Model) (node : String) (b : Behaviour) : Model :=
  { m with behaviours := (node, b) :: m.behaviours.filter (·.1 ≠ node) }

def connect (m : Model) (c : Connection) : Except Defect Model := do
  return { m with graph := ← m.graph.connect c }

def validate (m : Model) : Except Defect Unit :=
  match m.graph.defects with
  | [] => return
  | d :: _ => throw d

end Model

end Flowchart
