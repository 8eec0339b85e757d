import Flowchart.Blackboard
import Flowchart.Signal

/-! The desk of a host: everything that units and tokens of a flowchart read and write. -/
namespace Flowchart

/-- A host's state, with the last decision of each branch and how often each sum was computed. -/
structure Desk where
  journal : Array String := #[]
  current : Signal := 0
  board : Blackboard := {}
  lines : Array String := #[]
  decisions : List (String × Bool) := []
  sums : List (String × Nat) := []
deriving Inhabited

namespace Desk

def note (d : Desk) (entry : String) : Desk := { d with journal := d.journal.push entry }

def executions (d : Desk) : Nat := (d.journal.filter (·.startsWith "exec ")).size

def print (d : Desk) (line : String) : Desk := { d with lines := d.lines.push line }

def decision? (d : Desk) (node : String) : Option Bool := d.decisions.lookup node

def undecide (d : Desk) (node : String) : Desk :=
  { d with decisions := d.decisions.filter (·.1 ≠ node) }

def decide (d : Desk) (node : String) (b : Bool) : Desk :=
  { d with decisions := (node, b) :: (d.undecide node).decisions }

def sumCount (d : Desk) (node : String) : Nat := (d.sums.lookup node).getD 0

def countSum (d : Desk) (node : String) : Desk :=
  { d with sums := (node, d.sumCount node + 1) :: d.sums.filter (·.1 ≠ node) }

end Desk

end Flowchart
