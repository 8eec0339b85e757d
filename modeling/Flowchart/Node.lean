import Flowchart.Port

/-! Nodes of a flowchart. -/
namespace Flowchart

/-- A node: its kind by name and its ports in the order they were declared. -/
structure Node where
  id : String
  kind : String
  ports : List Port
deriving DecidableEq, Repr, Inhabited

namespace Node

def bare (id kind : String) : Node := { id, kind, ports := [] }

def withPort (n : Node) (p : Port) : Node := { n with ports := n.ports ++ [p] }

def port? (n : Node) (id : String) : Option Port := n.ports.find? (·.id = id)

def portNamed? (n : Node) (name : String) : Option Port := n.ports.find? (·.name = name)

def flowOutputs (n : Node) : List Port := n.ports.filter fun p => p.isFlow && p.direction = .output

end Node

end Flowchart
