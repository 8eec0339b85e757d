import Flowchart.Graph.Cycle
import Flowchart.Graph.Edit

/-! Every defect of a whole graph. -/
namespace Flowchart.Graph

def endpointDefect? (g : Graph) (node port : String) : Option Defect :=
  match g.endpoint node port with
  | .error d => some d
  | .ok _ => none

def danglingEnds (g : Graph) : List Defect :=
  g.connections.flatMap fun c =>
    (g.endpointDefect? c.sourceNode c.sourcePort).toList ++
      (g.endpointDefect? c.targetNode c.targetPort).toList

/-- Every port with its node, in the order they were added. -/
def portsByNode (g : Graph) : List (Node × Port) := g.nodes.flatMap fun n => n.ports.map (n, ·)

def overfullPorts (g : Graph) : List Defect :=
  let full := g.portsByNode.filter fun (_, p) => p.capacity = .single && 1 < g.degree p.id
  (full.map fun (_, p) => p.id).eraseDups.map .capacityExceeded

def missingInputs (g : Graph) : List Defect :=
  let missing := g.portsByNode.filter fun (_, p) =>
    p.required && p.direction = .input && g.degree p.id = 0
  missing.map fun (n, p) => .missingRequired n.id p.id

/-- All defects: ends that do not exist, overfull ports, missing inputs, and at last a data cycle. -/
def defects (g : Graph) : List Defect :=
  g.danglingEnds ++ g.overfullPorts ++ g.missingInputs ++
    if g.hasDataCycle then [.dataCycle] else []

end Flowchart.Graph
