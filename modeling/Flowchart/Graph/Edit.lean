import Flowchart.Graph.Defect
import Flowchart.Graph.Reach

/-! Changing a graph, which refuses whatever would break a rule. -/
namespace Flowchart.Graph

def endpoint (g : Graph) (node port : String) : Except Defect Port :=
  match g.node? node with
  | none => throw (.unknownNode node)
  | some n =>
    match n.port? port with
    | none => throw (.unknownPort node port)
    | some p => return p

def refuseIf (condition : Bool) (d : Defect) : Except Defect Unit :=
  if condition then throw d else return

def isFull (g : Graph) (p : Port) : Bool := p.capacity = .single && 0 < g.degree p.id

/-- Whether a connection may be added; the first rule it breaks, if any. -/
def vet (g : Graph) (c : Connection) : Except Defect Unit := do
  let source ← g.endpoint c.sourceNode c.sourcePort
  let target ← g.endpoint c.targetNode c.targetPort
  refuseIf (c ∈ g.connections) (.duplicateConnection c)
  refuseIf (c.sourceNode = c.targetNode) (.selfConnection c.sourceNode)
  refuseIf (c.sourcePort = c.targetPort) (.samePort c.sourcePort)
  refuseIf (source.direction ≠ .output) (.directionMismatch source.id)
  refuseIf (target.direction ≠ .input) (.directionMismatch target.id)
  refuseIf (!source.dataType.compatible target.dataType)
    (.incompatiblePorts source.id target.id source.dataType.title target.dataType.title)
  refuseIf (g.isFull source) (.capacityExceeded source.id)
  refuseIf (g.isFull target) (.capacityExceeded target.id)
  refuseIf (!source.isFlow && g.dataPath c.targetNode c.sourceNode) .dataCycle

def connect (g : Graph) (c : Connection) : Except Defect Graph := do
  g.vet c
  return { g with connections := g.connections ++ [c] }

/-- The first of `ports` whose id is taken by one before it or by a port of the graph. -/
def repeatedPort? (g : Graph) (before : List Port) : List Port → Option Port
  | [] => none
  | p :: rest =>
    if before.any (·.id = p.id) || (g.port? p.id).isSome then some p
    else g.repeatedPort? (before ++ [p]) rest

def addNode (g : Graph) (n : Node) : Except Defect Graph :=
  if (g.node? n.id).isSome then throw (.duplicateNode n.id)
  else match g.repeatedPort? [] n.ports with
    | some p => throw (.duplicatePort p.id)
    | none => return { g with nodes := g.nodes ++ [n] }

/-- Remove the first node with that id and every connection that touches the id. -/
def removeNode (g : Graph) (id : String) : Option Node × Graph :=
  match g.node? id with
  | none => (none, g)
  | some n =>
    (some n, { g with nodes := g.nodes.eraseP (·.id = id)
                      connections := g.connections.filter (!·.touchesNode id) })

def disconnect (g : Graph) (c : Connection) : Bool × Graph :=
  (c ∈ g.connections, { g with connections := g.connections.erase c })

end Flowchart.Graph
