import Flowchart.Graph.Basic

/-! What can be wrong with a graph or with a change to it. -/
namespace Flowchart

/-- A rule that a graph breaks, or that a change would break. -/
inductive Defect
  | duplicateNode (node : String)
  | duplicatePort (port : String)
  | unknownNode (node : String)
  | unknownPort (node port : String)
  | duplicateConnection (connection : Connection)
  | selfConnection (node : String)
  | samePort (port : String)
  | directionMismatch (port : String)
  /-- The types of the two ends do not go together. -/
  | incompatiblePorts (source target sourceType targetType : String)
  | capacityExceeded (port : String)
  | missingRequired (node port : String)
  /-- Values would go round in a circle. -/
  | dataCycle
deriving DecidableEq, Repr

def Defect.message : Defect → String
  | duplicateNode node => s!"Node '{node}' already exists"
  | duplicatePort port => s!"Port '{port}' already exists"
  | unknownNode node => s!"Unknown node '{node}'"
  | unknownPort node port => s!"Node '{node}' has no port '{port}'"
  | duplicateConnection c =>
    s!"Connection {c.sourceNode}.{c.sourcePort} -> {c.targetNode}.{c.targetPort} already exists"
  | selfConnection node => s!"Node '{node}' cannot connect to itself"
  | samePort port => s!"Port '{port}' cannot connect to itself"
  | directionMismatch port => s!"Port '{port}' has the wrong direction for this end"
  | incompatiblePorts source target sourceType targetType =>
    s!"Ports '{source}' ({sourceType}) and '{target}' ({targetType}) are incompatible"
  | capacityExceeded port => s!"Single-capacity port '{port}' is already connected"
  | missingRequired node port => s!"Required input '{port}' on node '{node}' is not connected"
  | dataCycle => "Cycle detected in data connections"

end Flowchart
