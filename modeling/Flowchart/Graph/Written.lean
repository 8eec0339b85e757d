import Flowchart.Graph.Basic
import Flowchart.Json.Record

/-! Graphs as JSON text. -/
namespace Flowchart

open Json (Written)

namespace Port

def toWritten (p : Port) : Written :=
  .ofFields [("id", .ofText p.id), ("name", .ofText p.name),
    ("direction", .ofText p.direction.name), ("dataType", .ofText p.dataType.name),
    ("capacity", .ofText p.capacity.name), ("required", .bool p.required)]

def ofWritten? (w : Written) : Option Port := do
  let [id, name, direction, dataType, capacity, required] ←
    w.toRecord? ["id", "name", "direction", "dataType", "capacity", "required"] | none
  return {
    id := ← (← id).toText?
    name := ← (← name).toText?
    direction := ← (← direction).toChoice? Direction.choices
    dataType := ← (← dataType).toChoice? DataType.choices
    capacity := ← (← capacity).toChoice? Capacity.choices
    required := ← (← required).toBool? }

end Port

namespace Node

def toWritten (n : Node) : Written :=
  .ofFields [("id", .ofText n.id), ("nodeType", .ofText n.kind),
    ("ports", .list (n.ports.map Port.toWritten))]

def ofWritten? (w : Written) : Option Node := do
  let [id, kind, ports] ← w.toRecord? ["id", "nodeType", "ports"] | none
  return {
    id := ← (← id).toText?
    kind := ← (← kind).toText?
    ports := ← (← ports).toList? Port.ofWritten? }

end Node

namespace Connection

def toWritten (c : Connection) : Written :=
  .ofFields [("sourceNode", .ofText c.sourceNode), ("sourcePort", .ofText c.sourcePort),
    ("targetNode", .ofText c.targetNode), ("targetPort", .ofText c.targetPort)]

def ofWritten? (w : Written) : Option Connection := do
  let [sourceNode, sourcePort, targetNode, targetPort] ←
    w.toRecord? ["sourceNode", "sourcePort", "targetNode", "targetPort"] | none
  return {
    sourceNode := ← (← sourceNode).toText?
    sourcePort := ← (← sourcePort).toText?
    targetNode := ← (← targetNode).toText?
    targetPort := ← (← targetPort).toText? }

end Connection

namespace Graph

def toWritten (g : Graph) : Written :=
  .ofFields [("id", .ofText g.id), ("name", .ofText g.name),
    ("nodes", .list (g.nodes.map Node.toWritten)),
    ("connections", .list (g.connections.map Connection.toWritten))]

def ofWritten? (w : Written) : Option Graph := do
  let [id, name, nodes, connections] ←
    w.toRecord? ["id", "name", "nodes", "connections"] | none
  return {
    id := ← (← id).toText?
    name := ← (← name).toText?
    nodes := ← (← nodes).toList? Node.ofWritten?
    connections := ← (← connections).toList? Connection.ofWritten? }

def render (g : Graph) : String := String.ofList g.toWritten.render

def read? (s : String) : Option Graph := do ofWritten? (← Written.read? s)

end Graph

end Flowchart
