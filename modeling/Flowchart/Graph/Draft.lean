import Flowchart.Graph.Edit

/-! Drafts: graphs written down piece by piece and checked at the end. -/
namespace Flowchart

/-- A graph being written down. Nothing is checked yet. -/
structure Draft where
  id : String
  name : String
  nodes : List Node := []
  connections : List Connection := []
deriving Repr, Inhabited

namespace Draft

def node (d : Draft) (n : Node) : Draft := { d with nodes := d.nodes ++ [n] }

def bareNode (d : Draft) (id kind : String) : Draft := d.node (.bare id kind)

/-- Add a port to the last node; without a node nothing happens. -/
def port (d : Draft) (p : Port) : Draft :=
  match d.nodes.getLast? with
  | none => d
  | some n => { d with nodes := d.nodes.dropLast ++ [n.withPort p] }

def input (d : Draft) (id name : String) (t : DataType) : Draft := d.port (.input id name t)

def requiredInput (d : Draft) (id name : String) (t : DataType) : Draft :=
  d.port (Port.input id name t).demanded

def output (d : Draft) (id name : String) (t : DataType) : Draft := d.port (.output id name t)

def flowInput (d : Draft) (id name : String) : Draft := d.input id name .flow

def flowOutput (d : Draft) (id name : String) : Draft := d.output id name .flow

def connect (d : Draft) (c : Connection) : Draft := { d with connections := d.connections ++ [c] }

/-- The graph, built from all nodes and then all connections; the first rule broken, if any. -/
def build (d : Draft) : Except Defect Graph := do
  let g ← d.nodes.foldlM Graph.addNode { id := d.id, name := d.name }
  d.connections.foldlM Graph.connect g

end Draft

end Flowchart
