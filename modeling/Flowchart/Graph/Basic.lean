import Flowchart.Node

/-! Flowchart graphs: nodes, the connections between their ports, and look-ups. -/
namespace Flowchart

/-- A connection from a port of one node to a port of another, by their ids. -/
structure Connection where
  sourceNode : String
  sourcePort : String
  targetNode : String
  targetPort : String
deriving DecidableEq, Repr, Inhabited

namespace Connection

def touchesPort (c : Connection) (port : String) : Bool := c.sourcePort = port || c.targetPort = port

def touchesNode (c : Connection) (node : String) : Bool := c.sourceNode = node || c.targetNode = node

end Connection

/-- A graph, with nodes and connections in the order they were added. One
read from a file need obey no rule. -/
structure Graph where
  id : String := ""
  name : String := ""
  nodes : List Node := []
  connections : List Connection := []
deriving DecidableEq, Repr, Inhabited

namespace Graph

def node? (g : Graph) (id : String) : Option Node := g.nodes.find? (·.id = id)

/-- The first port with that id, with its node. -/
def port? (g : Graph) (id : String) : Option (Node × Port) :=
  g.nodes.findSome? fun n => (n.port? id).map (n, ·)

def connectionsOf (g : Graph) (port : String) : List Connection :=
  g.connections.filter (·.touchesPort port)

def degree (g : Graph) (port : String) : Nat := (g.connectionsOf port).length

def leaving? (g : Graph) (port : String) : Option Connection :=
  (g.connectionsOf port).find? (·.sourcePort = port)

def arriving? (g : Graph) (port : String) : Option Connection :=
  (g.connectionsOf port).find? (·.targetPort = port)

/-- Whether a connection carries values: its source port is known and no control leaves it. -/
def carriesData (g : Graph) (c : Connection) : Bool :=
  match g.port? c.sourcePort with
  | some (_, p) => !p.isFlow
  | none => false

def dataConnections (g : Graph) : List Connection := g.connections.filter g.carriesData

end Graph

end Flowchart
