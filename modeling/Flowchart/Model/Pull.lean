import Flowchart.Library
import Flowchart.Model.Basic

/-! Pulling values through a model. A value is computed anew each time it is asked for. -/
namespace Flowchart

/-- Computing a value at a host's desk. What was noted and counted stays when it fails. -/
abbrev Pull := ExceptT Fault (StateM Desk)

abbrev Reading := String → Pull (Option Json)

namespace Node

def input (n : Node) (read : Reading) (name : String) : Pull (Option Json) :=
  match n.portNamed? name with
  | some p => read p.id
  | none => throw (.portNotFound (Library.portId n.id name))

/-- The value that arrives at the input of that name, which has to be connected. -/
def requireInput (n : Node) (read : Reading) (name : String) : Pull Json := do
  match ← n.input read name with
  | some v => return v
  | none => throw (.missingInput (Library.portId n.id name))

def requireNumber (n : Node) (read : Reading) (name : String) : Pull Float := do
  match (← n.requireInput read name).toFloat? with
  | some x => return x
  | none => throw (.invalidInput (Library.portId n.id name) "number")

def requireBool (n : Node) (read : Reading) (name : String) : Pull Bool := do
  match (← n.requireInput read name).toBool? with
  | some b => return b
  | none => throw (.invalidInput (Library.portId n.id name) "boolean")

end Node

def Behaviour.value (b : Behaviour) (read : Reading) (n : Node) (port : String) : Pull Json :=
  match b with
  | constant v => return v
  | add => do
    modify (·.countSum n.id)
    let x ← n.requireNumber read "a"
    let y ← n.requireNumber read "b"
    return .ofFloat (x + y)
  | getVariable name => do return ((← get).board.get? name).getD .null
  | custom c => do
    modify (·.note ("value " ++ port))
    match c.values.lookup port with
    | some (.value v) => return v
    | some (.pass name) => n.requireInput read name
    | some (.fail f) => throw f
    | none => throw (.noPortValue n.id port)
  | _ => throw (.noPortValue n.id port)

namespace Model

def value (m : Model) (read : Reading) (node port : String) : Pull Json :=
  match m.graph.node? node, m.behaviour? node with
  | none, _ => throw (.nodeNotFound node)
  | some _, none => throw (.noPortValue node port)
  | some n, some b => b.value read n port

/-- The value that arrives at a port along the first connection into it, within `depth` pulls. -/
def read (m : Model) : Nat → Reading
  | 0, _ => throw .endlessPull
  | depth + 1, port =>
    match m.graph.arriving? port with
    | none => return none
    | some c => do return some (← m.value (m.read depth) c.sourceNode c.sourcePort)

/-- The depth at which a value would have gone through one connection twice. -/
def depth (m : Model) : Nat := m.graph.connections.length + 1

/-- The value that arrives at a port; none if it is not connected. -/
def inputValue (m : Model) : Reading := m.read m.depth

def portValue (m : Model) (node port : String) : Pull Json := m.value m.inputValue node port

end Model

end Flowchart
