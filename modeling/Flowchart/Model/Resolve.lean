import Flowchart.Model.Pull

/-! Tokens of nodes: resolving them by the behaviours of a model. -/
namespace Flowchart

def Filling.ofPull {α : Type} (p : Pull α) : Filling Desk (Except Fault α) :=
  .get fun d =>
    let (result, d) := p.run d
    .set d (.done result)

def Activity.ofPull {ω α : Type} (p : Pull α) : Activity Desk ω (Except Fault α) :=
  .get fun d =>
    let (result, d) := p.run d
    .set d (.done result)

/-- The printed form of a value: nothing for null, a text as it is, JSON text for anything else. -/
def Json.printed : Option Json → String
  | none | some .null => ""
  | some (.text s) => s
  | some v => v.render

namespace Behaviour

def printUnit (m : Model) (n : Node) : FlowUnit Desk :=
  .guarded n.id fun _ => do
    match ← .ofPull (n.input m.inputValue "value") with
    | .error f => return .error f
    | .ok v =>
      let line := Json.printed v
      .tell ⟨.info, s!"[{n.id}] {line}"⟩
      .change (·.print line)
      return .ok ()

def setUnit (m : Model) (n : Node) (name : String) : FlowUnit Desk :=
  .guarded n.id fun _ => do
    match ← .ofPull (n.requireInput m.inputValue "value") with
    | .error f => return .error f
    | .ok v =>
      .change fun d => { d with board := d.board.set name v }
      return .ok ()

def delayUnit (n : Node) (ms : Nat) : FlowUnit Desk :=
  .guarded n.id fun signal => .wait ms (some signal) fun fired =>
    .done (if fired then .error .cancelled else .ok ())

def failUnit (n : Node) (message : String) : FlowUnit Desk :=
  .guarded n.id fun _ => .done (.error (.failed message))

/-- Resolve a node by its behaviour. A branch forgets its decision before it pulls its condition. -/
def resolve (m : Model) (n : Node) : Behaviour → Filling Desk Outcome
  | print => do
    .add (printUnit m n)
    return .ok ()
  | setVariable name => do
    .add (setUnit m n name)
    return .ok ()
  | delay ms => do
    .add (delayUnit n ms)
    return .ok ()
  | fail message => do
    .add (failUnit n message)
    return .ok ()
  | branch => do
    .change (·.undecide n.id)
    match ← .ofPull (n.requireBool m.inputValue "condition") with
    | .error f => return .error f
    | .ok b =>
      .change (·.decide n.id b)
      return .ok ()
  | custom c => c.script.resolve n.id
  | _ => return .ok ()

def isOpen (d : Desk) (node : String) (p : Port) : Behaviour → Bool
  | branch =>
    if p.name = "true" then d.decision? node = some true
    else if p.name = "false" then d.decision? node = some false
    else true
  | custom c => !c.closed.contains p.name
  | _ => true

end Behaviour

namespace Model

def isOpen (m : Model) (d : Desk) (node port : String) : Except Fault Bool :=
  match m.graph.node? node with
  | none => throw (.nodeNotFound node)
  | some n =>
    match n.port? port with
    | none => throw (.portNotFound port)
    | some p => return ((m.behaviour? node).map (Behaviour.isOpen d node p)).getD true

/-- Whether control leaves through all of some ports, looking no further
than the first closed one. -/
def allOpen (m : Model) (d : Desk) : List (String × String) → Except Fault Bool
  | [] => return true
  | (node, port) :: rest => do
    if ← m.isOpen d node port then m.allOpen d rest else return false

def resolve (m : Model) (node : String) : Filling Desk Outcome :=
  match m.graph.node? node with
  | none => return .error (.nodeNotFound node)
  | some n =>
    match m.behaviour? node with
    | none => return .ok ()
    | some b => b.resolve m n

end Model

/-- The token of a node, and the ports, each with its node, that lead to it. -/
structure NodeToken where
  node : String
  guards : List (String × String) := []
deriving DecidableEq, Repr, Inhabited

namespace NodeToken

/-- Resolve the token of a node, which does nothing if one of its guards is closed. -/
def resolve (m : Model) (t : NodeToken) : Filling Desk Outcome := do
  match m.allOpen (← .read) t.guards with
  | .error f => return .error f
  | .ok false => return .ok ()
  | .ok true => m.resolve t.node

def token (m : Model) (t : NodeToken) : Token Desk := { label := t.node, resolve := t.resolve m }

end NodeToken

end Flowchart
