import Flowchart.Desk
import Flowchart.Token

/-! Scripts: tokens and units that are described step by step and keep a journal of what they do. -/
namespace Flowchart

inductive Act
  | ok
  | cancel
  /-- Note whether the unit's own signal has fired. -/
  | observe
  | crash
  | fail (f : Fault)
  /-- Wait, come what may. -/
  | sleep (ms : Nat)
  /-- Wait, or end cancelled as soon as the unit's signal fires. -/
  | delay (ms : Nat)
deriving DecidableEq, Repr, Inhabited

def Act.perform (signal : Signal) : List Act → Activity Desk LogLine Outcome
  | [] => return .ok ()
  | .ok :: rest => perform signal rest
  | .cancel :: rest => do
    let d ← .read
    .fire d.current (perform signal rest)
  | .observe :: rest => do
    let fired ← .hasFired signal
    .change (·.note (if fired then "observe true" else "observe false"))
    perform signal rest
  | .crash :: _ => .crash
  | .fail f :: _ => return .error f
  | .sleep ms :: rest => .wait ms none fun _ => perform signal rest
  | .delay ms :: rest => .wait ms (some signal) fun fired =>
    if fired then .done (.error .cancelled) else perform signal rest

/-- The unit that notes its label and then takes some steps. -/
def Act.unit (label : String) (acts : List Act) : FlowUnit Desk :=
  .guarded label fun signal => do
    .change (·.note ("exec " ++ label))
    perform signal acts

inductive ScriptItem
  /-- Put a unit into the accumulator, numbered by how many were executed so far if it is counted. -/
  | push (label : String) (acts : List Act) (counted : Bool)
  | clear
  | drain
  | look
  | cancel
  | fail (f : Fault)
deriving DecidableEq, Repr, Inhabited

abbrev Script := List ScriptItem

namespace Script

def follow : Script → Filling Desk Outcome
  | [] => return .ok ()
  | .push label acts counted :: rest => do
    let d ← .read
    .add (Act.unit (if counted then s!"{label}#{d.executions}" else label) acts)
    follow rest
  | .clear :: rest => .clear (follow rest)
  | .drain :: rest => .drain fun entries => do
    let names := entries.map fun e => s!"{e.token}/{e.unit.label}"
    .change (·.note ("drain " ++ ",".intercalate names))
    follow rest
  | .look :: rest => .look fun labels => do
    .change (·.note (s!"look {labels.length} " ++ ",".intercalate (labels.map (·.2))))
    follow rest
  | .cancel :: rest => do
    let d ← .read
    .fire d.current (follow rest)
  | .fail f :: _ => return .error f

def resolve (label : String) (s : Script) : Filling Desk Outcome := do
  .change (·.note ("resolve " ++ label))
  follow s

def token (label : String) (s : Script) : Token Desk := { label, resolve := s.resolve label }

/-- A token that leaves no units and notes nothing. -/
def silent (label : String) : Token Desk := { label, resolve := .done (.ok ()) }

end Script

end Flowchart
