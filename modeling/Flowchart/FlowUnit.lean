import Flowchart.Activity.Basic
import Flowchart.Fault

/-! Units, the smallest pieces of work of a run. -/
namespace Flowchart

inductive LogLevel
  | info
  | warn
  | error
deriving DecidableEq, Repr, Inhabited

structure LogLine where
  level : LogLevel
  text : String
deriving DecidableEq, Repr, Inhabited

/-- A unit: a label, and what it does under the cancellation signal of its run. -/
structure FlowUnit (σ : Type) where
  label : String
  execute : Signal → Activity σ LogLine Outcome

def FlowUnit.guarded {σ : Type} (label : String) (body : Signal → Activity σ LogLine Outcome) :
    FlowUnit σ :=
  { label
    execute := fun signal => .poll signal fun fired =>
      if fired then .done (.error .cancelled) else body signal }

/-- A unit with the label of the token that left it. -/
structure Entry (σ : Type) where
  token : String
  unit : FlowUnit σ

end Flowchart
