import Flowchart.Event
import Flowchart.FlowUnit

/-! What runs share: the host's state, the book of runs and plans, and what they put out. -/
namespace Flowchart

abbrev PlanId := Nat

/-- The host's state, how many runs have begun, how many plans were made,
and which of them are spent. -/
structure World (σ : Type) where
  host : σ
  runsBegun : Nat := 0
  plansMade : Nat := 0
  spent : List PlanId := []
deriving Inhabited

/-- Where the events of a run go: they are kept, dropped, or refused. -/
inductive Sink
  | recorder
  | discard
  | closed
deriving DecidableEq, Repr, Inhabited

def Sink.accepts : Sink → Bool
  | closed => false
  | _ => true

/-- What a closed sink answers when it is offered an event. -/
def Sink.refusal : String := "Event error: Channel closed"

/-- What a run puts out: an event for a sink, or a line for the log. -/
inductive Report
  | event (sink : Sink) (e : Event)
  | log (line : LogLine)
deriving DecidableEq, Repr, Inhabited

def Report.recorded? : Report → Option Event
  | event .recorder e => some e
  | _ => none

def Report.line? : Report → Option LogLine
  | log line => some line
  | _ => none

abbrev RunActivity (σ : Type) := Activity (World σ) Report

abbrev RunStage (σ : Type) := Stage (World σ) Report

def Activity.inRun {σ α : Type} (a : Activity σ LogLine α) : RunActivity σ α :=
  a.embed World.host (fun s w => { w with host := s }) Report.log

end Flowchart
