import Flowchart.Json.Record

/-! Events: what a run reports while it goes on. -/
namespace Flowchart

open Json (Written)

inductive Event
  | runStarted (run producer : String)
  /-- A token was resolved during the run and left this many units. -/
  | tokenResolved (run token : String) (units : Nat)
  | unitStarted (run unit token : String)
  | unitCompleted (run unit token : String)
  | unitFailed (run unit token error : String)
  /-- The run tells its caller that it is complete. -/
  | runCompleted (run : String) (unitsExecuted : Nat)
  /-- The run tells its caller that it failed. -/
  | runFailed (run : String) (unitsExecuted : Nat) (error : String)
  /-- The run stopped because its signal fired. -/
  | runCancelled (run : String) (unitsExecuted : Nat)
deriving DecidableEq, Repr, Inhabited

namespace Event

def run : Event → String
  | runStarted r _ | tokenResolved r _ _ | unitStarted r _ _ | unitCompleted r _ _
  | unitFailed r _ _ _ | runCompleted r _ | runFailed r _ _ | runCancelled r _ => r

def unit? : Event → Option String
  | unitStarted _ u _ | unitCompleted _ u _ | unitFailed _ u _ _ => some u
  | _ => none

def startedUnit? : Event → Option String
  | unitStarted _ u _ => some u
  | _ => none

def kind : Event → String
  | runStarted .. => "runStarted"
  | tokenResolved .. => "tokenResolved"
  | unitStarted .. => "unitStarted"
  | unitCompleted .. => "unitCompleted"
  | unitFailed .. => "unitFailed"
  | runCompleted .. => "runCompleted"
  | runFailed .. => "runFailed"
  | runCancelled .. => "runCancelled"

def fields : Event → List (String × Written)
  | runStarted run producer => [("runId", .ofText run), ("producer", .ofText producer)]
  | tokenResolved run token units =>
    [("runId", .ofText run), ("token", .ofText token), ("units", .ofNat units)]
  | unitStarted run unit token =>
    [("runId", .ofText run), ("unit", .ofText unit), ("token", .ofText token)]
  | unitCompleted run unit token =>
    [("runId", .ofText run), ("unit", .ofText unit), ("token", .ofText token)]
  | unitFailed run unit token error =>
    [("runId", .ofText run), ("unit", .ofText unit), ("token", .ofText token),
      ("error", .ofText error)]
  | runCompleted run n => [("runId", .ofText run), ("unitsExecuted", .ofNat n)]
  | runFailed run n error =>
    [("runId", .ofText run), ("unitsExecuted", .ofNat n), ("error", .ofText error)]
  | runCancelled run n => [("runId", .ofText run), ("unitsExecuted", .ofNat n)]

def toWritten (e : Event) : Written := .ofFields (("type", .ofText e.kind) :: e.fields)

def ofKind? (kind : String) (w : Written) : Option Event :=
  match kind with
  | "runStarted" => do
    let [run, producer] ← w.toRecord? ["runId", "producer"] | none
    return .runStarted (← (← run).toText?) (← (← producer).toText?)
  | "tokenResolved" => do
    let [run, token, units] ← w.toRecord? ["runId", "token", "units"] | none
    return .tokenResolved (← (← run).toText?) (← (← token).toText?) (← (← units).toNat?)
  | "unitStarted" => do
    let [run, unit, token] ← w.toRecord? ["runId", "unit", "token"] | none
    return .unitStarted (← (← run).toText?) (← (← unit).toText?) (← (← token).toText?)
  | "unitCompleted" => do
    let [run, unit, token] ← w.toRecord? ["runId", "unit", "token"] | none
    return .unitCompleted (← (← run).toText?) (← (← unit).toText?) (← (← token).toText?)
  | "unitFailed" => do
    let [run, unit, token, error] ← w.toRecord? ["runId", "unit", "token", "error"] | none
    return .unitFailed (← (← run).toText?) (← (← unit).toText?) (← (← token).toText?)
      (← (← error).toText?)
  | "runCompleted" => do
    let [run, n] ← w.toRecord? ["runId", "unitsExecuted"] | none
    return .runCompleted (← (← run).toText?) (← (← n).toNat?)
  | "runFailed" => do
    let [run, n, error] ← w.toRecord? ["runId", "unitsExecuted", "error"] | none
    return .runFailed (← (← run).toText?) (← (← n).toNat?) (← (← error).toText?)
  | "runCancelled" => do
    let [run, n] ← w.toRecord? ["runId", "unitsExecuted"] | none
    return .runCancelled (← (← run).toText?) (← (← n).toNat?)
  | _ => none

/-- The event that is written, with its kind anywhere among its fields. Skipped fields have to stand
for a value too. -/
def ofWritten? (w : Written) : Option Event :=
  if (Json.ofWritten? w).isNone then none
  else match w with
    | .object fields => do
      let kind ← (← (← Written.field? fields "type")).toText?
      ofKind? kind (.object (fields.filter (·.1 != some "type")))
    | .list (kind :: rest) => do ofKind? (← kind.toText?) (.list rest)
    | _ => none

def render (e : Event) : String := String.ofList e.toWritten.render

def read? (s : String) : Option Event := do ofWritten? (← Written.read? s)

end Event

end Flowchart
