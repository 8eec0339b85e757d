import Flowchart.Walk
import Flowchart.World

/-! Runs: executing the units of a plan, or of a tree token by token, and reporting it. -/
namespace Flowchart

/-- How a run reports: its id, its sink, and whether its caller is told about a failure. -/
structure Reporter where
  run : String
  sink : Sink
  surfaceFailures : Bool
deriving Inhabited

/-- How many units of a run were begun, and how the run has fared so far. -/
structure Progress where
  started : Nat
  outcome : Outcome

namespace Reporter

variable {σ : Type}

/-- Offer an event to the sink, whether it takes it or not. -/
def send (r : Reporter) (e : Event) : RunActivity σ Unit := .tell (.event r.sink e)

/-- Begin a run: it gets the next id and is announced. -/
def start (strategy : Strategy) (sink : Sink) (surfaceFailures : Bool) : RunActivity σ Reporter := do
  let w ← .read
  Activity.set { w with runsBegun := w.runsBegun + 1 } (.done ())
  let r : Reporter := { run := s!"flow-run-{w.runsBegun + 1}", sink, surfaceFailures }
  r.send (.runStarted r.run strategy.name)
  return r

/-- Execute a unit, unless the signal has fired. A failure is reported with
the labels of unit and token. -/
def execute (r : Reporter) (signal : Signal) (e : Entry σ) (started : Nat) :
    RunActivity σ Progress := do
  if ← .hasFired signal then
    return ⟨started, .error .cancelled⟩
  r.send (.unitStarted r.run e.unit.label e.token)
  match ← (e.unit.execute signal).inRun with
  | .ok () =>
    r.send (.unitCompleted r.run e.unit.label e.token)
    return ⟨started + 1, .ok ()⟩
  | .error f =>
    if f.isCancelled then
      return ⟨started + 1, .error .cancelled⟩
    r.send (.unitFailed r.run e.unit.label e.token f.message)
    return ⟨started + 1, .error (.unitFailed e.unit.label e.token f)⟩

/-- Execute units one after the other until one does not end well. -/
def executeAll (r : Reporter) (signal : Signal) (started : Nat) :
    List (Entry σ) → RunActivity σ Progress
  | [] => return ⟨started, .ok ()⟩
  | e :: rest => do
    match ← r.execute signal e started with
    | ⟨started, .ok ()⟩ => r.executeAll signal started rest
    | p => return p

/-- Close a run. A cancellation is always returned, another failure if the caller is to be told. -/
def finish (r : Reporter) (p : Progress) : RunActivity σ Outcome := do
  match p.outcome with
  | .ok () =>
    r.send (.runCompleted r.run p.started)
    return .ok ()
  | .error f =>
    if f.isCancelled then
      .tell (.log ⟨.warn, s!"Flow run {r.run} cancelled after {p.started} units"⟩)
      r.send (.runCancelled r.run p.started)
      return .error .cancelled
    .tell (.log ⟨.error, s!"Flow run {r.run} stopped: {f.message}"⟩)
    if r.surfaceFailures then
      r.send (.runFailed r.run p.started f.message)
      return .error f
    r.send (.runCompleted r.run p.started)
    return .ok ()

/-- Resolve and execute the tokens of a walk one by one, with a look at the signal before each. -/
def walk (r : Reporter) (signal : Signal) (t : TokenTree (Token σ)) (limit : Nat)
    (left : Nat) (ahead seen : List TokenId) (started : Nat) : RunActivity σ Progress :=
  match ahead with
  | [] => return ⟨started, .ok ()⟩
  | id :: ahead => do
    if ← .hasFired signal then
      return ⟨started, .error .cancelled⟩
    match t.visit seen id with
    | .error e => return ⟨started, .error e⟩
    | .ok slot =>
      match left with
      | 0 => return ⟨started, .error (.tokenLimit limit)⟩
      | left + 1 =>
        let token := slot.token
        let (outcome, acc) ← (token.resolve.within { current := token.label }).inRun
        match token.resolved outcome with
        | .error e => return ⟨started, .error e⟩
        | .ok () =>
          r.send (.tokenResolved r.run token.label acc.entries.size)
          match ← r.executeAll signal started acc.entries.toList with
          | ⟨started, .ok ()⟩ =>
            r.walk signal t limit left (Strategy.immediate.next slot ++ ahead) (id :: seen) started
          | p => return p

end Reporter

/-- A plan: the units of a tree in a row, to be executed once. -/
structure Plan (σ : Type) where
  id : PlanId
  strategy : Strategy
  entries : List (Entry σ)
  sink : Sink
  surfaceFailures : Bool

namespace Plan

variable {σ : Type}

def label (p : Plan σ) : String := p.strategy.name ++ "-plan"

def labels (p : Plan σ) : List String := p.entries.map (·.unit.label)

/-- Execute a plan. The first execution to begin spends it; later ones begin no run. -/
def execute (p : Plan σ) (signal : Signal) : RunActivity σ Outcome := do
  let w ← .read
  if w.spent.contains p.id then
    .tell (.log ⟨.warn, s!"Plan '{p.label}' was already executed"⟩)
    return .error (.planConsumed p.label)
  Activity.set { w with spent := p.id :: w.spent } (.done ())
  let r ← Reporter.start p.strategy p.sink p.surfaceFailures
  r.finish (← r.executeAll signal 0 p.entries)

end Plan

/-- A tree to be resolved and executed token by token, as often as wanted. -/
structure Tour (σ : Type) where
  tree : TokenTree (Token σ)
  limit : Nat
  sink : Sink
  surfaceFailures : Bool

namespace Tour

variable {σ : Type}

def label (_ : Tour σ) : String := Strategy.immediate.name ++ "-run"

def execute (t : Tour σ) (signal : Signal) : RunActivity σ Outcome := do
  let r ← Reporter.start .immediate t.sink t.surfaceFailures
  match t.tree.start with
  | .error e => r.finish ⟨0, .error e⟩
  | .ok root => r.finish (← r.walk signal t.tree t.limit t.limit [root] [] 0)

end Tour

end Flowchart
