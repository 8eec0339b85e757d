import Flowchart.Signal

/-! Activities: what goes on while a unit or a run executes, one effect at a time. -/
namespace Flowchart

/-- An activity over a state of type `σ` that puts out items of type `ω` and ends with an `α`. -/
inductive Activity (σ ω α : Type) : Type
  | done (result : α)
  /-- It has broken off without a result. -/
  | crash
  | get (next : σ → Activity σ ω α)
  | set (state : σ) (next : Activity σ ω α)
  | emit (item : ω) (next : Activity σ ω α)
  | fire (signal : Signal) (next : Activity σ ω α)
  | poll (signal : Signal) (next : Bool → Activity σ ω α)
  /-- Wait for some milliseconds, or until a signal fires; go on with whether it fired. -/
  | wait (ms : Nat) (signal : Option Signal) (next : Bool → Activity σ ω α)

namespace Activity

variable {σ τ ω ψ α β : Type}

def bind (f : α → Activity σ ω β) : Activity σ ω α → Activity σ ω β
  | done a => f a
  | crash => crash
  | get next => get fun s => (next s).bind f
  | set s next => set s (next.bind f)
  | emit o next => emit o (next.bind f)
  | fire signal next => fire signal (next.bind f)
  | poll signal next => poll signal fun b => (next b).bind f
  | wait ms signal next => wait ms signal fun b => (next b).bind f

instance : Monad (Activity σ ω) where
  pure := done
  bind a f := a.bind f

def read : Activity σ ω σ := get done

def change (f : σ → σ) : Activity σ ω Unit := get fun s => set (f s) (done ())

def tell (item : ω) : Activity σ ω Unit := emit item (done ())

def hasFired (signal : Signal) : Activity σ ω Bool := poll signal done

/-- The same activity over a larger state and other items. -/
def embed (view : τ → σ) (update : σ → τ → τ) (item : ω → ψ) : Activity σ ω α → Activity τ ψ α
  | done a => done a
  | crash => crash
  | get next => get fun t => (next (view t)).embed view update item
  | set s next => get fun t => set (update s t) (next.embed view update item)
  | emit o next => emit (item o) (next.embed view update item)
  | fire signal next => fire signal (next.embed view update item)
  | poll signal next => poll signal fun b => (next b).embed view update item
  | wait ms signal next => wait ms signal fun b => (next b).embed view update item

def isOver : Activity σ ω α → Bool
  | done _ | crash => true
  | _ => false

def result? : Activity σ ω α → Option α
  | done a => some a
  | _ => none

def isWaiting : Activity σ ω α → Bool
  | wait .. => true
  | _ => false

def delay : Activity σ ω α → Nat
  | wait ms _ _ => ms
  | _ => 0

def awaits? : Activity σ ω α → Option Signal
  | wait _ signal _ => signal
  | _ => none

end Activity

/-- What activities share: a state, the signals, and the items put out so far. -/
structure Stage (σ ω : Type) where
  state : σ
  signals : Signals := {}
  items : Array ω := #[]
deriving Inhabited

/-- Where a look leaves an activity: what is left of it, how many more waits it could have passed,
and the stage. -/
structure Pause (σ ω α : Type) where
  rest : Activity σ ω α
  patience : Nat
  stage : Stage σ ω

def Pause.gaveWay {σ ω α : Type} (p : Pause σ ω α) : Bool := p.patience == 0 && p.rest.isWaiting

namespace Activity

variable {σ ω α : Type}

/-- How many waits an activity passes at one look before it gives way to others. -/
def patience : Nat := 128

/-- Go on until an activity ends or has to wait. A signal that has fired ends a wait at once. -/
def burst : Activity σ ω α → Nat → Stage σ ω → Pause σ ω α
  | done a, n, stage => ⟨done a, n, stage⟩
  | crash, n, stage => ⟨crash, n, stage⟩
  | get next, n, stage => (next stage.state).burst n stage
  | set s next, n, stage => next.burst n { stage with state := s }
  | emit o next, n, stage => next.burst n { stage with items := stage.items.push o }
  | fire signal next, n, stage => next.burst n { stage with signals := stage.signals.fire signal }
  | poll signal next, n, stage => (next (stage.signals.has signal)).burst n stage
  | wait ms signal next, n, stage =>
    if n = 0 then ⟨wait ms signal next, n, stage⟩
    else if signal.any stage.signals.has then (next true).burst n stage
    else if ms = 0 then (next false).burst (n - 1) stage
    else ⟨wait ms signal next, n, stage⟩

/-- Look at an activity, and go on with it unless it is over or has to wait on. -/
def look? (timeIsUp : Bool) (stage : Stage σ ω) : Activity σ ω α → Option (Pause σ ω α)
  | done _ | crash => none
  | wait _ signal next =>
    if signal.any stage.signals.has then some ((next true).burst patience stage)
    else if timeIsUp then some ((next false).burst (patience - 1) stage)
    else none
  | a => some (a.burst patience stage)

end Activity

end Flowchart
