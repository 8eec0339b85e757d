import Flowchart.FlowUnit

/-! The accumulator, into which tokens put their units while they are resolved. -/
namespace Flowchart

/-- Units in the order they were put in, each with its token, and the token being resolved. -/
structure Accumulator (σ : Type) where
  entries : Array (Entry σ) := #[]
  current : String := ""
deriving Inhabited

namespace Accumulator

variable {σ : Type}

def push (a : Accumulator σ) (u : FlowUnit σ) : Accumulator σ :=
  { a with entries := a.entries.push ⟨a.current, u⟩ }

def clear (a : Accumulator σ) : Accumulator σ := { a with entries := #[] }

def forToken (a : Accumulator σ) (label : String) : Accumulator σ := { a with current := label }

def labels (a : Accumulator σ) : List (String × String) :=
  a.entries.toList.map fun e => (e.token, e.unit.label)

end Accumulator

/-- Filling an accumulator, one effect at a time. It can change the host's state and fire signals,
but not wait. -/
inductive Filling (σ α : Type) : Type
  | done (result : α)
  | push (unit : FlowUnit σ) (next : Filling σ α)
  | clear (next : Filling σ α)
  | drain (next : List (Entry σ) → Filling σ α)
  | look (next : List (String × String) → Filling σ α)
  | get (next : σ → Filling σ α)
  | set (state : σ) (next : Filling σ α)
  | fire (signal : Signal) (next : Filling σ α)
  | poll (signal : Signal) (next : Bool → Filling σ α)

namespace Filling

variable {σ ω α β : Type}

def bind (f : α → Filling σ β) : Filling σ α → Filling σ β
  | done a => f a
  | push u next => push u (next.bind f)
  | clear next => clear (next.bind f)
  | drain next => drain fun es => (next es).bind f
  | look next => look fun ls => (next ls).bind f
  | get next => get fun s => (next s).bind f
  | set s next => set s (next.bind f)
  | fire signal next => fire signal (next.bind f)
  | poll signal next => poll signal fun b => (next b).bind f

instance : Monad (Filling σ) where
  pure := done
  bind a f := a.bind f

def read : Filling σ σ := get done

def change (f : σ → σ) : Filling σ Unit := get fun s => set (f s) (done ())

def add (u : FlowUnit σ) : Filling σ Unit := push u (done ())

/-- What a filling does where it has the accumulator, the host and the signals to itself. -/
def run : Filling σ α → Accumulator σ → σ → Signals → α × Accumulator σ × σ × Signals
  | done a, acc, s, signals => (a, acc, s, signals)
  | push u next, acc, s, signals => next.run (acc.push u) s signals
  | clear next, acc, s, signals => next.run acc.clear s signals
  | drain next, acc, s, signals => (next acc.entries.toList).run acc.clear s signals
  | look next, acc, s, signals => (next acc.labels).run acc s signals
  | get next, acc, s, signals => (next s).run acc s signals
  | set s next, acc, _, signals => next.run acc s signals
  | fire signal next, acc, s, signals => next.run acc s (signals.fire signal)
  | poll signal next, acc, s, signals => (next (signals.has signal)).run acc s signals

/-- A filling as part of an activity, with an accumulator of its own. -/
def within (acc : Accumulator σ) : Filling σ α → Activity σ ω (α × Accumulator σ)
  | done a => .done (a, acc)
  | push u next => next.within (acc.push u)
  | clear next => next.within acc.clear
  | drain next => (next acc.entries.toList).within acc.clear
  | look next => (next acc.labels).within acc
  | get next => .get fun s => (next s).within acc
  | set s next => .set s (next.within acc)
  | fire signal next => .fire signal (next.within acc)
  | poll signal next => .poll signal fun b => (next b).within acc

end Filling

end Flowchart
