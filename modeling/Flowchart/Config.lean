import Flowchart.Fault
import Flowchart.Json.Record

/-! Settings for compiling and running a flowchart. -/
namespace Flowchart

open Json (Written)

/-- How a token tree is turned into a run. -/
inductive Strategy
  | linear
  | hierarchical
  /-- No plan: each token is resolved when its turn has come. -/
  | immediate
deriving DecidableEq, Repr, Inhabited

namespace Strategy

def name : Strategy → String
  | linear => "linear"
  | hierarchical => "hierarchical"
  | immediate => "immediate"

def choices : List (String × Strategy) :=
  [linear, hierarchical, immediate].map fun s => (s.name, s)

end Strategy

/-- The strategy, how many tokens one pass may visit, and whether a run's
caller is told about its failure. -/
structure Config where
  strategy : Strategy := .linear
  maxTokens : Nat := 10000
  surfaceFailures : Bool := false
deriving DecidableEq, Repr, Inhabited

namespace Config

def toWritten (c : Config) : Written :=
  .ofFields [("producer", .ofText c.strategy.name), ("maxTokens", .ofNat c.maxTokens),
    ("surfaceFailures", .bool c.surfaceFailures)]

def orDefault {α : Type} (default : α) (decode : Written → Option α) :
    Option Written → Option α
  | none => some default
  | some w => decode w

/-- The settings that are written; those that are left out have their defaults. -/
def ofWritten? (w : Written) : Option Config := do
  let [strategy, maxTokens, surfaceFailures] ←
    w.toRecord? ["producer", "maxTokens", "surfaceFailures"] | none
  let default : Config := {}
  return {
    strategy := ← orDefault default.strategy (·.toChoice? Strategy.choices) strategy
    maxTokens := ← orDefault default.maxTokens Written.toNat? maxTokens
    surfaceFailures := ← orDefault default.surfaceFailures Written.toBool? surfaceFailures }

def render (c : Config) : String := String.ofList c.toWritten.render

def read? (s : String) : Option Config := do ofWritten? (← Written.read? s)

/-- Read settings; `complaint` words what is wrong with a text that cannot be read. -/
def load (complaint : String → String) (s : String) : Except Fault Config :=
  match read? s with
  | some c => .ok c
  | none => .error (.unreadable (complaint s))

end Config

end Flowchart
