import Flowchart.Run

/-! The engine, which compiles token trees by the strategy of its settings. -/
namespace Flowchart

/-- A tree made ready to run. -/
inductive Compiled (σ : Type)
  | plan (p : Plan σ)
  | tour (t : Tour σ)

namespace Compiled

variable {σ : Type}

def label : Compiled σ → String
  | plan p => p.label
  | tour t => t.label

def execute : Compiled σ → Signal → RunActivity σ Outcome
  | plan p => p.execute
  | tour t => t.execute

end Compiled

/-- Settings and the sink that runs report to. -/
structure Engine where
  config : Config := {}
  sink : Sink := .discard
deriving DecidableEq, Repr, Inhabited

namespace Engine

variable {σ : Type}

def plan (e : Engine) (strategy : Strategy) (tree : TokenTree (Token σ)) (stage : RunStage σ) :
    Except Fault (Plan σ) × RunStage σ :=
  match tree.start with
  | .error f => (.error f, stage)
  | .ok root =>
    let limit := e.config.maxTokens
    let w := stage.state
    match tree.gather strategy limit limit [root] [] {} ⟨w.host, stage.signals⟩ with
    | (.error f, s) => (.error f, { stage with state := { w with host := s.host }, signals := s.signals })
    | (.ok acc, s) =>
      (.ok { id := w.plansMade, strategy, entries := acc.entries.toList, sink := e.sink,
             surfaceFailures := e.config.surfaceFailures },
        { stage with state := { w with host := s.host, plansMade := w.plansMade + 1 },
                     signals := s.signals })

def tour (e : Engine) (tree : TokenTree (Token σ)) : Tour σ :=
  { tree, limit := e.config.maxTokens, sink := e.sink, surfaceFailures := e.config.surfaceFailures }

/-- Compile a tree. A plan resolves its tokens now, a tour only needs a root. -/
def compile (e : Engine) (tree : TokenTree (Token σ)) (stage : RunStage σ) :
    Except Fault (Compiled σ) × RunStage σ :=
  match e.config.strategy with
  | .immediate => (tree.start.map fun _ => .tour (e.tour tree), stage)
  | strategy =>
    let (p, stage) := e.plan strategy tree stage
    (p.map .plan, stage)

end Engine

end Flowchart
