import Flowchart.Proofs.Activity.Play
import Flowchart.Run

/-! How runs begin: a plan is spent, a reporter gets the next id, and the run is announced. -/
namespace Flowchart

variable {σ : Type}

def World.nextRun (w : World σ) : String := s!"flow-run-{w.runsBegun + 1}"

def Scene.announced (sc : Scene (World σ) Report) (strategy : Strategy) (sink : Sink) :
    Scene (World σ) Report :=
  let w := sc.stage.state
  let report : Report := .event sink (.runStarted w.nextRun strategy.name)
  { stage := { sc.stage with
      state := { w with runsBegun := w.runsBegun + 1 }
      items := sc.stage.items.push report }
    deeds := sc.deeds ++ [.put report] }

def Scene.spending (sc : Scene (World σ) Report) (plan : PlanId) : Scene (World σ) Report :=
  let w := sc.stage.state
  { sc with stage := { sc.stage with state := { w with spent := plan :: w.spent } } }

variable {others : Company (World σ) Report} {sc : Scene (World σ) Report}

theorem Reporter.play_start (strategy : Strategy) (sink : Sink) (surfaceFailures : Bool) :
    (start strategy sink surfaceFailures).play others sc =
      (some ⟨sc.stage.state.nextRun, sink, surfaceFailures⟩, sc.announced strategy sink) := rfl

/-- A plan that is not spent is spent now, and its entries are executed by a run of its own. -/
theorem Plan.play_execute {p : Plan σ} (h : p.id ∉ sc.stage.state.spent) (signal : Signal) :
    (p.execute signal).play others sc =
      let r : Reporter := ⟨sc.stage.state.nextRun, p.sink, p.surfaceFailures⟩
      (r.executeAll signal 0 p.entries >>= r.finish).play others
        ((sc.spending p.id).announced p.strategy p.sink) := by
  have hspent : sc.stage.state.spent.contains p.id = false := by simpa using h
  have hread : ∀ f : World σ → RunActivity σ Outcome, (Activity.read >>= f).play others sc =
      (f sc.stage.state).play others sc := fun _ => rfl
  rw [execute, hread, hspent]
  rfl

/-- A plan that is spent is refused, without any event. -/
theorem Plan.play_execute_spent {p : Plan σ} (h : p.id ∈ sc.stage.state.spent) (signal : Signal) :
    (p.execute signal).play others sc =
      let report : Report := .log ⟨.warn, s!"Plan '{p.label}' was already executed"⟩
      (some (.error (.planConsumed p.label)),
        { stage := { sc.stage with items := sc.stage.items.push report }
          deeds := sc.deeds ++ [.put report] }) := by
  have hspent : sc.stage.state.spent.contains p.id = true := by simpa using h
  have hread : ∀ f : World σ → RunActivity σ Outcome, (Activity.read >>= f).play others sc =
      (f sc.stage.state).play others sc := fun _ => rfl
  rw [execute, hread, hspent]
  rfl

end Flowchart
