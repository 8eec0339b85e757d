import Flowchart.Script
import Flowchart.Proofs.Run.Stopped

/-! Runs whose signal fired before they began. -/
namespace Flowchart

variable {σ : Type}

theorem Scene.sent_announced (sc : Scene (World σ) Report) (strategy : Strategy) (sink : Sink) :
    (sc.announced strategy sink).sent sink =
      sc.sent sink ++ [.runStarted sc.stage.state.nextRun strategy.name] := by
  unfold sent announced
  rw [List.filterMap_append]
  simp [Deed.sentTo?, Deed.item?]

namespace Compiled

def isVoid : Compiled σ → Bool
  | plan p => p.entries.isEmpty
  | tour _ => false

def strategy : Compiled σ → Strategy
  | plan p => p.strategy
  | tour _ => .immediate

/-- Whether it is the first execution that begins in a scene, for a plan. -/
def Unspent (c : Compiled σ) (sc : Scene (World σ) Report) : Prop :=
  match c with
  | plan p => p.id ∉ sc.stage.state.spent
  | tour _ => True

/-- What an engine makes of a tree has its settings, and walks the tree from a root if at all. -/
structure MadeBy (c : Compiled σ) (e : Engine) (t : TokenTree (Token σ)) : Prop where
  strategy : c.strategy = e.config.strategy
  sink : c.sink = e.sink
  surfaceFailures : c.surfaceFailures = e.config.surfaceFailures
  walks : c.tree = {} ∨ c.tree = t
  ready : ∀ sc, c.Unspent sc → c.Ready sc

/-- A run that is announced and closed and does nothing in between. -/
structure JustCloses (c : Compiled σ) (signal : Signal) (others : Company (World σ) Report)
    (sc : Scene (World σ) Report) (ended : Outcome) (last : Event) (told : Outcome) : Prop where
  closes : (c.execute signal).play others sc =
    ((c.reporter sc).finish ⟨0, ended⟩).play others (c.outset sc).scene
  ends : ∃ final, (c.execute signal).play others sc = (some told, final) ∧
    final.stage.state.host = sc.stage.state.host ∧ final.stage.signals = sc.stage.signals ∧
    final.sent c.sink = sc.sent c.sink ++
      [.runStarted (c.reporter sc).run c.strategy.name, last]

section

variable {c : Compiled σ} {signal : Signal} {others : Company (World σ) Report}
  {sc : Scene (World σ) Report}

theorem outset_host (c : Compiled σ) (sc : Scene (World σ) Report) :
    (c.outset sc).scene.stage.state.host = sc.stage.state.host ∧
      (c.outset sc).scene.stage.signals = sc.stage.signals := by
  cases c <;> exact ⟨rfl, rfl⟩

theorem sent_outset (c : Compiled σ) (sc : Scene (World σ) Report) :
    (c.outset sc).scene.sent c.sink =
      sc.sent c.sink ++ [.runStarted (c.reporter sc).run c.strategy.name] := by
  cases c with
  | plan p => exact (sc.spending p.id).sent_announced p.strategy p.sink
  | tour t => exact sc.sent_announced .immediate t.sink

theorem isClear_outset (h : c.Ready sc) : (c.outset sc).agenda.isClear = c.isVoid := by
  cases c with
  | plan p => exact Bool.and_true _
  | tour t =>
    obtain ⟨root, hroot⟩ := Option.ne_none_iff_exists'.mp h
    simp [outset, Agenda.isClear, isVoid, hroot]

/-- A run under a signal that has fired comes to its closing at once. -/
theorem closes_of_fired (c : Compiled σ) (others : Company (World σ) Report) (h : c.Ready sc)
    (fired : sc.stage.signals.has signal = true) :
    (c.execute signal).play others sc = ((c.reporter sc).finish
      ⟨0, if c.isVoid then .ok () else .error .cancelled⟩).play others (c.outset sc).scene := by
  have hfired : (c.outset sc).HasFired signal := by
    unfold Stand.HasFired
    rw [(c.outset_host sc).2]
    exact fired
  have hstarted : (c.outset sc).started = 0 := by cases c <;> rfl
  rw [play_ready h, Activity.play_bind, Reporter.play_goOn_fired hfired, isClear_outset h, hstarted]

/-- What closes a run decides its last event and what its caller is told. -/
theorem JustCloses.of_closes {ended : Outcome} (closes : (c.execute signal).play others sc =
      ((c.reporter sc).finish ⟨0, ended⟩).play others (c.outset sc).scene) :
    ∃ last told, Closes (c.reporter sc).run c.surfaceFailures 0 ended last told ∧
      c.JustCloses signal others sc ended last told := by
  obtain ⟨told, last, final, hfinish, hstate, hsignals, hsent, hcloses⟩ :=
    (c.reporter sc).play_finish others ⟨0, ended⟩ (c.outset sc).scene
  obtain ⟨hhost, hquiet⟩ := c.outset_host sc
  refine ⟨last, told, hcloses, closes, final, closes.trans hfinish, ?_, hsignals.trans hquiet, ?_⟩
  · rw [hstate, hhost]
  · have hsent : final.sent c.sink = (c.outset sc).scene.sent c.sink ++ [last] := hsent
    rw [hsent, sent_outset, List.append_assoc]
    rfl

end

end Compiled

namespace Engine

variable {e : Engine} {t : TokenTree (Token σ)} {stage stage' : RunStage σ} {c : Compiled σ}

theorem compile_made (h : e.compile t stage = (.ok c, stage')) : c.MadeBy e t := by
  have hplan : ∀ strategy {p : Plan σ} {s}, e.plan strategy t stage = (.ok p, s) →
      p.strategy = strategy ∧ p.sink = e.sink ∧ p.surfaceFailures = e.config.surfaceFailures := by
    intro strategy p s hp
    unfold plan at hp
    split at hp
    · cases hp
    · dsimp only at hp
      split at hp
      · cases hp
      · cases hp
        exact ⟨rfl, rfl, rfl⟩
  unfold compile at h
  split at h
  · next hstrategy =>
    cases hstart : t.start with
    | error f =>
      rw [hstart] at h
      cases h
    | ok root =>
      rw [hstart] at h
      cases h
      have hroot := TokenTree.start_eq_ok_iff.mp hstart
      exact ⟨hstrategy.symm, rfl, rfl, .inr rfl, fun _ _ => by simp [Compiled.Ready, tour, hroot]⟩
  · cases hp : e.plan e.config.strategy t stage with
    | mk result s =>
      rw [hp] at h
      cases result with
      | error f => cases h
      | ok p =>
        cases h
        obtain ⟨hstrategy, hsink, hsurface⟩ := hplan _ hp
        exact ⟨hstrategy, hsink, hsurface, .inl rfl, fun _ hunspent => hunspent⟩

/-- Under a signal that has fired nothing is executed, and only a plan without units completes. -/
theorem compile_withdrawn (h : e.compile t stage = (.ok c, stage')) (signal : Signal)
    (others : Company (World σ) Report) (sc : Scene (World σ) Report) (first : c.Unspent sc)
    (fired : sc.stage.signals.has signal = true) :
    c.strategy = e.config.strategy ∧ c.sink = e.sink ∧
      (c.isVoid = false → c.JustCloses signal others sc (.error .cancelled)
        (.runCancelled (c.reporter sc).run 0) (.error .cancelled)) ∧
      (c.isVoid = true → c.JustCloses signal others sc (.ok ())
        (.runCompleted (c.reporter sc).run 0) (.ok ())) := by
  have hmade := compile_made h
  have hcloses := c.closes_of_fired others (hmade.ready sc first) fired
  refine ⟨hmade.strategy, hmade.sink, fun hvoid => ?_, fun hvoid => ?_⟩
  · rw [hvoid] at hcloses
    obtain ⟨last, told, hlast, hends⟩ := Compiled.JustCloses.of_closes hcloses
    cases hlast with
    | cancelled => exact hends
    | hushed hother | failed hother => cases hother
  · rw [hvoid] at hcloses
    obtain ⟨last, told, hlast, hends⟩ := Compiled.JustCloses.of_closes hcloses
    cases hlast with
    | completed => exact hends

section Withdrawn

def withdrawn : Scene (World Desk) Report :=
  { stage := { state := { host := {} }, signals := ⟨[0]⟩ } }

def ofToken (script : Script) : TokenTree (Token Desk) :=
  TokenTree.push {} (Script.token "token" script)

theorem compile_withdrawn_laden : ∃ c stage,
    compile {} (ofToken [.push "unit" [] false]) withdrawn.stage = (.ok c, stage) ∧
      ∃ final, (c.execute 0).play .nobody withdrawn = (some (.error .cancelled), final) := by
  obtain ⟨c, stage, hcompile, hvoid, hfirst⟩ : ∃ c stage,
      compile {} (ofToken [.push "unit" [] false]) withdrawn.stage = (.ok c, stage) ∧
        c.isVoid = false ∧ c.Unspent withdrawn := ⟨_, _, rfl, rfl, nofun⟩
  obtain ⟨-, -, hcancels, -⟩ := compile_withdrawn hcompile 0 .nobody withdrawn hfirst rfl
  obtain ⟨final, hplay, -⟩ := (hcancels hvoid).ends
  exact ⟨c, stage, hcompile, final, hplay⟩

/-- A token that leaves no unit makes a plan that is complete, whatever its signal. -/
theorem compile_withdrawn_completes :
    let (compiled, _) := compile { sink := .recorder } (ofToken []) withdrawn.stage
    ∃ c, compiled = .ok c ∧ c.Unspent withdrawn ∧ withdrawn.stage.signals.has 0 = true ∧
      let (told, final) := (c.execute 0).play .nobody withdrawn
      told = some (.ok ()) ∧ final.sent .recorder =
        [.runStarted "flow-run-1" "linear", .runCompleted "flow-run-1" 0] := by
  refine ⟨_, rfl, nofun, rfl, rfl, ?_⟩
  decide

end Withdrawn

end Engine

end Flowchart
