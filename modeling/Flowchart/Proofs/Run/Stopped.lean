import Flowchart.Proofs.Run.Agenda

/-! Runs whose signal fires: what is under way comes to its end, and no unit and no token after it. -/
namespace Flowchart

variable {σ : Type}

namespace Compiled

def tree : Compiled σ → TokenTree (Token σ)
  | plan _ => {}
  | tour t => t.tree

def limit : Compiled σ → Nat
  | plan _ => 0
  | tour t => t.limit

def surfaceFailures : Compiled σ → Bool
  | plan p => p.surfaceFailures
  | tour t => t.surfaceFailures

/-- Whether there is a run at all: a plan is executed once, and a walk needs a root. -/
def Ready (c : Compiled σ) (sc : Scene (World σ) Report) : Prop :=
  match c with
  | plan p => p.id ∉ sc.stage.state.spent
  | tour t => t.tree.root ≠ none

def reporter (c : Compiled σ) (sc : Scene (World σ) Report) : Reporter :=
  ⟨sc.stage.state.nextRun, c.sink, c.surfaceFailures⟩

def outset (c : Compiled σ) (sc : Scene (World σ) Report) : Stand σ :=
  match c with
  | plan p => ⟨{ units := p.entries }, 0, (sc.spending p.id).announced p.strategy p.sink⟩
  | tour t => ⟨{ units := [], ahead := t.tree.root.toList, left := t.limit }, 0,
      sc.announced .immediate t.sink⟩

end Compiled

/-- How a run ends that is here when its signal has fired, and whose last step has ended so. -/
def Stand.ending (v : Stand σ) : Outcome → Outcome
  | .error f => .error f
  | .ok () => if v.agenda.isClear then .ok () else .error .cancelled

/-- What is left of a run when its signal has fired: nothing if a unit broke
off, else its closing. -/
def Reporter.close (r : Reporter) (others : Company (World σ) Report) (v : Stand σ) :
    Option Outcome → Option Outcome × Scene (World σ) Report
  | none => (none, v.scene)
  | some outcome => (r.finish ⟨v.started, v.ending outcome⟩).play others v.scene

structure Compiled.Heeds (c : Compiled σ) (signal : Signal) (others : Company (World σ) Report)
    (sc : Scene (World σ) Report) : Prop where
  stops : Activity.StopsShowing (Deed.begins? c.sink) signal others (c.execute signal) sc
  /-- A signal that fires finds the run at its outset, at a unit or at a token. -/
  fires : c.Ready sc → ∀ s ∈ (c.execute signal).scenes others sc,
    s.stage.signals.has signal = true →
    ∃ result v, (c.reporter sc).Fires signal c.tree others (c.outset sc) result v
  /-- What is under way ends, and no unit is executed and no token resolved after it. -/
  closes : c.Ready sc → ∀ result v,
    (c.reporter sc).Fires signal c.tree others (c.outset sc) result v →
    (c.execute signal).play others sc = (c.reporter sc).close others v result
  /-- If something was left to do, the run is cancelled, and it counts the
  units begun before the signal fired. -/
  cancels : c.Ready sc → ∀ outcome v,
    (c.reporter sc).Fires signal c.tree others (c.outset sc) (some outcome) v →
    (∀ f, outcome = .error f → f.isCancelled = true) → v.agenda.isClear = false →
    ∃ last, (c.execute signal).play others sc = (some (.error .cancelled), last) ∧
      last.sent c.sink = v.scene.sent c.sink ++ [.runCancelled (c.reporter sc).run v.started] ∧
      ∀ s ∈ (c.execute signal).scenes others sc, s.stage.signals.has signal = true →
        Event.unitsBegun (s.sent c.sink) = Event.unitsBegun (sc.sent c.sink) + v.started

namespace Compiled

variable {c : Compiled σ} {signal : Signal} {others : Company (World σ) Report}
  {sc : Scene (World σ) Report}

theorem play_ready (h : c.Ready sc) : (c.execute signal).play others sc =
    ((c.reporter sc).goOn signal c.tree c.limit (c.outset sc).agenda (c.outset sc).started >>=
      (c.reporter sc).finish).play others (c.outset sc).scene := by
  cases c with
  | plan p =>
    have hplay : ((plan p).execute signal).play others sc = _ := Plan.play_execute h signal
    have hgoOn : ∀ r : Reporter, r.goOn signal (plan p).tree (plan p).limit ((plan p).outset sc).agenda 0 =
        r.executeAll signal 0 p.entries := by
      intro r
      exact (bind_congr Progress.onward_pure).trans (bind_pure _)
    rw [hplay]
    exact congrArg (fun a : RunActivity σ Progress =>
      (a >>= ((plan p).reporter sc).finish).play others ((plan p).outset sc).scene) (hgoOn _).symm
  | tour t =>
    obtain ⟨root, hroot⟩ := Option.ne_none_iff_exists'.mp h
    have hplay : ((tour t).execute signal).play others sc = _ := t.play_execute signal
    rw [hplay]
    simp only [Tour.pass, TokenTree.start_eq_ok_iff.mpr hroot]
    simp only [outset, hroot]
    rfl

theorem fires_of_ready (hothers : others.KeepsFirings) (h : c.Ready sc) {s : Scene (World σ) Report}
    (hs : s ∈ (c.execute signal).scenes others sc) (fired : s.stage.signals.has signal = true) :
    ∃ result v, (c.reporter sc).Fires signal c.tree others (c.outset sc) result v := by
  cases hfirst : (c.outset sc).scene.stage.signals.has signal with
  | true => exact ⟨_, _, .before hfirst⟩
  | false =>
    have hlast := Activity.fired_of_mem hothers hs fired
    rw [play_ready h, Activity.play_bind] at hlast
    have hcatches : (c.reporter sc).Catches signal c.tree c.limit others (c.outset sc) :=
      Reporter.catches _
    refine hcatches hfirst ?_
    cases hplay : ((c.reporter sc).goOn signal c.tree c.limit (c.outset sc).agenda
        (c.outset sc).started).play others (c.outset sc).scene with
    | mk p sc₁ =>
      rw [hplay] at hlast
      cases p with
      | none => exact hlast
      | some p =>
        obtain ⟨_, _, _, hfinish, _, hsignals, _⟩ := (c.reporter sc).play_finish others p sc₁
        dsimp only at hlast
        rw [hfinish, hsignals] at hlast
        exact hlast

theorem play_fires (h : c.Ready sc) {result : Option Outcome} {v : Stand σ}
    (fires : (c.reporter sc).Fires signal c.tree others (c.outset sc) result v) :
    (c.execute signal).play others sc = (c.reporter sc).close others v result := by
  rw [play_ready h, Activity.play_bind, Reporter.play_goOn_fires fires]
  rcases result with _ | ⟨f | _⟩ <;> rfl

theorem unitsBegun_outset (c : Compiled σ) (sc : Scene (World σ) Report) (sink : Sink) :
    Event.unitsBegun ((c.outset sc).scene.sent sink) = Event.unitsBegun (sc.sent sink) := by
  cases c with
  | plan p => exact (sc.spending p.id).unitsBegun_announced p.strategy p.sink sink
  | tour t => exact sc.unitsBegun_announced .immediate t.sink sink

theorem heeds (hothers : others.KeepsFirings) (c : Compiled σ) (signal : Signal)
    (sc : Scene (World σ) Report) : c.Heeds signal others sc := by
  have hstops := c.execute_stops hothers c.sink signal sc
  constructor
  case stops => exact hstops
  case fires => exact fun h s hs fired => fires_of_ready hothers h hs fired
  case closes => exact fun h result v fires => play_fires h fires
  case cancels =>
    intro h outcome v fires hcancelled hleft
    have hplay := play_fires h fires
    obtain ⟨f, hf, hending⟩ : ∃ f : Fault, f.isCancelled = true ∧ v.ending outcome = .error f := by
      rcases outcome with f | _
      · exact ⟨f, hcancelled f rfl, rfl⟩
      · exact ⟨.cancelled, rfl, by simp [Stand.ending, hleft]⟩
    obtain ⟨told, event, last, hfinish, -, -, hsent, hcloses⟩ :=
      (c.reporter sc).play_finish others ⟨v.started, v.ending outcome⟩ v.scene
    rw [hending] at hcloses
    obtain ⟨rfl, rfl⟩ : told = .error .cancelled ∧
        event = .runCancelled (c.reporter sc).run v.started := by
      cases hcloses with
      | cancelled => exact ⟨rfl, rfl⟩
      | hushed hother | failed hother =>
        rw [hf] at hother
        cases hother
    have hsent : last.sent c.sink =
        v.scene.sent c.sink ++ [.runCancelled (c.reporter sc).run v.started] := hsent
    have hlast : (c.execute signal).play others sc = (some (.error .cancelled), last) :=
      hplay.trans hfinish
    refine ⟨last, hlast, hsent, fun s hs fired => ?_⟩
    have hsame := hstops s hs fired
    have hcount : Event.unitsBegun (last.sent c.sink) = Event.unitsBegun (v.scene.sent c.sink) := by
      rw [hsent, Event.unitsBegun_append]
      rfl
    have hbegun : Event.unitsBegun (v.scene.sent c.sink) + (c.outset sc).started =
        Event.unitsBegun ((c.outset sc).scene.sent c.sink) + v.started := Reporter.begun_fires fires
    have houtset := c.unitsBegun_outset sc c.sink
    have hstarted : (c.outset sc).started = 0 := by cases c <;> rfl
    rw [hlast] at hsame
    rw [Scene.unitsBegun_sent, hsame, ← Scene.unitsBegun_sent]
    dsimp only
    omega

end Compiled

end Flowchart
