import Flowchart.Script
import Flowchart.Proofs.Run.Stopped
import Flowchart.Proofs.Session.Proceeds

/-! Runs that are stopped at any point of a session, whatever goes on beside them. -/
namespace Flowchart.Session

variable {σ : Type}

theorem launch_job (s : Session σ) (c : Compiled σ) : (s.launch c).2.jobs[(s.launch c).1]? =
    some (.of s.nextSignal (c.execute s.nextSignal) s.clock) := by
  have hletIn : ∀ (s : Session σ) jobs, (s.letIn jobs).jobs = s.jobs := by
    intro s jobs
    unfold letIn
    split <;> rfl
  unfold launch
  dsimp only
  rw [hletIn]
  exact List.getElem?_concat_length

theorem stop_eq_fire {u : Session σ} {i : Nat} {job : Job σ} (h : u.jobs[i]? = some job) :
    u.stop i = u.fire job.signal := by
  have hsignal : u.signal? i = some job.signal := by rw [signal?, h, Option.map_some]
  rw [stop, hsignal]

theorem fire_jobs (u : Session σ) (signal : Signal) : (u.fire signal).jobs = u.jobs := by
  unfold fire withHostStage letIn
  split <;> rfl

theorem fire_fires (u : Session σ) (signal : Signal) :
    (u.fire signal).stage.signals.has signal = true := by
  have hstage : (u.fire signal).stage = { u.stage with signals := u.stage.signals.fire signal } :=
    (letIn_still _ _).1
  rw [hstage, Signals.has_fire]
  simp

/-- A job that is a run of `c` is stopped, heeds its signal and ends with `result`. -/
def StopsRun (u : Session σ) (i : Nat) (c : Compiled σ) (signal : Signal) (result : Option Outcome) :
    Prop :=
  ∃ run : Job σ, u.jobs[i]? = some run ∧
    ∃ (others : Company (World σ) Report) (sc mid last : Scene (World σ) Report),
      Activity.PlayedBy others (c.execute signal) sc run.activity mid (u.stop i).stage result last ∧
      c.Heeds signal others sc ∧
      mid.deeds.filterMap (Deed.begins? c.sink) = last.deeds.filterMap (Deed.begins? c.sink) ∧
      (run.activity.isOver = false → last.stage.signals.has signal = true)

/-- However a run goes on beside others, and wherever it is stopped, in the
end it has heeded its signal. -/
theorem stopsRun (c : Compiled σ) {s u t : Session σ}
    (running : Relation.ReflTransGen Does (s.launch c).2 u)
    (stopped : Relation.ReflTransGen Does (u.stop (s.launch c).1) t) {job : Job σ}
    (hjob : t.jobs[(s.launch c).1]? = some job) (hover : job.activity.isOver = true) :
    u.StopsRun (s.launch c).1 c s.nextSignal job.activity.result? := by
  obtain ⟨-, hrunning⟩ := Proceeds.of_history running
  obtain ⟨run, hrun, hsignal, hbefore⟩ := hrunning _ _ (s.launch_job c)
  have hstop : u.stop (s.launch c).1 = u.fire s.nextSignal := by
    rw [stop_eq_fire hrun, hsignal]
    rfl
  have hfires : (u.stop (s.launch c).1).stage.signals.has s.nextSignal = true :=
    hstop ▸ u.fire_fires s.nextSignal
  have hfirings : u.stage.signals.Within (u.stop (s.launch c).1).stage.signals :=
    hstop ▸ (Proceeds.of_acts (.fire s.nextSignal)).firings
  have hstays : (u.stop (s.launch c).1).jobs[(s.launch c).1]? = some run := by
    rw [hstop, fire_jobs]
    exact hrun
  obtain ⟨-, hstopped⟩ := Proceeds.of_history stopped
  obtain ⟨job', hjob', -, hafter⟩ := hstopped _ run hstays
  obtain rfl := Option.some.inj (hjob.symm.trans hjob')
  have hfresh : (c.execute s.nextSignal).isWaiting = false := by cases c <;> rfl
  obtain ⟨others, sc, mid, last, hplayed⟩ :=
    Activity.playedBy_of_looked hfresh (hbefore.tail (.amid hfirings)) hafter hover
  have hheeds := c.heeds hplayed.keeps s.nextSignal sc
  refine ⟨run, hrun, others, sc, mid, last, hplayed, hheeds, ?_⟩
  rcases hplayed.reaches with ⟨hended, rfl⟩ | ⟨s', hs', hwithin, hsame⟩
  · refine ⟨rfl, fun hrun => ?_⟩
    rw [hended] at hrun
    cases hrun
  · have hstops := hheeds.stops s' hs' (hwithin _ hfires)
    have hlast := Activity.fired_of_mem hplayed.keeps hs' (hwithin _ hfires)
    rw [hplayed.plays] at hstops hlast
    exact ⟨(Scene.begins_congr hsame.symm c.sink).trans hstops, fun _ => hlast⟩

/-- A run heeds its signal in any company, also when a host has launched it and stops it. -/
theorem run_heeds_stop (c : Compiled σ) :
    (∀ (signal : Signal) (others : Company (World σ) Report) (sc : Scene (World σ) Report),
      others.KeepsFirings → c.Heeds signal others sc) ∧
    ∀ (s u t : Session σ) (job : Job σ), Relation.ReflTransGen Does (s.launch c).2 u →
      Relation.ReflTransGen Does (u.stop (s.launch c).1) t →
      t.jobs[(s.launch c).1]? = some job → job.activity.isOver = true →
      u.StopsRun (s.launch c).1 c s.nextSignal job.activity.result? :=
  ⟨fun signal _ sc hothers => c.heeds hothers signal sc,
    fun _ _ _ _ running stopped hjob hover => stopsRun c running stopped hjob hover⟩

section Dozing

def after (s : Session σ) : Nat → Session σ
  | 0 => s
  | n + 1 => match s.next? with
    | none => s
    | some t => t.after n

theorem settle_eq_after {s : Session σ} {n : Nat} (h : (s.after n).next? = none) :
    s.settle = s.after n := by
  induction n generalizing s with
  | zero =>
    rw [settle]
    split
    · rfl
    · next t ht =>
      have h : s.next? = none := h
      rw [h] at ht
      cases ht
  | succ n ih =>
    rw [settle, after]
    rw [after] at h
    split
    · next hs => rw [hs]
    · next t ht =>
      rw [ht] at h
      rw [ht]
      exact ih h

def attended (s : Session σ) (front : Front σ) (n : Nat) : Session σ :=
  ({ s with front, frontDue := true, frontGaveWay := false, round := 0 } : Session σ).after n

theorem attend_eq_attended {s : Session σ} (front : Front σ) (n : Nat)
    (h : (s.attended front n).next?.isNone = true) : s.attend front = s.attended front n := by
  rw [attend, settle_eq_after (Option.isNone_iff_eq_none.mp h)]
  rfl

/-- A tour of one token, which leaves a unit that waits and another one. -/
def dozing : Tour Desk where
  tree := TokenTree.push {}
    (Script.token "token" [.push "doze" [.sleep 5] false, .push "never" [] false])
  limit := 1
  sink := .recorder
  surfaceFailures := true

def stopping {σ ω : Type} : Company σ ω :=
  fun _ stage => { stage with signals := stage.signals.fire 0 }

theorem run_heeds_stop_dozing :
    (∃ last, ((Compiled.tour dozing).execute 0).play stopping ⟨{ state := { host := {} } }, []⟩ =
        (some (.error .cancelled), last) ∧
      last.sent .recorder = [.runStarted "flow-run-1" "immediate",
        .tokenResolved "flow-run-1" "token" 2, .unitStarted "flow-run-1" "doze" "token",
        .unitCompleted "flow-run-1" "doze" "token", .runCancelled "flow-run-1" 1]) ∧
    (((new {}).launch (.tour dozing)).2.pass 2).StopsRun 0 (.tour dozing) 0
      (some (.error .cancelled)) := by
  obtain ⟨hrun, hsession⟩ := run_heeds_stop (.tour dozing)
  constructor
  · have hkeeps : (stopping : Company (World Desk) Report).KeepsFirings :=
      fun _ stage => Signals.Within.fire stage.signals 0
    have hheeds := hrun 0 stopping ⟨{ state := { host := {} } }, []⟩ hkeeps
    have hfires : ((Compiled.tour dozing).reporter ⟨{ state := { host := {} } }, []⟩).Fires 0 dozing.tree
        stopping ((Compiled.tour dozing).outset ⟨{ state := { host := {} } }, []⟩)
        (some (.ok ())) _ :=
      .during (.single (.token rfl rfl rfl)) (.unit rfl rfl) rfl
    obtain ⟨last, hplay, hsent, -⟩ := hheeds.cancels nofun (.ok ()) _ hfires nofun rfl
    refine ⟨last, hplay, hsent.trans ?_⟩
    decide
  · have hawait : (((((new {}).launch (.tour dozing)).2.pass 2).stop 0).await 0).2.jobs[0]? =
        some ⟨0, .done (.error .cancelled), 5⟩ := by
      rw [pass, carryOut_eq_attend, attend, settle_eq_after (n := 20) (by rfl)]
      change (attend _ (.awaiting 0)).jobs[0]? = _
      rw [attend, settle_eq_after (n := 20) (by rfl)]
      rfl
    exact hsession (new {}) _ _ _ (.single (.acts (.pass 2))) (.single (.acts (.await 0 none))) hawait rfl

end Dozing

/-- A tour of one token, which leaves a unit, fires the signal and takes the unit back. -/
def fickle : Tour Desk where
  tree := TokenTree.push {} (Script.token "token" ([.push "unit" [] false, .cancel] ++ [.clear]))
  limit := 1
  sink := .recorder
  surfaceFailures := true

/-- A unit is left when the signal fires, but at the next look nothing is,
and the run is complete. -/
theorem fickle_completes :
    (let (outcome, acc, _, signals) :=
      (Script.resolve "token" [.push "unit" [] false, .cancel]).run { current := "token" } {} {}
    outcome = .ok () ∧ acc.labels = [("token", "unit")] ∧ signals.has 0 = true) ∧
    let (told, last) := ((Compiled.tour fickle).execute 0).play .nobody ⟨{ state := { host := {} } }, []⟩
    told = some (.ok ()) ∧ last.stage.signals.has 0 = true ∧
      last.sent .recorder = [.runStarted "flow-run-1" "immediate",
        .tokenResolved "flow-run-1" "token" 0, .runCompleted "flow-run-1" 0] := by
  refine ⟨⟨rfl, rfl, rfl⟩, rfl, rfl, ?_⟩
  decide

end Flowchart.Session
