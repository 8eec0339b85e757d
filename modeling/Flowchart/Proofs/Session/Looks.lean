import Mathlib.Logic.Relation
import Flowchart.Session.Settle

/-! What happens in a session while its host waits: activities are looked at, one at a time. -/
namespace Flowchart.Session

variable {σ : Type}

def signals (s : Session σ) : List Signal := s.jobs.map (·.signal)

/-- The activities and the stage are left alone, or one activity goes on at a look. -/
inductive Looks (s t : Session σ) : Prop
  | rests (stage : t.stage = s.stage) (activities : t.activities = s.activities)
      (signals : t.signals = s.signals)
  | goesOn {i : Nat} {a : RunActivity σ Outcome} {timeIsUp : Bool}
      {p : Pause (World σ) Report Outcome} (here : s.activities[i]? = some a)
      (goes : a.look? timeIsUp s.stage = some p) (stage : t.stage = p.stage)
      (activities : t.activities = s.activities.set i p.rest) (signals : t.signals = s.signals)

theorem withStage_stage (s : Session σ) (stage : RunStage σ) : (s.withStage stage).stage = stage := by
  unfold withStage
  dsimp only
  split <;> rfl

theorem withStage_activities (s : Session σ) (stage : RunStage σ) :
    (s.withStage stage).activities = s.activities := by
  simp only [activities, withStage_jobs]

theorem leave_rests (s : Session σ) (job : Nat) (gaveWay : Bool) :
    (s.leave job gaveWay).stage = s.stage ∧ (s.leave job gaveWay).signals = s.signals := by
  unfold leave
  split
  · exact ⟨rfl, rfl⟩
  · split
    · split
      · split <;> exact ⟨rfl, rfl⟩
      · exact ⟨rfl, rfl⟩
    · exact ⟨rfl, rfl⟩

theorem lookAtFront_looks (s : Session σ) : s.Looks s.lookAtFront := by
  unfold lookAtFront
  split
  · exact .rests rfl rfl rfl
  · next a wakeAt hfront =>
    split
    · exact .rests rfl rfl rfl
    · next p hp =>
      have here : s.activities[0]? = some a := by simp [activities, hfront]
      refine .goesOn here hp (withStage_stage _ _) ?_ ?_
      · rw [withStage_activities]
        simp [activities, hfront]
      · simp only [signals, withStage_jobs]

theorem lookAtJob_looks (s : Session σ) (job : Nat) : s.Looks (s.lookAtJob job) := by
  unfold lookAtJob
  split
  · exact .rests rfl rfl rfl
  · next j hj =>
    dsimp only
    split
    · split <;> exact .rests rfl rfl rfl
    · next p hp =>
      have here : s.activities[job + 1]? = some j.activity := by simp [activities, hj]
      refine .goesOn here hp ?_ ?_ ?_
      · rw [(leave_rests _ _ _).1]
        exact withStage_stage _ _
      · rw [leave_activities]
        simp only [activities, withStage_jobs, List.map_set, List.set_cons_succ]
        rfl
      · obtain ⟨hlt, hsignal⟩ : ∃ h : job < s.signals.length, s.signals[job] = j.signal :=
          List.getElem?_eq_some_iff.mp (by simp [signals, hj])
        rw [(leave_rests _ _ _).2]
        simp only [signals, withStage_jobs, List.map_set, Job.of]
        rw [← hsignal]
        exact List.set_getElem_self hlt

theorem nextJob?_rests {s t : Session σ} {job : Nat} (h : s.nextJob? = some (job, t)) :
    t.stage = s.stage ∧ t.activities = s.activities ∧ t.signals = s.signals := by
  have hqueue : ∀ {job t}, s.fromQueue? = some (job, t) →
      t.stage = s.stage ∧ t.activities = s.activities ∧ t.signals = s.signals := by
    intro job t h
    unfold fromQueue? at h
    split at h <;> cases h
    exact ⟨rfl, rfl, rfl⟩
  have hentrance : ∀ {job t}, s.fromEntrance? = some (job, t) →
      t.stage = s.stage ∧ t.activities = s.activities ∧ t.signals = s.signals := by
    intro job t h
    unfold fromEntrance? at h
    split at h <;> cases h
    exact ⟨rfl, rfl, rfl⟩
  unfold nextJob? at h
  split at h
  · exact (Option.or_eq_some_iff.mp h).elim hentrance fun h => hqueue h.2
  · exact (Option.or_eq_some_iff.mp h).elim hqueue fun h => hentrance h.2

theorem yield_rests (s : Session σ) : s.yield.stage = s.stage ∧
    s.yield.activities = s.activities ∧ s.yield.signals = s.signals := by
  unfold yield
  dsimp only
  split <;> exact ⟨rfl, rfl, rfl⟩

theorem rest?_rests {s t : Session σ} (h : s.rest? = some t) :
    t.stage = s.stage ∧ t.activities = s.activities ∧ t.signals = s.signals := by
  unfold rest? at h
  split at h
  · cases h
    exact s.yield_rests
  · split at h
    · split at h
      · cases h
        exact ⟨rfl, rfl, rfl⟩
      · cases h
        unfold moveTo
        dsimp only
        split <;> exact ⟨rfl, rfl, rfl⟩
    · split at h
      · cases h
        exact ⟨rfl, rfl, rfl⟩
      · cases h

theorem next?_looks {s t : Session σ} (h : s.next? = some t) : s.Looks t := by
  unfold next? at h
  split at h
  · split at h
    · cases h
    · cases h
      exact s.lookAtFront_looks
  · split at h
    · cases h
      obtain ⟨hstage, hactivities, hsignals⟩ := s.yield_rests
      exact .rests hstage hactivities hsignals
    · dsimp only at h
      split at h
      · next job u hu =>
        cases h
        obtain ⟨hstage, hactivities, hsignals⟩ := nextJob?_rests hu
        have hlook := lookAtJob_looks { u with round := u.round + 1 } job
        cases hlook with
        | rests stage activities signals =>
          exact .rests (stage.trans hstage) (activities.trans hactivities) (signals.trans hsignals)
        | goesOn here goes stage activities signals =>
          refine .goesOn (hactivities ▸ here) (hstage ▸ goes) stage ?_ (signals.trans hsignals)
          rw [activities]
          exact congrArg (List.set · _ _) hactivities
      · obtain ⟨hstage, hactivities, hsignals⟩ := rest?_rests h
        exact .rests hstage hactivities hsignals

/-- Letting a session go on is one look after the other. -/
theorem looks_settle (s : Session σ) : Relation.ReflTransGen Looks s s.settle := by
  fun_induction settle s with
  | case1 s hnone => exact .refl
  | case2 s t hnext ih => exact .head (next?_looks hnext) ih

end Flowchart.Session
