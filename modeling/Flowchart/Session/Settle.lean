import Flowchart.Activity.Part
import Flowchart.Session.Turn

/-! Letting a session go on until its host has what it waits for. This always ends: activities are
finite, and the clock moves no further than to a time at which a wait ends. -/
namespace Flowchart
open Activity (Part Shrinks)
variable {σ : Type}

/-- What a session has yet to do: its activities, the time left to their
waits, and whom it has to look at. -/
structure Session.Outlook (σ : Type) where
  activities : List (RunActivity σ Outcome)
  timeLeft : Nat
  looks : Nat

namespace Session

def activities (s : Session σ) : List (RunActivity σ Outcome) :=
  (match s.front with
    | .acting a _ => a
    | .awaiting _ => .crash) :: s.jobs.map (·.activity)

/-- How many looks are left, where a job that stands counts more than a turn. -/
def looks (s : Session σ) : Nat :=
  4 * (s.queue.length + s.entrance.length) + 8 * s.gaveWay.length +
    (if s.frontGaveWay then 4 else 0) + (if s.frontDue then 1 else 0) +
    (if s.stirred then 1 else 0) + s.round

def outlook (s : Session σ) : Outlook σ :=
  { activities := s.activities, timeLeft := s.timeLeft, looks := s.looks }

def Outlook.Less (a b : Outlook σ) : Prop :=
  Prod.Lex Shrinks (Prod.Lex (· < ·) (· < ·)) (a.activities, a.timeLeft, a.looks)
    (b.activities, b.timeLeft, b.looks)

instance : WellFoundedRelation (Outlook σ) where
  rel := Outlook.Less
  wf := InvImage.wf (fun o : Outlook σ => (o.activities, o.timeLeft, o.looks))
    (Prod.lex ⟨Shrinks, Activity.shrinks_wellFounded⟩
      (Prod.lex ⟨(· < ·), Nat.lt_wfRel.wf⟩ ⟨(· < ·), Nat.lt_wfRel.wf⟩)).wf

theorem Outlook.less_of_shrinks {a b : Outlook σ} (h : Shrinks a.activities b.activities) :
    a.Less b := Prod.Lex.left _ _ h

theorem Outlook.less_of_timeLeft {a b : Outlook σ} (h : a.activities = b.activities)
    (ht : a.timeLeft < b.timeLeft) : a.Less b := by
  unfold Outlook.Less
  rw [h]
  exact .right _ (.left _ _ ht)

theorem Outlook.less_of_looks {a b : Outlook σ} (h : a.activities = b.activities)
    (ht : a.timeLeft = b.timeLeft) (hl : a.looks < b.looks) : a.Less b := by
  unfold Outlook.Less
  rw [h, ht]
  exact .right _ (.right _ hl)

theorem withStage_jobs (s : Session σ) (stage : RunStage σ) :
    (s.withStage stage).jobs = s.jobs ∧ (s.withStage stage).front = s.front := by
  unfold withStage
  dsimp only
  split <;> exact ⟨rfl, rfl⟩

theorem lookAtFront_less {s : Session σ} (h : s.frontDue = true) :
    s.lookAtFront.outlook.Less s.outlook := by
  have idle : { s with frontDue := false }.outlook.Less s.outlook :=
    Outlook.less_of_looks rfl rfl (by simp [outlook, looks, h])
  unfold lookAtFront
  split
  · exact idle
  · rename_i a wakeAt hf
    split
    · exact idle
    · rename_i p hp
      apply Outlook.less_of_shrinks
      simp only [outlook, activities, withStage_jobs, hf]
      exact .head (Activity.look?_part hp)

theorem leave_activities (s : Session σ) (job : Nat) (gaveWay : Bool) :
    (s.leave job gaveWay).activities = s.activities := by
  unfold leave
  split
  · rfl
  · split
    · split
      · split <;> rfl
      · rfl
    · rfl

theorem lookAtJob_outlook (s : Session σ) (job : Nat) :
    (s.lookAtJob job).outlook = s.outlook ∨
      Shrinks (s.lookAtJob job).activities s.activities := by
  unfold lookAtJob
  split
  · exact .inl rfl
  · rename_i j hj
    dsimp only
    split
    · split <;> exact .inl rfl
    · rename_i p hp
      refine .inr ?_
      rw [leave_activities]
      simp only [activities, withStage_jobs, List.map_set]
      exact .tail (Activity.shrinks_set (by simp [hj]) (Activity.look?_part hp))

theorem fromQueue?_looks {s t : Session σ} {job : Nat} (h : s.fromQueue? = some (job, t)) :
    t.activities = s.activities ∧ t.timeLeft = s.timeLeft ∧ t.looks + 4 = s.looks := by
  unfold fromQueue? at h
  split at h
  · rename_i hq
    cases h
    refine ⟨rfl, rfl, ?_⟩
    simp only [looks, hq, List.length_cons]
    omega
  · cases h

theorem fromEntrance?_looks {s t : Session σ} {job : Nat} (h : s.fromEntrance? = some (job, t)) :
    t.activities = s.activities ∧ t.timeLeft = s.timeLeft ∧ t.looks + 4 = s.looks := by
  unfold fromEntrance? at h
  split at h
  · rename_i hq
    cases h
    refine ⟨rfl, rfl, ?_⟩
    simp only [looks, hq, List.length_cons]
    omega
  · cases h

theorem nextJob?_looks {s t : Session σ} {job : Nat} (h : s.nextJob? = some (job, t)) :
    t.activities = s.activities ∧ t.timeLeft = s.timeLeft ∧ t.looks + 4 = s.looks := by
  unfold nextJob? at h
  split at h
  · obtain h | ⟨-, h⟩ := Option.or_eq_some_iff.mp h
    · exact fromEntrance?_looks h
    · exact fromQueue?_looks h
  · obtain h | ⟨-, h⟩ := Option.or_eq_some_iff.mp h
    · exact fromQueue?_looks h
    · exact fromEntrance?_looks h

theorem absent_length_le (s : Session σ) (jobs : List Nat) :
    (s.absent jobs).length ≤ jobs.length := List.length_filter_le _ _

theorem yield_less {s : Session σ}
    (h : s.gaveWay ≠ [] ∨ s.frontGaveWay = true ∨ s.round ≠ 0) :
    s.yield.outlook.Less s.outlook := by
  have hl := absent_length_le { s with round := 0, stirred := false, gaveWay := [] } s.gaveWay
  have hg : s.gaveWay ≠ [] → 0 < s.gaveWay.length := List.length_pos_iff.mpr
  unfold yield
  dsimp only
  split
  · rename_i hf
    refine Outlook.less_of_looks rfl rfl ?_
    simp only [outlook, looks, callFront, enqueue, List.length_append] at hf ⊢
    grind
  · rename_i hf
    refine Outlook.less_of_looks rfl rfl ?_
    simp only [outlook, looks, enqueue, List.length_append] at hf ⊢
    grind

theorem moveTo_less {s : Session σ} {stop : Nat} (h : s.nextStop? = some stop) :
    (s.moveTo stop).outlook.Less s.outlook := by
  have ht := timeLeft_lt_of_stop h
  unfold moveTo
  dsimp only
  split <;> exact Outlook.less_of_timeLeft rfl ht

theorem rest?_less {s t : Session σ} (hr : s.frontDue = true → s.round ≠ 0)
    (h : s.rest? = some t) : t.outlook.Less s.outlook := by
  unfold rest? at h
  split at h
  · rename_i hw
    cases h
    refine yield_less ?_
    simp only [Bool.or_eq_true, Bool.not_eq_true', List.isEmpty_eq_false_iff] at hw
    exact hw.imp_right .inl
  · split at h
    · rename_i stop hs
      split at h
      · rename_i hst
        cases h
        refine Outlook.less_of_looks rfl rfl ?_
        simp only [outlook, looks, hst, if_true]
        grind
      · cases h
        exact moveTo_less hs
    · split at h
      · rename_i hd
        cases h
        have := hr hd
        refine Outlook.less_of_looks rfl rfl ?_
        simp only [outlook, looks]
        omega
      · cases h

theorem next?_less {s t : Session σ} (h : s.next? = some t) : t.outlook.Less s.outlook := by
  unfold next? at h
  split at h
  · rename_i hd
    rw [Bool.and_eq_true] at hd
    split at h
    · cases h
    · cases h
      exact lookAtFront_less hd.1
  · rename_i hd
    split at h
    · rename_i hr
      cases h
      exact yield_less (.inr (.inr (by rw [hr]; decide)))
    · dsimp only at h
      split at h
      · rename_i job u hu
        cases h
        obtain ⟨ha, ht, hl⟩ := nextJob?_looks hu
        obtain ho | hs := lookAtJob_outlook { u with round := u.round + 1 } job
        · rw [ho]
          refine Outlook.less_of_looks ha ht ?_
          simp only [outlook, looks] at hl ⊢
          omega
        · refine Outlook.less_of_shrinks ?_
          change Shrinks _ s.activities
          rwa [← show u.activities = s.activities from ha]
      · refine rest?_less (s := { s with turns := s.turns + 1 }) ?_ h
        intro hf hz
        simp_all

/-- Let everything happen until the host has got what it waits for. -/
def settle (s : Session σ) : Session σ :=
  match _h : s.next? with
  | none => s
  | some t => t.settle
termination_by s.outlook
decreasing_by exact next?_less _h

end Session
end Flowchart
