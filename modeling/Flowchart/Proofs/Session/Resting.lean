import Flowchart.Proofs.Activity.Course
import Flowchart.Proofs.Session.Looks
import Flowchart.Session.Host

/-! When a session comes to rest, its host has got what it waits for: whoever is not over is called,
has given way, or waits for a time to which the clock still moves. -/
namespace Flowchart

namespace Activity

variable {σ ω α : Type} {a : Activity σ ω α} {timeIsUp : Bool} {stage : Stage σ ω}
  {p : Pause σ ω α}

/-- A burst stops where the activity is over, gives way, or has some time to wait. -/
theorem burst_stops (a : Activity σ ω α) (n : Nat) (stage : Stage σ ω) :
    (a.burst n stage).rest.isOver = true ∨ (a.burst n stage).gaveWay = true ∨
      (a.burst n stage).rest.isWaiting = true ∧ 0 < (a.burst n stage).rest.delay := by
  induction a generalizing n stage with
  | done | crash => exact .inl rfl
  | get next ih => exact ih _ n stage
  | set s next ih => exact ih n _
  | emit o next ih => exact ih n _
  | fire signal next ih => exact ih n _
  | poll signal next ih => exact ih _ n stage
  | wait ms signal next ih =>
    rw [burst]
    split
    · next hn => exact .inr (.inl (by simp [Pause.gaveWay, hn, isWaiting]))
    · split
      · exact ih true n stage
      · split
        · exact ih false (n - 1) stage
        · next hms => exact .inr (.inr ⟨rfl, Nat.pos_of_ne_zero hms⟩)

theorem stops_of_look? (h : a.look? timeIsUp stage = some p) :
    p.rest.isOver = true ∨ p.gaveWay = true ∨ p.rest.isWaiting = true ∧ 0 < p.rest.delay := by
  obtain ⟨n, rfl⟩ := look?_eq_some h []
  exact burst_stops _ n stage

/-- An activity does not go on only if it is over, or waits and its time is not up. -/
theorem over_or_waiting_of_look? (h : a.look? timeIsUp stage = none) :
    a.isOver = true ∨ a.isWaiting = true ∧ timeIsUp = false := by
  cases a with
  | done | crash => exact .inl rfl
  | wait ms signal next =>
    rw [look?] at h
    split at h
    · cases h
    · split at h
      · cases h
      · next htime => exact .inr ⟨rfl, Bool.eq_false_iff.mpr htime⟩
  | get | set | emit | fire | poll => cases h

theorem look?_of_isOver (h : a.isOver = true) : a.look? timeIsUp stage = none := by
  cases a with
  | done | crash => rfl
  | get | set | emit | fire | poll | wait => cases h

end Activity

namespace Session

variable {σ : Type} {s t u : Session σ}

inductive Moves (s : Session σ) : Session σ → Prop
  | front : Moves s s.lookAtFront
  | yield (turns : Nat) : Moves s { s with turns }.yield
  | job {turns job : Nat} {u : Session σ} (h : { s with turns }.nextJob? = some (job, u)) :
      Moves s ({ u with round := u.round + 1 }.lookAtJob job)
  | pause (turns : Nat) (stirred : Bool) : Moves s { s with turns, round := 0, stirred }
  | clock (turns stop : Nat) : Moves s ({ s with turns }.moveTo stop)

theorem next?_moves (h : s.next? = some t) : s.Moves t := by
  unfold next? at h
  split at h
  · split at h
    · cases h
    · cases h
      exact .front
  · split at h
    · cases h
      exact .yield s.turns
    · dsimp only at h
      split at h
      · next job u hu =>
        cases h
        exact .job hu
      · unfold rest? at h
        split at h
        · cases h
          exact .yield (s.turns + 1)
        · split at h
          · split at h
            · cases h
              exact .pause (s.turns + 1) false
            · cases h
              exact .clock (s.turns + 1) _
          · split at h
            · cases h
              exact .pause (s.turns + 1) s.stirred
            · cases h

/-- The job whose turn it is was the first of the queue or at the entrance. -/
theorem nextJob?_cases {job : Nat} (h : s.nextJob? = some (job, u)) :
    (∃ queue, s.queue = job :: queue ∧ u = { s with queue }) ∨
      ∃ entrance, s.entrance = job :: entrance ∧ u = { s with entrance } := by
  have hqueue : s.fromQueue? = some (job, u) → ∃ queue, s.queue = job :: queue ∧
      u = { s with queue } := by
    intro h
    unfold fromQueue? at h
    split at h
    · next queue hq =>
      cases h
      exact ⟨queue, hq, rfl⟩
    · cases h
  have hentrance : s.fromEntrance? = some (job, u) → ∃ entrance, s.entrance = job :: entrance ∧
      u = { s with entrance } := by
    intro h
    unfold fromEntrance? at h
    split at h
    · next entrance he =>
      cases h
      exact ⟨entrance, he, rfl⟩
    · cases h
  unfold nextJob? at h
  split at h
  · exact (Option.or_eq_some_iff.mp h).elim (fun h => .inr (hentrance h)) fun h => .inl (hqueue h.2)
  · exact (Option.or_eq_some_iff.mp h).elim (fun h => .inl (hqueue h)) fun h => .inr (hentrance h.2)

/-- What every move keeps holds when the session has settled. -/
theorem settle_induction {P : Session σ → Prop} (hmoves : ∀ s t, s.Moves t → P s → P t)
    (s : Session σ) (h : P s) : P s.settle := by
  fun_induction settle s with
  | case1 s hnone => exact h
  | case2 s t hnext ih => exact ih (hmoves s t (next?_moves hnext) h)

theorem next?_settle (s : Session σ) : s.settle.next? = none := by
  fun_induction settle s with
  | case1 s hnone => exact hnone
  | case2 s t hnext ih => exact ih

section Rest

/-- Nobody is called, and no wait is for a time to come. -/
structure Still (s : Session σ) : Prop where
  queue : s.queue = []
  entrance : s.entrance = []
  gaveWay : s.gaveWay = []
  frontDue : s.frontDue = false
  frontGaveWay : s.frontGaveWay = false
  deadlines : ∀ time ∈ s.deadlines, time ≤ s.clock

theorem mem_stops (time : Nat) : time ∈ stops time :=
  List.mem_map.mpr ⟨0, by simp, by simp [Nat.mod_one]⟩

theorem le_clock_of_nextStop? (h : s.nextStop? = none) : ∀ time ∈ s.deadlines, time ≤ s.clock := by
  intro time htime
  rw [nextStop?, List.min?_eq_none_iff, List.filter_eq_nil_iff] at h
  have hpast := h time (List.mem_flatMap.mpr ⟨time, htime, mem_stops time⟩)
  simpa using hpast

theorem nothing_stands_of_nextJob? (h : s.nextJob? = none) : s.queue = [] ∧ s.entrance = [] := by
  have hqueue : s.fromQueue? = none → s.queue = [] := by
    unfold fromQueue?
    split <;> simp_all
  have hentrance : s.fromEntrance? = none → s.entrance = [] := by
    unfold fromEntrance?
    split <;> simp_all
  unfold nextJob? at h
  split at h
  · obtain ⟨he, hq⟩ := Option.or_eq_none_iff.mp h
    exact ⟨hqueue hq, hentrance he⟩
  · obtain ⟨hq, he⟩ := Option.or_eq_none_iff.mp h
    exact ⟨hqueue hq, hentrance he⟩

/-- A session goes no further only if the host is done or no wait can end any more. -/
theorem over_or_still_of_next? (h : s.next? = none) : s.frontOver = true ∨ s.Still := by
  unfold next? at h
  split at h
  · split at h
    · next hover => exact .inl hover
    · cases h
  · split at h
    · cases h
    · dsimp only at h
      split at h
      · cases h
      · next hjob =>
        obtain ⟨hqueue, hentrance⟩ := nothing_stands_of_nextJob? hjob
        unfold rest? at h
        split at h
        · cases h
        · next hgave =>
          obtain ⟨hgaveWay, hfrontGaveWay⟩ : s.gaveWay = [] ∧ s.frontGaveWay = false := by
            simpa using hgave
          split at h
          · split at h <;> cases h
          · next hstop =>
            split at h
            · cases h
            · next hdue =>
              exact .inr ⟨hqueue, hentrance, hgaveWay, by simpa using hdue, hfrontGaveWay,
                le_clock_of_nextStop? hstop⟩

end Rest

section Front

structure KeepsFront (s t : Session σ) : Prop where
  front : t.front = s.front
  clock : t.clock = s.clock
  frontGaveWay : t.frontGaveWay = s.frontGaveWay
  frontDue : s.frontDue = true → t.frontDue = true

theorem KeepsFront.refl (s : Session σ) : s.KeepsFront s := ⟨rfl, rfl, rfl, id⟩

theorem KeepsFront.trans (h : s.KeepsFront t) (h' : t.KeepsFront u) : s.KeepsFront u where
  front := h'.front.trans h.front
  clock := h'.clock.trans h.clock
  frontGaveWay := h'.frontGaveWay.trans h.frontGaveWay
  frontDue hdue := h'.frontDue (h.frontDue hdue)

theorem withStage_keepsFront (s : Session σ) (stage : RunStage σ) :
    s.KeepsFront (s.withStage stage) := by
  unfold withStage
  dsimp only
  split
  · exact ⟨rfl, rfl, rfl, fun _ => rfl⟩
  · exact ⟨rfl, rfl, rfl, id⟩

theorem leave_keepsFront (s : Session σ) (job : Nat) (gaveWay : Bool) :
    s.KeepsFront (s.leave job gaveWay) := by
  unfold leave
  split
  · exact ⟨rfl, rfl, rfl, id⟩
  · split
    · split
      · split
        · exact ⟨rfl, rfl, rfl, fun _ => rfl⟩
        · exact .refl s
      · exact .refl s
    · exact ⟨rfl, rfl, rfl, id⟩

theorem lookAtJob_keepsFront (s : Session σ) (job : Nat) : s.KeepsFront (s.lookAtJob job) := by
  unfold lookAtJob
  split
  · exact .refl s
  · next j _ =>
    have herased : s.KeepsFront { s with parked := s.parked.erase job } := ⟨rfl, rfl, rfl, id⟩
    dsimp only
    split
    · split
      · exact herased
      · exact ⟨rfl, rfl, rfl, id⟩
    · next p _ =>
      refine (herased.trans (withStage_keepsFront _ p.stage)).trans (.trans ?_ (leave_keepsFront ..))
      exact ⟨rfl, rfl, rfl, id⟩

theorem nextJob?_keepsFront {job : Nat} (h : s.nextJob? = some (job, u)) : s.KeepsFront u := by
  obtain ⟨queue, _, rfl⟩ | ⟨entrance, _, rfl⟩ := nextJob?_cases h
  · exact ⟨rfl, rfl, rfl, id⟩
  · exact ⟨rfl, rfl, rfl, id⟩

/-- The foreground carries out an activity, which is over, or called, or has given way, or waits for a
time to come. -/
def FrontHeld (s : Session σ) : Prop := ∃ a wakeAt, s.front = .acting a wakeAt ∧
  (a.isOver = true ∨ s.frontDue = true ∨ s.frontGaveWay = true ∨
    a.isWaiting = true ∧ s.clock < wakeAt)

theorem FrontHeld.of_kept (h : s.FrontHeld) (hkeeps : s.KeepsFront t) : t.FrontHeld := by
  obtain ⟨a, wakeAt, hfront, hheld⟩ := h
  refine ⟨a, wakeAt, hkeeps.front.trans hfront, ?_⟩
  rw [hkeeps.frontGaveWay, hkeeps.clock]
  exact hheld.imp_right (Or.imp_left hkeeps.frontDue)

theorem FrontHeld.lookAtFront (h : s.FrontHeld) : s.lookAtFront.FrontHeld := by
  obtain ⟨a, wakeAt, hfront, _⟩ := h
  unfold Session.lookAtFront
  split
  · next hawaits => cases hawaits.symm.trans hfront
  · next hacts =>
    cases hacts.symm.trans hfront
    split
    · next hlook =>
      refine ⟨a, wakeAt, hfront, ?_⟩
      rcases Activity.over_or_waiting_of_look? hlook with hover | ⟨hwaits, htime⟩
      · exact .inl hover
      · exact .inr (.inr (.inr ⟨hwaits, by simpa using htime⟩))
    · next p hlook =>
      refine FrontHeld.of_kept ?_ (withStage_keepsFront _ p.stage)
      refine ⟨p.rest, _, rfl, ?_⟩
      rcases Activity.stops_of_look? hlook with hover | hgave | ⟨hwaits, hdelay⟩
      · exact .inl hover
      · exact .inr (.inr (.inl hgave))
      · exact .inr (.inr (.inr ⟨hwaits, Nat.lt_add_of_pos_right hdelay⟩))

theorem FrontHeld.yield (h : s.FrontHeld) : s.yield.FrontHeld := by
  obtain ⟨a, wakeAt, hfront, hheld⟩ := h
  unfold Session.yield
  dsimp only
  split
  · exact ⟨a, wakeAt, hfront, .inr (.inl rfl)⟩
  · exact ⟨a, wakeAt, hfront, hheld⟩

theorem FrontHeld.moveTo (h : s.FrontHeld) (stop : Nat) : (s.moveTo stop).FrontHeld := by
  obtain ⟨a, wakeAt, hfront, hheld⟩ := h
  unfold Session.moveTo
  dsimp only
  split
  · exact ⟨a, wakeAt, hfront, .inr (.inl rfl)⟩
  · next hearly =>
    refine ⟨a, wakeAt, hfront, hheld.imp_right (Or.imp_right (Or.imp_right ?_))⟩
    rintro ⟨hwaits, _⟩
    have hearly : ¬ (a.isWaiting = true ∧ wakeAt ≤ stop) := by
      simpa [frontEndsBy, enqueue, hfront] using hearly
    exact ⟨hwaits, Nat.lt_of_not_le fun hle => hearly ⟨hwaits, hle⟩⟩

theorem FrontHeld.moves (h : s.FrontHeld) (hmoves : s.Moves t) : t.FrontHeld := by
  cases hmoves with
  | front => exact h.lookAtFront
  | yield turns => exact FrontHeld.yield (h.of_kept ⟨rfl, rfl, rfl, id⟩)
  | @job _ _ u hjob =>
    have hturn := nextJob?_keepsFront hjob
    have hkeeps : s.KeepsFront { u with round := u.round + 1 } :=
      ⟨hturn.front, hturn.clock, hturn.frontGaveWay, hturn.frontDue⟩
    exact h.of_kept (hkeeps.trans (lookAtJob_keepsFront _ _))
  | pause turns stirred => exact h.of_kept ⟨rfl, rfl, rfl, id⟩
  | clock turns stop =>
    have hturn : ({ s with turns } : Session σ).FrontHeld := h.of_kept ⟨rfl, rfl, rfl, id⟩
    exact hturn.moveTo stop

theorem FrontHeld.over (h : s.FrontHeld) (hnext : s.next? = none) :
    ∃ a wakeAt, s.front = .acting a wakeAt ∧ a.isOver = true := by
  obtain ⟨a, wakeAt, hfront, hheld⟩ := h
  refine ⟨a, wakeAt, hfront, ?_⟩
  rcases over_or_still_of_next? hnext with hover | hstill
  · simpa [frontOver, hfront] using hover
  · have hrests : ¬ (a.isWaiting = true ∧ s.clock < wakeAt) := by
      rintro ⟨hwaits, hearly⟩
      have hpast := hstill.deadlines wakeAt (by simp [deadlines, hfront, hwaits])
      exact Nat.not_lt.mpr hpast hearly
    simpa [hstill.frontDue, hstill.frontGaveWay, hrests] using hheld

theorem attend_acting_over (s : Session σ) (a : RunActivity σ Outcome) (wakeAt : Nat) :
    ∃ b wakeAt', (s.attend (.acting a wakeAt)).front = .acting b wakeAt' ∧ b.isOver = true := by
  have hheld : (s.attend (.acting a wakeAt)).FrontHeld :=
    settle_induction (fun _ _ hmoves h => FrontHeld.moves h hmoves) _
      ⟨a, wakeAt, rfl, .inr (.inl rfl)⟩
  exact hheld.over (next?_settle _)

end Front

section Jobs

theorem stands_of_enqueue {jobs : List Nat} {job : Nat} (h : job ∈ jobs) :
    job ∈ (s.enqueue jobs).queue ∨ job ∈ (s.enqueue jobs).entrance := by
  by_cases hstands : job ∈ s.queue ∨ job ∈ s.entrance
  · exact hstands.imp_left (List.mem_append_left _)
  · obtain ⟨hq, he⟩ := not_or.mp hstands
    exact .inl (List.mem_append_right _ (by simp [absent, h, hq, he]))

/-- A job is over, or stands somewhere, or has given way, or is parked for a time to come. -/
def JobHeld (s : Session σ) (job : Nat) : Prop := ∃ j, s.jobs[job]? = some j ∧
  (j.activity.isOver = true ∨ (job ∈ s.queue ∨ job ∈ s.entrance) ∨ job ∈ s.gaveWay ∨
    j.activity.isWaiting = true ∧ s.clock < j.wakeAt ∧ job ∈ s.parked)

structure KeepsJob (job : Nat) (s t : Session σ) : Prop where
  jobs : t.jobs[job]? = s.jobs[job]?
  clock : t.clock = s.clock
  queue : job ∈ s.queue → job ∈ t.queue
  entrance : job ∈ s.entrance → job ∈ t.entrance
  gaveWay : job ∈ s.gaveWay → job ∈ t.gaveWay
  parked : job ∈ s.parked → job ∈ t.parked

variable {job other : Nat}

theorem KeepsJob.refl (job : Nat) (s : Session σ) : s.KeepsJob job s := ⟨rfl, rfl, id, id, id, id⟩

theorem KeepsJob.trans (h : s.KeepsJob job t) (h' : t.KeepsJob job u) : s.KeepsJob job u where
  jobs := h'.jobs.trans h.jobs
  clock := h'.clock.trans h.clock
  queue hq := h'.queue (h.queue hq)
  entrance he := h'.entrance (h.entrance he)
  gaveWay hg := h'.gaveWay (h.gaveWay hg)
  parked hp := h'.parked (h.parked hp)

theorem JobHeld.of_kept (h : s.JobHeld job) (hkeeps : s.KeepsJob job t) : t.JobHeld job := by
  obtain ⟨j, hj, hheld⟩ := h
  refine ⟨j, hkeeps.jobs.trans hj, ?_⟩
  rcases hheld with hover | hstands | hgave | ⟨hwaits, htime, hparked⟩
  · exact .inl hover
  · exact .inr (.inl (hstands.imp hkeeps.queue hkeeps.entrance))
  · exact .inr (.inr (.inl (hkeeps.gaveWay hgave)))
  · exact .inr (.inr (.inr ⟨hwaits, hkeeps.clock ▸ htime, hkeeps.parked hparked⟩))

theorem withStage_keepsJob (job : Nat) (s : Session σ) (stage : RunStage σ) :
    s.KeepsJob job (s.withStage stage) := by
  unfold withStage
  dsimp only
  split
  · exact ⟨rfl, rfl, List.mem_append_left _, id, id, id⟩
  · exact ⟨rfl, rfl, List.mem_append_left _, id, id, id⟩

theorem leave_keepsJob (job : Nat) (s : Session σ) (other : Nat) (gaveWay : Bool) :
    s.KeepsJob job (s.leave other gaveWay) := by
  unfold leave
  split
  · exact ⟨rfl, rfl, id, id, List.mem_cons_of_mem _, id⟩
  · split
    · split
      · split
        · exact ⟨rfl, rfl, id, id, id, id⟩
        · exact .refl job s
      · exact .refl job s
    · exact ⟨rfl, rfl, id, id, id, List.mem_append_left _⟩

theorem lookAtFront_keepsJob (job : Nat) (s : Session σ) : s.KeepsJob job s.lookAtFront := by
  unfold lookAtFront
  split
  · exact ⟨rfl, rfl, id, id, id, id⟩
  · split
    · exact ⟨rfl, rfl, id, id, id, id⟩
    · next p _ =>
      refine KeepsJob.trans ?_ (withStage_keepsJob job _ p.stage)
      exact ⟨rfl, rfl, id, id, id, id⟩

theorem lookAtJob_keepsJob (s : Session σ) (hother : other ≠ job) :
    s.KeepsJob job (s.lookAtJob other) := by
  have hparked : job ∈ s.parked → job ∈ s.parked.erase other :=
    (List.mem_erase_of_ne hother.symm).mpr
  unfold lookAtJob
  split
  · exact .refl job s
  · next j _ =>
    have herased : s.KeepsJob job { s with parked := s.parked.erase other } :=
      ⟨rfl, rfl, id, id, id, hparked⟩
    dsimp only
    split
    · split
      · exact herased
      · exact ⟨rfl, rfl, id, id, id, fun h => List.mem_append_left _ (hparked h)⟩
    · next p _ =>
      refine (herased.trans (withStage_keepsJob job _ p.stage)).trans
        (.trans ?_ (leave_keepsJob job _ other p.gaveWay))
      exact ⟨List.getElem?_set_ne hother, rfl, id, id, id, id⟩

/-- After a look at it a job is over, has given way, or is parked. -/
theorem jobHeld_lookAtJob {j : Job σ} (hj : s.jobs[job]? = some j) : (s.lookAtJob job).JobHeld job := by
  unfold lookAtJob
  rw [hj]
  dsimp only
  split
  · next hlook =>
    rcases Activity.over_or_waiting_of_look? hlook with hover | ⟨hwaits, htime⟩
    · rw [if_pos hover]
      exact ⟨j, hj, .inl hover⟩
    · split
      · next hover => exact ⟨j, hj, .inl hover⟩
      · refine ⟨j, hj, .inr (.inr (.inr ⟨hwaits, by simpa using htime, ?_⟩))⟩
        exact List.mem_append_right _ (List.mem_singleton.mpr rfl)
  · next p hlook =>
    let staged := ({ s with parked := s.parked.erase job } : Session σ).withStage p.stage
    let here : Session σ := { staged with jobs := staged.jobs.set job (.of j.signal p.rest staged.clock) }
    have hjobs : staged.jobs = s.jobs := (withStage_jobs _ p.stage).1
    have hset : here.jobs[job]? = some (.of j.signal p.rest here.clock) := by
      have hlt : job < staged.jobs.length := hjobs ▸ (List.getElem?_eq_some_iff.mp hj).1
      exact List.getElem?_set_self hlt
    have hover : here.isOver job = p.rest.isOver := by
      rw [isOver, hset]
      rfl
    change (here.leave job p.gaveWay).JobHeld job
    unfold leave
    rw [hover]
    split
    · exact ⟨_, hset, .inr (.inr (.inl List.mem_cons_self))⟩
    · next hgave =>
      split
      · next hdone =>
        split
        · split <;> exact ⟨_, hset, .inl hdone⟩
        · exact ⟨_, hset, .inl hdone⟩
      · next hdone =>
        refine ⟨_, hset, .inr (.inr (.inr ?_))⟩
        rcases Activity.stops_of_look? hlook with h | h | ⟨hwaits, hdelay⟩
        · exact absurd h hdone
        · exact absurd h hgave
        · exact ⟨hwaits, Nat.lt_add_of_pos_right hdelay, List.mem_append_right _ (List.mem_singleton.mpr rfl)⟩

/-- A job whose turn it is leaves its place, and no other does. -/
theorem JobHeld.nextJob? (h : s.JobHeld job) (hnext : s.nextJob? = some (other, u))
    (hother : other ≠ job) : u.JobHeld job := by
  obtain ⟨j, hj, hheld⟩ := h
  obtain ⟨queue, hq, rfl⟩ | ⟨entrance, he, rfl⟩ := nextJob?_cases hnext
  · refine ⟨j, hj, hheld.imp_right (Or.imp_left (Or.imp_left fun hmem => ?_))⟩
    rw [hq] at hmem
    exact (List.mem_cons.mp hmem).resolve_left hother.symm
  · refine ⟨j, hj, hheld.imp_right (Or.imp_left (Or.imp_right fun hmem => ?_))⟩
    rw [he] at hmem
    exact (List.mem_cons.mp hmem).resolve_left hother.symm

theorem JobHeld.yield (h : s.JobHeld job) : s.yield.JobHeld job := by
  let rested : Session σ := { s with round := 0, stirred := false, gaveWay := [] }
  have hrested : (rested.enqueue s.gaveWay).JobHeld job := by
    obtain ⟨j, hj, hheld⟩ := h
    refine ⟨j, hj, ?_⟩
    rcases hheld with hover | hstands | hgave | hparked
    · exact .inl hover
    · exact .inr (.inl (hstands.imp_left (List.mem_append_left _)))
    · exact .inr (.inl (stands_of_enqueue hgave))
    · exact .inr (.inr (.inr hparked))
  unfold Session.yield
  dsimp only
  split
  · exact hrested.of_kept ⟨rfl, rfl, id, id, id, id⟩
  · exact hrested

theorem JobHeld.moveTo (h : s.JobHeld job) (stop : Nat) : (s.moveTo stop).JobHeld job := by
  let moved : Session σ := { s with clock := stop, round := 0 }
  have hmoved : (moved.enqueue (moved.parked.filter (moved.endsBy stop))).JobHeld job := by
    obtain ⟨j, hj, hheld⟩ := h
    refine ⟨j, hj, ?_⟩
    rcases hheld with hover | hstands | hgave | ⟨hwaits, -, hparked⟩
    · exact .inl hover
    · exact .inr (.inl (hstands.imp_left (List.mem_append_left _)))
    · exact .inr (.inr (.inl hgave))
    · by_cases htime : j.wakeAt ≤ stop
      · have hends : moved.endsBy stop job = true := by simp [endsBy, moved, hj, hwaits, htime]
        exact .inr (.inl (stands_of_enqueue (List.mem_filter.mpr ⟨hparked, hends⟩)))
      · exact .inr (.inr (.inr ⟨hwaits, Nat.lt_of_not_le htime, hparked⟩))
  unfold Session.moveTo
  dsimp only
  split
  · exact hmoved.of_kept ⟨rfl, rfl, id, id, id, id⟩
  · exact hmoved

theorem JobHeld.moves (h : s.JobHeld job) (hmoves : s.Moves t) : t.JobHeld job := by
  cases hmoves with
  | front => exact h.of_kept (lookAtFront_keepsJob job s)
  | yield turns =>
    have hturn : ({ s with turns } : Session σ).JobHeld job := h.of_kept ⟨rfl, rfl, id, id, id, id⟩
    exact hturn.yield
  | @job turns other u hnext =>
    have hturn : ({ s with turns } : Session σ).JobHeld job := h.of_kept ⟨rfl, rfl, id, id, id, id⟩
    by_cases hown : other = job
    · obtain ⟨j, hj, _⟩ := h
      subst hown
      have hj' : u.jobs[other]? = some j := by
        obtain ⟨_, _, rfl⟩ | ⟨_, _, rfl⟩ := nextJob?_cases hnext <;> exact hj
      exact jobHeld_lookAtJob hj'
    · have hheld : ({ u with round := u.round + 1 } : Session σ).JobHeld job :=
        (hturn.nextJob? hnext hown).of_kept ⟨rfl, rfl, id, id, id, id⟩
      exact hheld.of_kept (lookAtJob_keepsJob _ hown)
  | pause turns stirred => exact h.of_kept ⟨rfl, rfl, id, id, id, id⟩
  | clock turns stop =>
    have hturn : ({ s with turns } : Session σ).JobHeld job := h.of_kept ⟨rfl, rfl, id, id, id, id⟩
    exact hturn.moveTo stop

theorem awaiting_moves (h : s.front = .awaiting job) (hmoves : s.Moves t) :
    t.front = .awaiting job := by
  cases hmoves with
  | front =>
    unfold lookAtFront
    split
    · exact h
    · next hacts => cases hacts.symm.trans h
  | yield turns =>
    unfold yield
    dsimp only
    split <;> exact h
  | @job _ _ u hjob =>
    exact (lookAtJob_keepsFront _ _).front.trans ((nextJob?_keepsFront hjob).front.trans h)
  | pause turns stirred => exact h
  | clock turns stop =>
    unfold moveTo
    dsimp only
    split <;> exact h

theorem JobHeld.over (h : s.JobHeld job) (hfront : s.front = .awaiting job)
    (hnext : s.next? = none) : ∃ j, s.jobs[job]? = some j ∧ j.activity.isOver = true := by
  obtain ⟨j, hj, hheld⟩ := h
  refine ⟨j, hj, ?_⟩
  rcases over_or_still_of_next? hnext with hover | hstill
  · simpa [frontOver, hfront, isOver, hj] using hover
  · have hrests : ¬ (j.activity.isWaiting = true ∧ s.clock < j.wakeAt ∧ job ∈ s.parked) := by
      rintro ⟨hwaits, hearly, _⟩
      have hmem : j ∈ s.jobs := List.mem_of_getElem? hj
      have hpast := hstill.deadlines j.wakeAt (List.mem_append_right _ (List.mem_map.mpr
        ⟨j, List.mem_filter.mpr ⟨hmem, hwaits⟩, rfl⟩))
      exact Nat.not_lt.mpr hpast hearly
    simpa [hstill.queue, hstill.entrance, hstill.gaveWay, hrests] using hheld

/-- A job that the host waits for comes to its end. -/
theorem attend_awaiting_over (h : s.JobHeld job) :
    ∃ j, (s.attend (.awaiting job)).jobs[job]? = some j ∧ j.activity.isOver = true := by
  let started : Session σ :=
    { s with front := .awaiting job, frontDue := true, frontGaveWay := false, round := 0 }
  have hstart : started.JobHeld job := h.of_kept ⟨rfl, rfl, id, id, id, id⟩
  have hheld : (s.attend (.awaiting job)).JobHeld job ∧
      (s.attend (.awaiting job)).front = .awaiting job :=
    settle_induction (P := fun s => s.JobHeld job ∧ s.front = .awaiting job)
      (fun _ _ hmoves h => ⟨h.1.moves hmoves, awaiting_moves h.2 hmoves⟩) _ ⟨hstart, rfl⟩
  exact hheld.1.over hheld.2 (next?_settle _)

end Jobs

end Session

end Flowchart
