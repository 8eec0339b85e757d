import Mathlib.Logic.Function.Basic
import Flowchart.Session.Host
import Flowchart.Proofs.Run.Pool
import Flowchart.Proofs.Session.Looks

/-! The runs of a session go on side by side, as those of a pool do. -/
namespace Flowchart

variable {σ : Type}

namespace Activity

variable {ω α : Type}

def Mute : Activity σ ω α → Prop
  | done _ | crash => True
  | get _ | set .. | emit .. => False
  | fire _ next => next.Mute
  | poll _ next => ∀ fired, (next fired).Mute
  | wait _ _ next => ∀ cut, (next cut).Mute

theorem Stretch.of_mute {a rest : Activity σ ω α} {stage stage' : Stage σ ω} {items : List ω}
    (h : Stretch a stage items rest stage') (ha : a.Mute) :
    rest.Mute ∧ stage'.state = stage.state ∧ stage'.items = stage.items := by
  induction h with
  | stop => exact ⟨ha, rfl, rfl⟩
  | get | set | emit => cases ha
  | fire _ ih => exact ih ha
  | poll _ ih | wait _ ih => exact ih (ha _)

end Activity

namespace Engine

variable (e : Engine) (t : TokenTree (Token σ)) (stage : RunStage σ)

theorem plan_reports (strategy : Strategy) : (e.plan strategy t stage).2.items = stage.items ∧
    (e.plan strategy t stage).2.state.runsBegun = stage.state.runsBegun := by
  unfold plan
  split
  · exact ⟨rfl, rfl⟩
  · dsimp only
    split <;> exact ⟨rfl, rfl⟩

theorem compile_reports : (e.compile t stage).2.items = stage.items ∧
    (e.compile t stage).2.state.runsBegun = stage.state.runsBegun := by
  unfold compile
  split
  · exact ⟨rfl, rfl⟩
  · exact e.plan_reports t stage _

end Engine

namespace Session

/-- The activities of a session are runs of a pool, by the seats they have, or mute. -/
structure Carries (s : Session σ) (p : Pool σ) (seat : Nat → Option Nat) : Prop where
  stage : p.stage = s.stage
  mute : ∀ (i : Nat) (a : RunActivity σ Outcome), s.activities[i]? = some a → seat i = none → a.Mute
  seated : ∀ i k, seat i = some k →
    ∃ run, p.runs[k]? = some run ∧ s.activities[i]? = some run.rest
  alone : ∀ i j k, seat i = some k → seat j = some k → i = j

/-- One activity of a session gives its place to another, or comes last. -/
structure Places (s t : Session σ) (i : Nat) (a : RunActivity σ Outcome) : Prop where
  stage : t.stage = s.stage
  here : t.activities[i]? = some a
  others : ∀ j, j ≠ i → t.activities[j]? = s.activities[j]?

theorem length_activities (s : Session σ) : s.activities.length = s.jobs.length + 1 := by
  simp [activities]

theorem places_of_append {s t : Session σ} {a : RunActivity σ Outcome} (stage : t.stage = s.stage)
    (activities : t.activities = s.activities ++ [a]) : s.Places t s.activities.length a where
  stage := stage
  here := by rw [activities, List.getElem?_concat_length]
  others j hj := by
    rw [activities]
    rcases Nat.lt_or_gt_of_ne hj with hlt | hgt
    · exact List.getElem?_append_left hlt
    · have hle : (s.activities ++ [a]).length ≤ j := by
        rw [List.length_append]
        exact hgt
      rw [List.getElem?_eq_none hle, List.getElem?_eq_none hgt.le]

theorem places_of_set {s t : Session σ} {i : Nat} {a b : RunActivity σ Outcome}
    (stage : t.stage = s.stage) (was : s.activities[i]? = some b)
    (activities : t.activities = s.activities.set i a) : s.Places t i a where
  stage := stage
  here := by
    rw [activities]
    exact List.getElem?_set_self (List.getElem?_eq_some_iff.mp was).1
  others j hj := by
    rw [activities]
    exact List.getElem?_set_ne (Ne.symm hj)

namespace Carries

variable {s t : Session σ} {p : Pool σ} {seat : Nat → Option Nat} {i : Nat}
  {a : RunActivity σ Outcome}

theorem new (host : σ) : (Session.new host).Carries { stage := { state := { host } } } fun _ => none where
  stage := rfl
  mute i a here _ := by
    cases i with
    | zero =>
      cases here
      exact True.intro
    | succ i => simp [activities, Session.new] at here
  seated _ _ h := by cases h
  alone _ _ _ h := by cases h

theorem seat_eq_none (h : s.Carries p seat) (hi : s.activities.length ≤ i) : seat i = none := by
  cases hseat : seat i with
  | none => rfl
  | some k =>
    obtain ⟨run, _, hrest⟩ := h.seated i k hseat
    rw [List.getElem?_eq_none hi] at hrest
    cases hrest

/-- An activity gives its place to one that is mute or a new run. -/
theorem put (h : s.Carries p seat) {q : Pool σ} (stage : q.stage = p.stage)
    (kept : ∀ (k : Nat) (run : Spawned σ), p.runs[k]? = some run → q.runs[k]? = some run)
    (placed : s.Places t i a) {place : Option Nat} (mute : place = none → a.Mute)
    (new : ∀ k, place = some k → p.runs[k]? = none ∧ ∃ run, q.runs[k]? = some run ∧ run.rest = a) :
    t.Carries q (Function.update seat i place) where
  stage := stage.trans (h.stage.trans placed.stage.symm)
  mute j b hb hj := by
    by_cases hji : j = i
    · subst hji
      rw [Function.update_self] at hj
      obtain rfl := Option.some.inj (placed.here.symm.trans hb)
      exact mute hj
    · rw [Function.update_of_ne hji] at hj
      exact h.mute j b (placed.others j hji ▸ hb) hj
  seated j k hk := by
    by_cases hji : j = i
    · subst hji
      rw [Function.update_self] at hk
      obtain ⟨_, run, hrun, rfl⟩ := new k hk
      exact ⟨run, hrun, placed.here⟩
    · rw [Function.update_of_ne hji] at hk
      obtain ⟨run, hrun, hrest⟩ := h.seated j k hk
      exact ⟨run, kept k run hrun, (placed.others j hji).trans hrest⟩
  alone j j' k hj hj' := by
    -- A run that has a seat is no new one.
    have hold : ∀ {j}, seat j = some k → place ≠ some k := by
      intro j hj hplace
      obtain ⟨run, hrun, _⟩ := h.seated j k hj
      rw [(new k hplace).1] at hrun
      cases hrun
    by_cases hji : j = i <;> by_cases hji' : j' = i
    · rw [hji, hji']
    · rw [hji, Function.update_self] at hj
      rw [Function.update_of_ne hji'] at hj'
      exact absurd hj (hold hj')
    · rw [hji', Function.update_self] at hj'
      rw [Function.update_of_ne hji] at hj
      exact absurd hj' (hold hj)
    · rw [Function.update_of_ne hji] at hj
      rw [Function.update_of_ne hji'] at hj'
      exact h.alone j j' k hj hj'

theorem put_mute (h : s.Carries p seat) (placed : s.Places t i a) (ha : a.Mute) :
    t.Carries p (Function.update seat i none) :=
  h.put rfl (fun _ _ hrun => hrun) placed (fun _ => ha) nofun

/-- Another mute activity leaves the seats as they were. -/
theorem put_beside (h : s.Carries p seat) (placed : s.Places t i a) (ha : a.Mute)
    (hseat : seat i = none) : t.Carries p seat := by
  have hput := h.put_mute placed ha
  rwa [← hseat, Function.update_eq_self] at hput

theorem put_run (h : s.Carries p seat) {c : Compiled σ} {signal : Signal}
    (placed : s.Places t i (c.execute signal)) :
    t.Carries (p.spawn c signal) (Function.update seat i (some p.runs.length)) := by
  refine h.put (q := p.spawn c signal) rfl ?_ placed ?_ ?_
  · intro k run hrun
    exact (List.getElem?_append_left (List.getElem?_eq_some_iff.mp hrun).1).trans hrun
  · nofun
  · intro k hk
    cases hk
    exact ⟨List.getElem?_eq_none (Nat.le_refl _), _, List.getElem?_concat_length, rfl⟩

theorem goOn (h : s.Carries p seat) {k : Nat} {run : Spawned σ} (hseat : seat i = some k)
    (hrun : p.runs[k]? = some run) (items : List Report)
    (placed : { s with stage := t.stage }.Places t i a) :
    t.Carries { stage := t.stage
                runs := p.runs.set k { run with rest := a, puts := run.puts ++ items } } seat where
  stage := rfl
  mute j b hb hj := by
    have hne : j ≠ i := by
      rintro rfl
      rw [hseat] at hj
      cases hj
    exact h.mute j b ((placed.others j hne).symm.trans hb) hj
  seated j k' hk' := by
    by_cases hj : j = i
    · subst hj
      obtain rfl := Option.some.inj (hseat.symm.trans hk')
      exact ⟨_, List.getElem?_set_self (List.getElem?_eq_some_iff.mp hrun).1, placed.here⟩
    · obtain ⟨run', hrun', hrest⟩ := h.seated j k' hk'
      refine ⟨run', ?_, (placed.others j hj).trans hrest⟩
      rw [List.getElem?_set_ne]
      · exact hrun'
      · rintro rfl
        exact hj (h.alone j i k hk' hseat)
  alone := h.alone

theorem host (h : s.Carries p seat) (activities : t.activities = s.activities) :
    t.Carries { p with stage := t.stage } seat where
  stage := rfl
  mute := activities ▸ h.mute
  seated := activities ▸ h.seated
  alone := h.alone

end Carries

theorem carryOut_eq_attend (s : Session σ) (a : RunActivity σ Outcome) :
    (s.carryOut a).2 = s.attend (.acting a (s.clock + a.delay)) := by
  unfold carryOut
  dsimp only
  split <;> rfl

/-- The runs of a session have gone on as in a pool, and jobs have kept their seats. -/
def Follows (s t : Session σ) : Prop :=
  ∀ p seat, s.Carries p seat → ∃ q seat', p.Reaches q ∧ t.Carries q seat' ∧
    s.activities.length ≤ t.activities.length ∧
    ∀ i, i ≠ 0 → i < s.activities.length → seat' i = seat i

namespace Follows

variable {s t u : Session σ}

theorem refl (s : Session σ) : s.Follows s :=
  fun p seat h => ⟨p, seat, .refl, h, Nat.le_refl _, fun _ _ _ => rfl⟩

theorem trans (h : s.Follows t) (h' : t.Follows u) : s.Follows u := by
  intro p seat hs
  obtain ⟨q, seat', hpq, ht, hle, hkept⟩ := h p seat hs
  obtain ⟨r, seat'', hqr, hu, hle', hkept'⟩ := h' q seat' ht
  refine ⟨r, seat'', hpq.trans hqr, hu, hle.trans hle', fun i hi hlt => ?_⟩
  rw [hkept' i hi (hlt.trans_le hle), hkept i hi hlt]

theorem of_still (reports : t.stage.items = s.stage.items)
    (count : t.stage.state.runsBegun = s.stage.state.runsBegun)
    (activities : t.activities = s.activities) : s.Follows t := by
  intro p seat h
  refine ⟨{ p with stage := t.stage }, seat, .single (.host ?_ ?_), h.host activities,
    activities ▸ Nat.le_refl _, fun _ _ _ => rfl⟩
  · rw [h.stage, reports]
  · rw [h.stage, count]

theorem of_stretch {i : Nat} {a rest : RunActivity σ Outcome} {items : List Report}
    (here : s.activities[i]? = some a) (goes : a.Stretch s.stage items rest t.stage)
    (activities : t.activities = s.activities.set i rest) : s.Follows t := by
  intro p seat h
  have hplaced : { s with stage := t.stage }.Places t i rest := places_of_set rfl here activities
  have hlength : s.activities.length ≤ t.activities.length := by rw [activities, List.length_set]
  cases hseat : seat i with
  | none =>
    obtain ⟨hrest, hstate, hitems⟩ := goes.of_mute (h.mute i a here hseat)
    have hmoved : ({ s with stage := t.stage } : Session σ).Carries { p with stage := t.stage } seat :=
      h.host rfl
    refine ⟨_, seat, .single (.host ?_ ?_), hmoved.put_beside hplaced hrest hseat, hlength,
      fun _ _ _ => rfl⟩
    · rw [h.stage, hitems]
    · rw [h.stage, hstate]
  | some k =>
    obtain ⟨run, hrun, hrest⟩ := h.seated i k hseat
    obtain rfl := Option.some.inj (here.symm.trans hrest)
    exact ⟨_, seat, .single (.goOn hrun (h.stage ▸ goes)), h.goOn hseat hrun items hplaced, hlength,
      fun _ _ _ => rfl⟩

theorem of_looks (h : s.Looks t) : s.Follows t := by
  cases h with
  | rests stage activities _ => exact of_still (stage ▸ rfl) (stage ▸ rfl) activities
  | goesOn here goes stage activities _ =>
    obtain ⟨items, hstretch⟩ := Activity.stretch_look? goes
    exact of_stretch here (stage ▸ hstretch) activities

theorem settle (s : Session σ) : s.Follows s.settle := by
  have hlooks := s.looks_settle
  generalize s.settle = t at hlooks
  induction hlooks with
  | refl => exact .refl s
  | tail _ h ih => exact ih.trans (.of_looks h)

theorem attend {front : Front σ}
    (begun : ∀ a wakeAt, front = .acting a wakeAt → a.Mute ∨ ∃ c signal, a = Compiled.execute c signal)
    (s : Session σ) : s.Follows (s.attend front) := by
  refine Follows.trans ?_ (settle _)
  intro p seat h
  have hkept : ∀ v i, i ≠ 0 → i < s.activities.length → Function.update seat 0 v i = seat i :=
    fun v i hi _ => Function.update_of_ne hi ..
  cases front with
  | awaiting job =>
    have hplaced : s.Places
        { s with front := .awaiting job, frontDue := true, frontGaveWay := false, round := 0 } 0 .crash :=
      places_of_set rfl rfl rfl
    exact ⟨p, _, .refl, h.put_mute hplaced True.intro, Nat.le_refl _, hkept _⟩
  | acting a wakeAt =>
    have hplaced : s.Places
        { s with front := .acting a wakeAt, frontDue := true, frontGaveWay := false, round := 0 } 0 a :=
      places_of_set rfl rfl rfl
    rcases begun a wakeAt rfl with ha | ⟨c, signal, rfl⟩
    · exact ⟨p, _, .refl, h.put_mute hplaced ha, Nat.le_refl _, hkept _⟩
    · exact ⟨_, _, .single (.spawn p c signal), h.put_run hplaced, Nat.le_refl _, hkept _⟩

theorem carryOut {a : RunActivity σ Outcome} (ha : a.Mute ∨ ∃ c signal, a = Compiled.execute c signal)
    (s : Session σ) : s.Follows (s.carryOut a).2 := by
  rw [carryOut_eq_attend]
  refine attend ?_ s
  rintro _ _ ⟨⟩
  exact ha

end Follows

theorem dismiss_eq (s : Session σ) (job : Nat) :
    (s.dismiss job).stage = s.stage ∧ ((s.dismiss job).activities = s.activities ∨
      ∃ a, s.activities[job + 1]? = some a ∧
        (s.dismiss job).activities = s.activities.set (job + 1) .crash) := by
  unfold dismiss
  split
  · exact ⟨rfl, .inl rfl⟩
  · next j hj =>
    split
    · exact ⟨rfl, .inl rfl⟩
    · refine ⟨rfl, .inr ⟨j.activity, ?_, ?_⟩⟩
      · simp [activities, hj]
      · simp [activities, enqueue, List.map_set]

theorem addJob_activities (s : Session σ) (signal : Signal) (a : RunActivity σ Outcome) :
    (s.addJob signal a).2.activities = s.activities ++ [a] := by
  simp [activities, addJob, Job.of]

theorem letIn_still (s : Session σ) (jobs : List Nat) :
    (s.letIn jobs).stage = s.stage ∧ (s.letIn jobs).activities = s.activities := by
  unfold letIn
  split <;> exact ⟨rfl, rfl⟩

theorem launch_places (s : Session σ) (c : Compiled σ) :
    s.Places (s.launch c).2 s.activities.length (c.execute s.nextSignal) := by
  let entering : Session σ := (s.newSignal.2.addJob s.nextSignal (c.execute s.nextSignal)).2
  obtain ⟨hstage, hactivities⟩ := entering.letIn_still [s.jobs.length]
  exact places_of_append hstage (hactivities.trans (s.newSignal.2.addJob_activities _ _))

/-- The host starts runs and stops them, or does something else without reporting. -/
inductive Acts (s : Session σ) : Session σ → Prop
  | change (f : σ → σ) : Acts s (s.change f)
  | newSignal : Acts s s.newSignal.2
  | fire (signal : Signal) : Acts s (s.fire signal)
  | fill {α : Type} (f : Filling σ α) (acc : Accumulator σ) : Acts s (s.fill f acc).2.2
  | compile (e : Engine) (t : TokenTree (Token σ)) : Acts s (s.compile e t).2
  | plan (e : Engine) (strategy : Strategy) (t : TokenTree (Token σ)) :
      Acts s (s.plan e strategy t).2
  | launch (c : Compiled σ) : Acts s (s.launch c).2
  | perform (c : Compiled σ) (signal : Signal) (alarm : Option Alarm) :
      Acts s (s.perform (c.execute signal) alarm).2
  | run (e : Engine) (t : TokenTree (Token σ)) (signal : Signal) (alarm : Option Alarm) :
      Acts s (s.run e t signal alarm).2
  | pass (ms : Nat) : Acts s (s.pass ms)
  | await (job : Nat) (alarm : Option Alarm) : Acts s (s.await job alarm).2

namespace Follows

variable {s t : Session σ}

/-- An alarm is mute, and is dismissed in the end. -/
theorem under {α : Type} (alarm : Option Alarm) {f : Session σ → α × Session σ}
    (hf : ∀ s : Session σ, s.Follows (f s).2) (s : Session σ) : s.Follows (s.under alarm f).2 := by
  cases alarm with
  | none => exact hf s
  | some alarm =>
    intro p seat h
    let ring : RunActivity σ Outcome := .wait alarm.ms none fun _ => .fire alarm.signal (.done (.ok ()))
    let rung : Session σ := (s.addJob alarm.signal ring).2.enqueue [s.jobs.length]
    have happ : rung.activities = s.activities ++ [ring] := s.addJob_activities _ _
    have hlength : s.activities.length < rung.activities.length := by
      rw [happ, List.length_append]
      exact Nat.lt_succ_self _
    have hnone : seat s.activities.length = none := h.seat_eq_none (Nat.le_refl _)
    have hrung : rung.Carries p seat :=
      h.put_beside (places_of_append rfl happ) (fun _ => True.intro) hnone
    obtain ⟨q, seat', hreach, hafter, hle, hkept⟩ := hf rung p seat hrung
    have hseat : seat' (s.jobs.length + 1) = none := by
      rw [← length_activities, hkept _ (by simp [activities]) hlength, hnone]
    change ∃ q seat', p.Reaches q ∧ ((f rung).2.dismiss s.jobs.length).Carries q seat' ∧
      s.activities.length ≤ ((f rung).2.dismiss s.jobs.length).activities.length ∧
      ∀ i, i ≠ 0 → i < s.activities.length → seat' i = seat i
    obtain ⟨hstage, hsame | ⟨a, here, hset⟩⟩ := (f rung).2.dismiss_eq s.jobs.length
    · have hdismissed := hafter.host hsame
      rw [hstage, ← hafter.stage] at hdismissed
      refine ⟨q, seat', hreach, hdismissed, ?_, fun i hi hlt => hkept i hi (by omega)⟩
      rw [hsame]
      omega
    · have hplaced := places_of_set hstage here hset
      refine ⟨q, seat', hreach, hafter.put_beside hplaced True.intro hseat, ?_,
        fun i hi hlt => hkept i hi (by omega)⟩
      rw [hset, List.length_set]
      omega

theorem host {stage : RunStage σ} (reports : stage.items = s.stage.items)
    (count : stage.state.runsBegun = s.stage.state.runsBegun) : s.Follows (s.withHostStage stage) := by
  obtain ⟨hstage, hactivities⟩ :=
    ({ s with stage } : Session σ).letIn_still (s.waiters (s.firedOn stage))
  refine of_still ?_ ?_ hactivities
  · exact (congrArg (·.items) hstage).trans reports
  · exact (congrArg (·.state.runsBegun) hstage).trans count

theorem launch (s : Session σ) (c : Compiled σ) : s.Follows (s.launch c).2 := by
  intro p seat h
  have hplaced := s.launch_places c
  refine ⟨_, _, .single (.spawn p c s.nextSignal), h.put_run hplaced, ?_, fun i _ hlt => ?_⟩
  · exact (List.getElem?_eq_some_iff.mp hplaced.here).1.le
  · exact Function.update_of_ne hlt.ne ..

theorem run (e : Engine) (t : TokenTree (Token σ)) (signal : Signal) (alarm : Option Alarm)
    (s : Session σ) : s.Follows (s.run e t signal alarm).2 := by
  refine under alarm (fun s => ?_) s
  have hreports := e.compile_reports t s.stage
  rcases hcompile : e.compile t s.stage with ⟨compiled, stage⟩
  rw [hcompile] at hreports
  have hcompiled : s.Follows (s.withStage stage) := by
    refine of_still ?_ ?_ (s.withStage_activities stage)
    · rw [withStage_stage, hreports.1]
    · rw [withStage_stage, hreports.2]
  cases compiled with
  | error f => exact hcompiled
  | ok c => exact hcompiled.trans (carryOut (.inr ⟨c, signal, rfl⟩) _)

theorem of_acts (h : s.Acts t) : s.Follows t := by
  cases h with
  | change f => exact of_still rfl rfl rfl
  | newSignal => exact of_still rfl rfl rfl
  | fire signal => exact host rfl rfl
  | fill f acc => exact host rfl rfl
  | compile e tree =>
    obtain ⟨hitems, hcount⟩ := e.compile_reports tree s.stage
    exact host hitems hcount
  | plan e strategy tree =>
    obtain ⟨hitems, hcount⟩ := e.plan_reports tree s.stage strategy
    exact host hitems hcount
  | launch c => exact launch s c
  | perform c signal alarm => exact under alarm (carryOut (.inr ⟨c, signal, rfl⟩)) s
  | run e tree signal alarm => exact run e tree signal alarm s
  | pass ms =>
    have hwait : (Activity.wait ms none fun _ => .done (.ok ()) : RunActivity σ Outcome).Mute :=
      fun _ => True.intro
    exact carryOut (.inl hwait) s
  | await job alarm =>
    have hawait : ∀ s : Session σ, s.Follows (s.attend (.awaiting job)) := attend nofun
    exact under alarm hawait s

theorem of_history (h : Relation.ReflTransGen Acts s t) : s.Follows t := by
  induction h with
  | refl => exact refl s
  | tail _ hact ih => exact ih.trans (of_acts hact)

end Follows

/-- A run that a host has launched has sent a trace when it is over, unless its plan was spent. -/
theorem launched_trace {host : σ} {s t : Session σ}
    (before : Relation.ReflTransGen Acts (Session.new host) s) (c : Compiled σ)
    (after : Relation.ReflTransGen Acts (s.launch c).2 t) {job : Job σ}
    (hjob : t.jobs[(s.launch c).1]? = some job) {outcome : Outcome}
    (hover : job.activity = .done outcome) :
    outcome = .error (.planConsumed c.label) ∨
      ∃ id, Trace id c ((t.stage.items.toList.filterMap (Report.sentTo? c.sink)).filter (·.run = id))
        outcome := by
  obtain ⟨p, seat, hp, hs, _⟩ := Follows.of_history before _ _ (.new host)
  have hplaced := s.launch_places c
  obtain ⟨q, seat', hq, ht, _, hkept⟩ := Follows.of_history after _ _ (hs.put_run hplaced)
  have hseat : seat' s.activities.length = some p.runs.length := by
    rw [hkept _ (by simp [activities]) (List.getElem?_eq_some_iff.mp hplaced.here).1,
      Function.update_self]
  obtain ⟨run, hrun, hrest⟩ := ht.seated _ _ hseat
  obtain ⟨run', hrun', hcompiled⟩ := hq.kept List.getElem?_concat_length
  obtain rfl := Option.some.inj (hrun.symm.trans hrun')
  have hdone : run.rest = .done outcome := by
    have hactivity : t.activities[s.jobs.length + 1]? = some job.activity := by
      simp [activities, show t.jobs[s.jobs.length]? = some job from hjob]
    rw [← length_activities, hrest, hover] at hactivity
    exact Option.some.inj hactivity
  obtain ⟨number, hsound⟩ := Pool.Sound.of_reaches (hp.trans (.head (.spawn p c s.nextSignal) hq))
  have hcompiled : run.compiled = c := hcompiled
  rw [← hcompiled, ← ht.stage]
  rcases hsound.traced hrun hdone with ⟨hrefused, _⟩ | ⟨id, hsent, htrace⟩
  · exact .inl hrefused
  · refine .inr ⟨id, ?_⟩
    rw [← hsent] at htrace
    exact htrace

end Session

end Flowchart
