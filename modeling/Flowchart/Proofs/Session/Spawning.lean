import Flowchart.Proofs.Run.Whole
import Flowchart.Proofs.Session.Resting
import Flowchart.Proofs.Session.Runs
import Flowchart.Script

/-! Runs that are spawned and awaited, and runs that the host carries out itself. Beside nobody, both
are the run alone. -/
namespace Flowchart

theorem Activity.alone_of_isOver {σ ω α : Type} {a : Activity σ ω α} (h : a.isOver = true)
    (stage : Stage σ ω) : a.alone stage = (a.result?, stage) := by
  cases a with
  | done | crash => rfl
  | get | set | emit | fire | poll | wait => cases h

namespace Session

variable {σ : Type} {s t : Session σ}

def Idle (s : Session σ) : Prop := ∀ j ∈ s.jobs, j.activity.isOver = true

section Solo

/-- One activity has something left to do at most, and this is how it ends if it is left alone. -/
structure Solo (s : Session σ) (i : Nat) (end_ : Option Outcome × RunStage σ) : Prop where
  here : ∃ a, s.activities[i]? = some a ∧ a.alone s.stage = end_
  others : ∀ (k : Nat) (a : RunActivity σ Outcome), s.activities[k]? = some a → k ≠ i →
    a.isOver = true

variable {i : Nat} {end_ : Option Outcome × RunStage σ}

theorem Solo.of_looks (h : s.Solo i end_) (hlooks : s.Looks t) : t.Solo i end_ := by
  obtain ⟨a, ha, hend⟩ := h.here
  cases hlooks with
  | rests stage activities _ =>
    constructor
    case here => exact ⟨a, activities ▸ ha, stage ▸ hend⟩
    case others => exact activities ▸ h.others
  | @goesOn k b timeIsUp p here goes stage activities _ =>
    have hk : k = i := by
      by_contra hne
      rw [Activity.look?_of_isOver (h.others k b here hne)] at goes
      cases goes
    subst hk
    cases here.symm.trans ha
    have hlt := (List.getElem?_eq_some_iff.mp here).1
    constructor
    case here =>
      refine ⟨p.rest, ?_, ?_⟩
      · rw [activities, List.getElem?_set_self hlt]
      · rw [stage, Activity.alone_look? goes, hend]
    case others =>
      intro j c hc hne
      rw [activities, List.getElem?_set_ne hne.symm] at hc
      exact h.others j c hc hne

theorem Solo.settle (h : s.Solo i end_) : s.settle.Solo i end_ := by
  have hlooks := s.looks_settle
  generalize s.settle = t at hlooks
  induction hlooks with
  | refl => exact h
  | tail _ hnext ih => exact ih.of_looks hnext

theorem Solo.ended (h : s.Solo i end_) {a : RunActivity σ Outcome} (ha : s.activities[i]? = some a)
    (hover : a.isOver = true) : end_ = (a.result?, s.stage) := by
  obtain ⟨b, hb, hend⟩ := h.here
  cases hb.symm.trans ha
  rw [← hend, Activity.alone_of_isOver hover]

end Solo

/-- What an idle session carries out ends as it does alone. -/
theorem Idle.carryOut_eq (h : s.Idle) (a : RunActivity σ Outcome) :
    ((s.carryOut a).1, (s.carryOut a).2.stage) = a.alone s.stage := by
  let acting : Session σ := { s with front := .acting a (s.clock + a.delay), frontDue := true,
                                     frontGaveWay := false, round := 0 }
  have hsolo : acting.Solo 0 (a.alone s.stage) := by
    constructor
    case here => exact ⟨a, rfl, rfl⟩
    case others =>
      intro k b hb hne
      obtain ⟨k, rfl⟩ := Nat.exists_eq_succ_of_ne_zero hne
      obtain ⟨j, hj, rfl⟩ : ∃ j, s.jobs[k]? = some j ∧ j.activity = b := by
        simpa [activities, acting] using hb
      exact h j (List.mem_of_getElem? hj)
  obtain ⟨b, wakeAt, hfront, hover⟩ := s.attend_acting_over a (s.clock + a.delay)
  have hb : (s.attend (.acting a (s.clock + a.delay))).activities[0]? = some b := by
    simp [activities, hfront]
  have hended := hsolo.settle.ended hb hover
  rw [hended, carryOut, hfront]
  rfl

theorem stands_of_letIn {jobs : List Nat} {job : Nat} (h : job ∈ jobs) :
    job ∈ (s.letIn jobs).queue ∨ job ∈ (s.letIn jobs).entrance := by
  have habsent : job ∈ s.absent jobs ∨ job ∈ s.queue ∨ job ∈ s.entrance := by
    by_cases hq : job ∈ s.queue <;> by_cases he : job ∈ s.entrance <;> simp [absent, h, hq, he]
  unfold letIn
  split
  · next hnone =>
    rw [hnone] at habsent
    exact habsent.resolve_left List.not_mem_nil
  · rcases habsent with hnew | hq | he
    · exact .inr (List.mem_append_right _ hnew)
    · exact .inl hq
    · exact .inr (List.mem_append_left _ he)

def brokenOff : Outcome := .error (.lost "the run broke off")

theorem Idle.await_launch_eq (h : s.Idle) (c : Compiled σ) :
    ((s.launch c).2.await (s.launch c).1).1 =
        ((c.execute s.nextSignal).alone s.stage).1.getD brokenOff ∧
      ((s.launch c).2.await (s.launch c).1).2.stage = ((c.execute s.nextSignal).alone s.stage).2 := by
  let launched := (s.launch c).2
  let job := (s.launch c).1
  have hplaces : s.Places launched (job + 1) (c.execute s.nextSignal) :=
    s.length_activities ▸ s.launch_places c
  obtain ⟨j, hj, hactivity⟩ : ∃ j, launched.jobs[job]? = some j ∧
      j.activity = c.execute s.nextSignal := by
    simpa [activities] using hplaces.here
  have hheld : launched.JobHeld job :=
    ⟨j, hj, .inr (.inl (stands_of_letIn (List.mem_singleton.mpr rfl)))⟩
  let awaiting : Session σ := { launched with front := .awaiting job, frontDue := true,
                                              frontGaveWay := false, round := 0 }
  have hsolo : awaiting.Solo (job + 1) ((c.execute s.nextSignal).alone s.stage) := by
    constructor
    case here =>
      refine ⟨c.execute s.nextSignal, by simp [activities, awaiting, hj, hactivity], ?_⟩
      exact congrArg (c.execute s.nextSignal).alone hplaces.stage
    case others =>
      intro k b hb hne
      cases k with
      | zero =>
        cases hb
        rfl
      | succ k =>
        have hsame := (hplaces.others (k + 1) hne).symm.trans hb
        obtain ⟨j, hj, rfl⟩ : ∃ j, s.jobs[k]? = some j ∧ j.activity = b := by
          simpa [activities] using hsame
        exact h j (List.mem_of_getElem? hj)
  obtain ⟨j', hj', hover⟩ := attend_awaiting_over hheld
  have hb : (launched.attend (.awaiting job)).activities[job + 1]? = some j'.activity := by
    simp [activities, hj']
  have hended := hsolo.settle.ended hb hover
  rw [hended]
  refine ⟨?_, rfl⟩
  change (launched.attend (.awaiting job)).outcome job = _
  rw [outcome, hj']
  cases hresult : j'.activity.result? with
  | none => simp [hresult, brokenOff]
  | some o => simp [hresult]

section Start

theorem Idle.withStage (h : s.Idle) (stage : RunStage σ) : (s.withStage stage).Idle := by
  rw [Idle, (s.withStage_jobs stage).1]
  exact h

theorem withHostStage_eq (s : Session σ) (stage : RunStage σ) :
    (s.withHostStage stage).stage = stage ∧ (s.withHostStage stage).jobs = s.jobs ∧
      (s.withHostStage stage).nextSignal = s.nextSignal := by
  unfold withHostStage letIn
  split <;> exact ⟨rfl, rfl, rfl⟩

/-- A tree is compiled first, and then spawned if that is possible. -/
theorem start_eq (s : Session σ) (e : Engine) (tree : TokenTree (Token σ)) :
    s.start e tree = match e.compile tree s.stage with
      | (.error f, stage) => (.error f, s.withHostStage stage)
      | (.ok c, stage) =>
        (.ok ((s.withHostStage stage).launch c).1, ((s.withHostStage stage).launch c).2) := by
  rcases hcompile : e.compile tree s.stage with ⟨_ | _, _⟩ <;> simp [start, compile, hcompile]

theorem run_newSignal_eq (s : Session σ) (e : Engine) (tree : TokenTree (Token σ)) :
    s.newSignal.2.run e tree s.nextSignal = match e.compile tree s.stage with
      | (.error f, stage) => (some (.error f), s.newSignal.2.withStage stage)
      | (.ok c, stage) => (s.newSignal.2.withStage stage).carryOut (c.execute s.nextSignal) := by
  rcases hcompile : e.compile tree s.stage with ⟨_ | _, _⟩ <;> simp [run, under, newSignal, hcompile]

/-- A run that is spawned and awaited is the run that the host carries out
itself, under a signal of its own. -/
structure SpawnsInPlace (s : Session σ) (e : Engine) (tree : TokenTree (Token σ))
    (inPlace : Option Outcome × Session σ) : Prop where
  refused : ∀ f s', s.start e tree = (.error f, s') →
    inPlace.1 = some (.error f) ∧ inPlace.2.stage = s'.stage
  /-- The host is told the same, of a run that broke off at least that, and
  the stage is the same. -/
  awaited : ∀ job s', s.start e tree = (.ok job, s') →
    (s'.await job).1 = inPlace.1.getD brokenOff ∧ (s'.await job).2.stage = inPlace.2.stage
  /-- No run breaks off if no unit does. -/
  ends : tree.Whole → ∃ told, inPlace.1 = some told

/-- In an idle session a run is the same spawned and in place. -/
theorem spawns_in_place (h : s.Idle) (e : Engine) (tree : TokenTree (Token σ)) :
    s.SpawnsInPlace e tree (s.newSignal.2.run e tree s.nextSignal) := by
  have hrun := s.run_newSignal_eq e tree
  have hstart := s.start_eq e tree
  rcases hcompile : e.compile tree s.stage with ⟨f | c, stage⟩
  · rw [hcompile] at hrun hstart
    rw [hrun]
    constructor
    case refused =>
      intro f' s' h
      cases hstart.symm.trans h
      exact ⟨rfl, (withStage_stage _ stage).trans (s.withHostStage_eq stage).1.symm⟩
    case awaited =>
      intro job s' h
      cases hstart.symm.trans h
    case ends => exact fun _ => ⟨_, rfl⟩
  · rw [hcompile] at hrun hstart
    let compiled := s.withHostStage stage
    obtain ⟨hstage, hjobs, hsignal⟩ := s.withHostStage_eq stage
    have hcarried := (Idle.withStage (s := s.newSignal.2) h stage).carryOut_eq (c.execute s.nextSignal)
    rw [withStage_stage] at hcarried
    have hidle : compiled.Idle := by
      rw [Idle, hjobs]
      exact h
    have hlaunched := hidle.await_launch_eq c
    rw [hsignal, hstage, ← hcarried] at hlaunched
    rw [hrun]
    constructor
    case refused =>
      intro f s' h
      cases hstart.symm.trans h
    case awaited =>
      intro job s' h
      cases hstart.symm.trans h
      exact hlaunched
    case ends =>
      intro hwhole
      obtain ⟨told, htold⟩ := (hwhole.execute hcompile s.nextSignal).exists_alone stage
      exact ⟨told, (congrArg Prod.fst hcarried).trans htold⟩

end Start

section Naps

def rested : Session Desk :=
  { new {} with nextSignal := 1, clock := 7, jobs := [.of 0 (.done (.ok ())) 0] }

/-- A tree of one token, which leaves a unit that waits, and one that stops
waiting when its run is stopped. -/
def napping : TokenTree (Token Desk) :=
  .push {} (Script.token "token" [.push "sleep" [.sleep 5] false, .push "delay" [.delay 3] false])

theorem whole_napping : napping.Whole := by
  intro slot hslot
  obtain rfl : slot = _ := by simpa [napping, TokenTree.push] using hslot
  have hunit : ∀ label acts, (∀ signal, (Act.perform signal acts).Whole) →
      (Act.unit label acts).Whole := by
    intro label acts hacts signal fired
    cases fired with
    | true => exact True.intro
    | false => exact fun _ => hacts signal
  have hsleep : (Act.unit "sleep" [.sleep 5]).Whole := hunit _ _ fun _ _ => True.intro
  have hdelay : (Act.unit "delay" [.delay 3]).Whole := by
    refine hunit _ _ fun _ fired => ?_
    cases fired <;> exact True.intro
  exact fun _ _ => ⟨hsleep, fun _ => ⟨hdelay, True.intro⟩⟩

/-- A run whose units wait is the same spawned, while the clock moves on, and in place. -/
theorem napping_in_place : rested.Idle ∧ napping.Whole ∧
    rested.SpawnsInPlace {} napping (rested.newSignal.2.run {} napping rested.nextSignal) := by
  have hidle : rested.Idle := by simp [Idle, rested, Job.of, Activity.isOver]
  exact ⟨hidle, whole_napping, spawns_in_place hidle {} napping⟩

end Naps

end Session

end Flowchart
