import Flowchart.Proofs.Run.Spending

/-! Histories of a plan that is executed again and again: whichever execution is the first to begin
takes the units, however the executions go on among other runs. -/
namespace Flowchart

open Activity (Partway Puts Stretch)

variable {σ : Type} {p : Plan σ}

/-- The first while of an execution takes the units of its plan if nobody
has them, and is turned away otherwise. -/
theorem Plan.begins {signal : Signal} {items : List Report} {rest : RunActivity σ Outcome}
    {stage stage' : RunStage σ} (h : Stretch (p.execute signal) stage items rest stage') :
    p.id ∈ stage'.state.spent ∧ (∀ w, rest.Changes (World.SpentAlike p.id) w) ∧
      ((p.id ∈ stage.state.spent ∧ Partway p.refuse items rest) ∨
        p.id ∉ stage.state.spent ∧
          ∃ r : Reporter, r.sink = p.sink ∧ Partway (p.carryOut r signal) items rest) := by
  rw [execute_eq] at h
  have hlooks := h.of_get
  by_cases hspent : p.id ∈ stage.state.spent
  · have hcontains : stage.state.spent.contains p.id = true := by simpa using hspent
    simp only [hcontains, if_true] at hlooks
    obtain ⟨hstays, hrest⟩ := hlooks.spentAlike (p.changes_refuse _)
    exact ⟨hstays.mpr hspent, hrest, .inl ⟨hspent, hlooks.partway⟩⟩
  · have hcontains : stage.state.spent.contains p.id = false := by simpa using hspent
    simp only [hcontains, Bool.false_eq_true, if_false] at hlooks
    have htakes := hlooks.of_set.of_get.of_set
    obtain ⟨hstays, hrest⟩ := htakes.spentAlike (p.changes_carryOut _)
    exact ⟨hstays.mpr List.mem_cons_self, hrest, .inr ⟨hspent, _, rfl, htakes.partway⟩⟩

namespace Pool

/-- Runs of a plan that nobody has executed begin in this order, and the host spends no plan. -/
inductive History (p : Plan σ) : Pool σ → List Nat → Prop
  | new {w : World σ} (unspent : p.id ∉ w.spent) : History p { stage := { state := w } } []
  | spawn {q : Pool σ} {begun : List Nat} (h : History p q begun) (compiled : Compiled σ)
      (signal : Signal) (own : ∀ p', compiled = .plan p' → p'.id = p.id → p' = p) :
      History p (q.spawn compiled signal) begun
  | begins {q : Pool σ} {begun : List Nat} {i : Nat} {run : Spawned σ} {items : List Report}
      {rest : RunActivity σ Outcome} {stage : RunStage σ} (h : History p q begun)
      (here : q.runs[i]? = some run) (call : run.compiled = .plan p) (late : i ∉ begun)
      (goes : run.rest.Stretch q.stage items rest stage) :
      History p { stage, runs := q.runs.set i { run with rest, puts := run.puts ++ items } }
        (begun ++ [i])
  | goesOn {q : Pool σ} {begun : List Nat} {i : Nat} {run : Spawned σ} {items : List Report}
      {rest : RunActivity σ Outcome} {stage : RunStage σ} (h : History p q begun)
      (here : q.runs[i]? = some run) (early : run.compiled = .plan p → i ∈ begun)
      (goes : run.rest.Stretch q.stage items rest stage) :
      History p { stage, runs := q.runs.set i { run with rest, puts := run.puts ++ items } } begun
  | host {q : Pool σ} {begun : List Nat} {stage : RunStage σ} (h : History p q begun)
      (kept : p.id ∈ stage.state.spent ↔ p.id ∈ q.stage.state.spent) :
      History p { q with stage } begun

/-- The first run that began is on its way through the units of the plan,
the others are turned away. -/
structure Stands (p : Plan σ) (q : Pool σ) (begun : List Nat) : Prop where
  own : ∀ run ∈ q.runs, ∀ p', run.compiled = .plan p' → p'.id = p.id → p' = p
  spent : p.id ∈ q.stage.state.spent ↔ begun ≠ []
  nodup : begun.Nodup
  calls : ∀ i ∈ begun, ∃ run, q.runs[i]? = some run ∧ run.compiled = .plan p
  keeps : ∀ {i run}, q.runs[i]? = some run → (run.compiled = .plan p → i ∈ begun) →
    ∀ w, run.rest.Changes (World.SpentAlike p.id) w
  waits : ∀ {i run}, q.runs[i]? = some run → run.compiled = .plan p → i ∉ begun →
    run.rest = p.execute run.signal ∧ run.puts = []
  takes : ∀ {i run}, q.runs[i]? = some run → begun.head? = some i →
    ∃ r : Reporter, r.sink = p.sink ∧ Partway (p.carryOut r run.signal) run.puts run.rest
  refused : ∀ {i run}, q.runs[i]? = some run → i ∈ begun.tail → Partway p.refuse run.puts run.rest

variable {q : Pool σ} {begun : List Nat} {i : Nat} {run : Spawned σ} {items : List Report}
  {rest : RunActivity σ Outcome} {stage : RunStage σ}

namespace Stands

theorem new {w : World σ} (unspent : p.id ∉ w.spent) :
    Stands p { stage := { state := w } } [] where
  own _ h := by cases h
  spent := ⟨fun h => absurd h unspent, fun h => absurd rfl h⟩
  nodup := .nil
  calls := nofun
  keeps h := by simp at h
  waits h := by simp at h
  takes h := by simp at h
  refused h := by simp at h

theorem host (h : q.Stands p begun) (kept : p.id ∈ stage.state.spent ↔ p.id ∈ q.stage.state.spent) :
    Stands p { q with stage } begun where
  own := h.own
  spent := kept.trans h.spent
  nodup := h.nodup
  calls := h.calls
  keeps := h.keeps
  waits := h.waits
  takes := h.takes
  refused := h.refused

theorem lt_length (h : q.Stands p begun) (hi : i ∈ begun) : i < q.runs.length := by
  obtain ⟨run, here, _⟩ := h.calls i hi
  exact (List.getElem?_eq_some_iff.mp here).1

theorem spawn (h : q.Stands p begun) (compiled : Compiled σ) (signal : Signal)
    (own : ∀ p', compiled = .plan p' → p'.id = p.id → p' = p) :
    (q.spawn compiled signal).Stands p begun where
  own := by
    intro run hrun
    obtain ⟨j, hj⟩ := List.mem_iff_getElem?.mp hrun
    rcases getElem?_spawn_cases hj with hj | ⟨_, rfl⟩
    · exact h.own run (List.mem_of_getElem? hj)
    · exact own
  spent := h.spent
  nodup := h.nodup
  calls := by
    intro j hj
    obtain ⟨run, here, hcall⟩ := h.calls j hj
    exact ⟨run, (List.getElem?_append_left (h.lt_length hj)).trans here, hcall⟩
  keeps := by
    intro j run hj hbegun w
    rcases getElem?_spawn_cases hj with hj | ⟨hlate, rfl⟩
    · exact h.keeps hj hbegun w
    · -- One that was spawned now has not begun, so it is no execution of the plan.
      refine Compiled.changes_execute compiled (fun p' hp' hid => ?_) w
      have hsame := own p' hp' hid
      subst hsame
      have := h.lt_length (hbegun hp')
      omega
  waits := by
    intro j run hj hcall hlate
    rcases getElem?_spawn_cases hj with hj | ⟨_, rfl⟩
    · exact h.waits hj hcall hlate
    · refine ⟨?_, rfl⟩
      dsimp only at hcall ⊢
      rw [hcall]
      rfl
  takes := by
    intro j run hj hhead
    rcases getElem?_spawn_cases hj with hj | ⟨hlate, rfl⟩
    · exact h.takes hj hhead
    · have := h.lt_length (List.mem_of_head? hhead)
      omega
  refused := by
    intro j run hj htail
    rcases getElem?_spawn_cases hj with hj | ⟨hlate, rfl⟩
    · exact h.refused hj htail
    · have := h.lt_length (List.mem_of_mem_tail htail)
      omega

/-- A run goes on that has begun, or that is no execution of the plan. -/
theorem goesOn (h : q.Stands p begun) (here : q.runs[i]? = some run)
    (early : run.compiled = .plan p → i ∈ begun) (goes : run.rest.Stretch q.stage items rest stage) :
    Stands p { stage, runs := q.runs.set i { run with rest, puts := run.puts ++ items } } begun := by
  obtain ⟨hstays, hrest⟩ := goes.spentAlike (h.keeps here early _)
  constructor
  case own =>
    exact compiled_of_mem_set (P := fun c => ∀ p', c = .plan p' → p'.id = p.id → p' = p) here rfl h.own
  case spent => exact hstays.trans h.spent
  case nodup => exact h.nodup
  case calls =>
    intro j hj
    obtain ⟨other, hother, hcall⟩ := h.calls j hj
    obtain ⟨next, hnext, hsame⟩ :=
      exists_getElem?_set { run with rest, puts := run.puts ++ items } here rfl hother
    exact ⟨next, hnext, hsame.trans hcall⟩
  case keeps =>
    intro j other hj hbegun
    rcases getElem?_set_cases here hj with ⟨rfl, rfl⟩ | ⟨_, hj⟩
    · exact hrest
    · exact h.keeps hj hbegun
  case waits =>
    intro j other hj hcall hlate
    rcases getElem?_set_cases here hj with ⟨rfl, rfl⟩ | ⟨_, hj⟩
    · exact absurd (early hcall) hlate
    · exact h.waits hj hcall hlate
  case takes =>
    intro j other hj hhead
    rcases getElem?_set_cases here hj with ⟨rfl, rfl⟩ | ⟨_, hj⟩
    · obtain ⟨r, hsink, hpartway⟩ := h.takes here hhead
      exact ⟨r, hsink, hpartway.trans goes.partway⟩
    · exact h.takes hj hhead
  case refused =>
    intro j other hj htail
    rcases getElem?_set_cases here hj with ⟨rfl, rfl⟩ | ⟨_, hj⟩
    · exact (h.refused here htail).trans goes.partway
    · exact h.refused hj htail

theorem begins (h : q.Stands p begun) (here : q.runs[i]? = some run)
    (call : run.compiled = .plan p) (late : i ∉ begun)
    (goes : run.rest.Stretch q.stage items rest stage) :
    Stands p { stage, runs := q.runs.set i { run with rest, puts := run.puts ++ items } }
      (begun ++ [i]) := by
  obtain ⟨hexecute, hputs⟩ := h.waits here call late
  rw [hexecute] at goes
  obtain ⟨hspent, hrest, hbegins⟩ := Plan.begins goes
  have hpast : ∀ {j}, j ∈ begun ++ [i] → j ≠ i → j ∈ begun := by
    intro j hj hne
    exact (List.mem_append.mp hj).resolve_right fun h => hne (List.mem_singleton.mp h)
  constructor
  case own =>
    exact compiled_of_mem_set (P := fun c => ∀ p', c = .plan p' → p'.id = p.id → p' = p) here rfl h.own
  case spent => exact ⟨fun _ => by simp, fun _ => hspent⟩
  case nodup => exact List.nodup_append.mpr ⟨h.nodup, by simp, by
    rintro j hj _ hi rfl
    exact late (List.mem_singleton.mp hi ▸ hj)⟩
  case calls =>
    intro j hj
    obtain ⟨other, hother, hcall⟩ : ∃ other, q.runs[j]? = some other ∧ other.compiled = .plan p := by
      by_cases hij : j = i
      · exact ⟨run, hij ▸ here, call⟩
      · exact h.calls j (hpast hj hij)
    obtain ⟨next, hnext, hsame⟩ :=
      exists_getElem?_set { run with rest, puts := run.puts ++ items } here rfl hother
    exact ⟨next, hnext, hsame.trans hcall⟩
  case keeps =>
    intro j other hj hbegun
    rcases getElem?_set_cases here hj with ⟨rfl, rfl⟩ | ⟨hne, hj⟩
    · exact hrest
    · exact h.keeps hj fun hcall => hpast (hbegun hcall) hne
  case waits =>
    intro j other hj hcall hlate
    rcases getElem?_set_cases here hj with ⟨rfl, rfl⟩ | ⟨_, hj⟩
    · exact absurd (by simp) hlate
    · exact h.waits hj hcall fun hmem => hlate (List.mem_append_left _ hmem)
  case takes =>
    intro j other hj hhead
    cases begun with
    | nil =>
      obtain rfl : i = j := Option.some.inj hhead
      rcases getElem?_set_cases here hj with ⟨_, rfl⟩ | ⟨hne, _⟩
      · rcases hbegins with ⟨hearlier, _⟩ | ⟨_, r, hsink, hpartway⟩
        · exact absurd rfl (h.spent.mp hearlier)
        · exact ⟨r, hsink, by rwa [hputs]⟩
      · exact absurd rfl hne
    | cons k begun =>
      have hk : k = j := Option.some.inj hhead
      rcases getElem?_set_cases here hj with ⟨rfl, _⟩ | ⟨_, hj⟩
      · exact absurd (hk ▸ List.mem_cons_self) late
      · exact h.takes hj hhead
  case refused =>
    intro j other hj htail
    cases begun with
    | nil => cases htail
    | cons k begun =>
      rw [List.cons_append, List.tail_cons] at htail
      rcases getElem?_set_cases here hj with ⟨rfl, rfl⟩ | ⟨hne, hj⟩
      · rcases hbegins with ⟨_, hpartway⟩ | ⟨hunspent, _⟩
        · dsimp only
          rwa [hputs]
        · exact absurd (h.spent.mpr (by simp)) hunspent
      · refine h.refused hj ?_
        exact (List.mem_append.mp htail).resolve_right fun h => hne (List.mem_singleton.mp h)

end Stands

theorem History.stands (h : q.History p begun) : q.Stands p begun := by
  induction h with
  | new unspent => exact .new unspent
  | spawn _ compiled signal own ih => exact ih.spawn compiled signal own
  | begins _ here call late goes ih => exact ih.begins here call late goes
  | goesOn _ here early goes ih => exact ih.goesOn here early goes
  | host _ kept ih => exact ih.host kept

end Pool

namespace Plan

variable {signal : Signal} {stage : RunStage σ}

/-- A look at an execution that comes too late takes it to its end. -/
theorem look?_refuse (p : Plan σ) (timeIsUp : Bool) (stage : RunStage σ) :
    p.refuse.look? timeIsUp stage = some
      { rest := .done (.error (.planConsumed p.label)), patience := Activity.patience,
        stage := { stage with items := stage.items.push (.log p.refusal) } } := rfl

theorem look?_execute (h : p.id ∈ stage.state.spent) (timeIsUp : Bool) :
    (p.execute signal).look? timeIsUp stage = p.refuse.look? timeIsUp stage := by
  have hcontains : stage.state.spent.contains p.id = true := by simpa using h
  have hget : ∀ next : World σ → RunActivity σ Outcome, (Activity.get next).look? timeIsUp stage =
      some ((next stage.state).burst Activity.patience stage) := fun _ => rfl
  rw [execute_eq, hget, hcontains]
  rfl

theorem refuse_partway {items : List Report} {rest : RunActivity σ Outcome}
    (h : Partway p.refuse items rest) :
    (items = [] ∧ rest = p.refuse) ∨
      items = [.log p.refusal] ∧ rest = .done (.error (.planConsumed p.label)) := by
  rcases Partway.of_tell_bind h with hhere | ⟨more, hdone, rfl⟩
  · exact .inl hhere
  · obtain ⟨rfl, rfl⟩ := hdone.of_pure
    exact .inr ⟨rfl, rfl⟩

end Plan

def Compiled.planId? : Compiled σ → Option PlanId
  | plan p => some p.id
  | tour _ => none

/-- The labels of the units that a run has begun as an execution of a plan. -/
def Spawned.starts (id : PlanId) (run : Spawned σ) : List String :=
  if run.compiled.planId? = some id then run.sent.filterMap Event.startedUnit? else []

/-- The labels of the units of a plan that were begun, by all its executions together. -/
def Pool.starts (q : Pool σ) (id : PlanId) : List String := q.runs.flatMap (Spawned.starts id)

/-- If all runs but one have begun nothing of a plan, what was begun is what that one has begun. -/
theorem Pool.starts_eq {q : Pool σ} {id : PlanId} {i : Nat} {run : Spawned σ}
    (here : q.runs[i]? = some run)
    (h : ∀ j other, q.runs[j]? = some other → j ≠ i → other.starts id = []) :
    q.starts id = run.starts id := by
  obtain ⟨hlt, hrun⟩ := List.getElem?_eq_some_iff.mp here
  have hbefore : (q.runs.take i).flatMap (Spawned.starts id) = [] := by
    refine List.flatMap_eq_nil_iff.mpr fun other hother => ?_
    obtain ⟨j, hj, hget⟩ := List.mem_take_iff_getElem.mp hother
    exact h j other (List.getElem?_eq_some_iff.mpr ⟨by omega, hget⟩) (by omega)
  have hafter : (q.runs.drop (i + 1)).flatMap (Spawned.starts id) = [] := by
    refine List.flatMap_eq_nil_iff.mpr fun other hother => ?_
    obtain ⟨j, hj, hget⟩ := List.mem_drop_iff_getElem.mp hother
    exact h (i + 1 + j) other (List.getElem?_eq_some_iff.mpr ⟨by omega, hget⟩) (by omega)
  have hsplit : q.runs = q.runs.take i ++ run :: q.runs.drop (i + 1) := by
    rw [← hrun, List.getElem_cons_drop, List.take_append_drop]
  rw [starts, hsplit, List.flatMap_append, List.flatMap_cons, hbefore, hafter, List.append_nil]
  rfl

/-- A look at a run that is about to be turned away takes it to its end. -/
theorem Pool.lookAt_refused {q : Pool σ} {i : Nat} {run : Spawned σ} {timeIsUp : Bool}
    (here : q.runs[i]? = some run) (hputs : run.puts = [])
    (hlook : run.rest.look? timeIsUp q.stage = p.refuse.look? timeIsUp q.stage) :
    (q.lookAt i timeIsUp).runs[i]? = some
      { run with rest := .done (.error (.planConsumed p.label)), puts := [.log p.refusal] } := by
  have hlt : i < q.runs.length := (List.getElem?_eq_some_iff.mp here).1
  rw [Plan.look?_refuse] at hlook
  rw [lookAt, here]
  dsimp only
  rw [hlook]
  dsimp only
  rw [List.getElem?_set_self hlt, hputs, Array.toList_push, ← Array.length_toList, List.drop_left]
  rfl

/-- What becomes of a plan whose executions began in this order, among the runs of a pool. -/
structure Plan.SpentOnce (p : Plan σ) (q : Pool σ) (begun : List Nat) : Prop where
  same : ∀ run ∈ q.runs, run.compiled.planId? = some p.id → run.compiled = .plan p
  begins : begun.Nodup ∧ (∀ i ∈ begun, ∃ run, q.runs[i]? = some run ∧ run.compiled = .plan p) ∧
    (p.id ∈ q.stage.state.spent ↔ begun ≠ [])
  waits : ∀ {i run}, q.runs[i]? = some run → run.compiled = .plan p → i ∉ begun →
    run.rest = p.execute run.signal ∧ run.puts = []
  takes : ∀ {i run}, q.runs[i]? = some run → begun.head? = some i →
    ∃ r : Reporter, r.sink = p.sink ∧ Partway (p.carryOut r run.signal) run.puts run.rest
  /-- Every other one that has begun puts out no event. -/
  refused : ∀ {i run}, q.runs[i]? = some run → i ∈ begun.tail → run.sent = [] ∧
    (run.rest = p.refuse ∨ run.rest = .done (.error (.planConsumed p.label)))
  /-- However far the first one is, a look at any other one ends that, with its refusal. -/
  answers : ∀ {i run}, q.runs[i]? = some run → run.compiled = .plan p → begun ≠ [] →
    begun.head? ≠ some i → ∀ timeIsUp, ∃ run', (q.lookAt i timeIsUp).runs[i]? = some run' ∧
      run'.rest = .done (.error (.planConsumed p.label)) ∧ run'.sent = []
  /-- What all executions together have begun are units of the plan, in order and each once. -/
  starts : q.starts p.id <+: p.labels
  /-- They are all its units if the first execution ended without failure or cancellation. -/
  through : ∀ {i run outcome}, q.runs[i]? = some run → begun.head? = some i →
    run.rest = .done outcome → (∀ e ∈ run.sent, e.isAlarm = false) → q.starts p.id = p.labels
  unresolved : ∀ run ∈ q.runs, run.compiled = .plan p → ∀ e ∈ run.sent, e.resolvedToken? = none

namespace Pool.Stands

variable {q : Pool σ} {begun : List Nat} {i : Nat} {run : Spawned σ}

theorem sent_eq_nil (h : q.Stands p begun) (here : q.runs[i]? = some run)
    (call : run.compiled = .plan p) (second : begun.head? ≠ some i) : run.sent = [] := by
  by_cases hi : i ∈ begun
  · cases begun with
    | nil => cases hi
    | cons k begun =>
      have htail : i ∈ begun := (List.mem_cons.mp hi).resolve_left fun hk => second (hk ▸ rfl)
      rcases Plan.refuse_partway (h.refused here htail) with ⟨hputs, _⟩ | ⟨hputs, _⟩
      · rw [Spawned.sent, hputs]
        rfl
      · rw [Spawned.sent, hputs]
        rfl
  · rw [Spawned.sent, (h.waits here call hi).2]
    rfl

theorem compiled_eq (h : q.Stands p begun) (hrun : run ∈ q.runs)
    (hid : run.compiled.planId? = some p.id) : run.compiled = .plan p := by
  cases hcompiled : run.compiled with
  | plan p' =>
    rw [hcompiled] at hid
    rw [h.own run hrun p' hcompiled (Option.some.inj hid)]
  | tour t =>
    rw [hcompiled] at hid
    cases hid

theorem starts_eq_nil (h : q.Stands p begun) (here : q.runs[i]? = some run)
    (second : begun.head? ≠ some i) : run.starts p.id = [] := by
  unfold Spawned.starts
  split
  · next hid =>
    rw [h.sent_eq_nil here (h.compiled_eq (List.mem_of_getElem? here) hid) second]
    rfl
  · rfl

/-- What was begun of the plan the first execution has begun. -/
theorem starts_eq (h : q.Stands p begun) (here : q.runs[i]? = some run)
    (first : begun.head? = some i) : q.starts p.id = run.sent.filterMap Event.startedUnit? := by
  obtain ⟨_, here', hcall⟩ := h.calls i (List.mem_of_head? first)
  obtain rfl := Option.some.inj (here.symm.trans here')
  rw [Pool.starts_eq here fun j other hother hne => h.starts_eq_nil hother fun hj =>
    hne (Option.some.inj (hj.symm.trans first))]
  rw [Spawned.starts, hcall]
  exact if_pos rfl

theorem sink_eq (h : q.Stands p begun) (here : q.runs[i]? = some run)
    (first : begun.head? = some i) : run.compiled.sink = p.sink := by
  obtain ⟨_, here', hcall⟩ := h.calls i (List.mem_of_head? first)
  obtain rfl := Option.some.inj (here.symm.trans here')
  rw [hcall]
  rfl

/-- What the first execution has begun so far are the first units of the plan. -/
theorem begins_take (h : q.Stands p begun) (here : q.runs[i]? = some run)
    (first : begun.head? = some i) : ∃ n, Event.Begins run.sent (p.labels.take n) := by
  obtain ⟨r, hsink, hpartway⟩ := h.takes here first
  obtain ⟨n, hbegins⟩ := Plan.carryOut_partway hsink hpartway
  refine ⟨n, ?_⟩
  rwa [Spawned.sent, h.sink_eq here first]

theorem answers (h : q.Stands p begun) (here : q.runs[i]? = some run)
    (call : run.compiled = .plan p) (taken : begun ≠ []) (second : begun.head? ≠ some i)
    (timeIsUp : Bool) : ∃ run', (q.lookAt i timeIsUp).runs[i]? = some run' ∧
      run'.rest = .done (.error (.planConsumed p.label)) ∧ run'.sent = [] := by
  by_cases hi : i ∈ begun
  · have htail : i ∈ begun.tail := by
      cases begun with
      | nil => cases hi
      | cons k begun => exact (List.mem_cons.mp hi).resolve_left fun hk => second (hk ▸ rfl)
    rcases Plan.refuse_partway (h.refused here htail) with ⟨hputs, hrest⟩ | ⟨hputs, hrest⟩
    · exact ⟨_, lookAt_refused here hputs (by rw [hrest]), rfl, rfl⟩
    · have hlookAt : q.lookAt i timeIsUp = q := by
        have hlook : run.rest.look? timeIsUp q.stage = none := by rw [hrest]; rfl
        rw [lookAt, here]
        dsimp only
        rw [hlook]
      rw [hlookAt]
      exact ⟨run, here, hrest, h.sent_eq_nil here call second⟩
  · obtain ⟨hrest, hputs⟩ := h.waits here call hi
    refine ⟨_, lookAt_refused here hputs ?_, rfl, rfl⟩
    rw [hrest]
    exact Plan.look?_execute (h.spent.mpr taken) timeIsUp

end Pool.Stands

/-- However executions of a plan go on, the first to begin takes the units,
and the others are refused. -/
theorem Pool.History.spentOnce {q : Pool σ} {begun : List Nat} (h : q.History p begun) :
    p.SpentOnce q begun := by
  have hstands := h.stands
  have hfirst : begun = [] ∨ ∃ i run, begun.head? = some i ∧ q.runs[i]? = some run := by
    cases begun with
    | nil => exact .inl rfl
    | cons i begun =>
      obtain ⟨run, here, _⟩ := hstands.calls i List.mem_cons_self
      exact .inr ⟨i, run, rfl, here⟩
  constructor
  case same => exact fun run hrun hid => hstands.compiled_eq hrun hid
  case begins => exact ⟨hstands.nodup, hstands.calls, hstands.spent⟩
  case waits => exact hstands.waits
  case takes => exact hstands.takes
  case refused =>
    intro i run here htail
    have hsecond : begun.head? ≠ some i := by
      cases begun with
      | nil => exact nofun
      | cons k begun =>
        rintro hk
        obtain rfl : k = i := Option.some.inj hk
        exact (List.nodup_cons.mp hstands.nodup).1 htail
    obtain ⟨_, here', hcall⟩ := hstands.calls i (List.mem_of_mem_tail htail)
    obtain rfl := Option.some.inj (here.symm.trans here')
    refine ⟨hstands.sent_eq_nil here hcall hsecond, ?_⟩
    rcases Plan.refuse_partway (hstands.refused here htail) with ⟨_, hrest⟩ | ⟨_, hrest⟩
    · exact .inl hrest
    · exact .inr hrest
  case answers => exact hstands.answers
  case starts =>
    rcases hfirst with rfl | ⟨i, run, hhead, here⟩
    · have hnone : q.starts p.id = [] := List.flatMap_eq_nil_iff.mpr fun run hrun => by
        obtain ⟨i, here⟩ := List.mem_iff_getElem?.mp hrun
        exact hstands.starts_eq_nil here nofun
      rw [hnone]
      exact List.nil_prefix
    · obtain ⟨n, hbegins⟩ := hstands.begins_take here hhead
      rw [hstands.starts_eq here hhead, hbegins.1]
      exact List.take_prefix n _
  case through =>
    intro i run outcome here hhead hover quiet
    obtain ⟨r, hsink, hpartway⟩ := hstands.takes here hhead
    rw [hover] at hpartway
    rw [Spawned.sent, hstands.sink_eq here hhead] at quiet
    rw [hstands.starts_eq here hhead, Spawned.sent, hstands.sink_eq here hhead]
    exact Plan.carryOut_puts hsink hpartway.puts quiet
  case unresolved =>
    intro run hrun hcall e he
    obtain ⟨i, here⟩ := List.mem_iff_getElem?.mp hrun
    by_cases hhead : begun.head? = some i
    · obtain ⟨_, hbegins⟩ := hstands.begins_take here hhead
      exact hbegins.2 e he
    · rw [hstands.sent_eq_nil here hcall hhead] at he
      cases he

section Looks

variable {q : Pool σ} {begun : List Nat} {i : Nat} {run : Spawned σ}

/-- The first look at an execution lets it begin. -/
theorem Pool.History.lookFirst (h : q.History p begun) (here : q.runs[i]? = some run)
    (call : run.compiled = .plan p) (late : i ∉ begun) (timeIsUp : Bool) :
    (q.lookAt i timeIsUp).History p (begun ++ [i]) := by
  have hrest := (h.stands.waits here call late).1
  have hlook : ∃ pause, run.rest.look? timeIsUp q.stage = some pause := by
    rw [hrest, Plan.execute_eq]
    exact ⟨_, rfl⟩
  obtain ⟨pause, hlook⟩ := hlook
  obtain ⟨items, rest, stage, goes, hresumed⟩ := Pool.exists_lookAt here hlook
  rw [hresumed]
  exact h.begins here call late goes

theorem Pool.History.lookAgain (h : q.History p begun) (early : i ∈ begun) (timeIsUp : Bool) :
    (q.lookAt i timeIsUp).History p begun := by
  rcases q.lookAt_cases i timeIsUp with hkept | ⟨run, items, rest, stage, here, goes, hresumed⟩
  · rwa [hkept]
  · rw [hresumed]
    exact h.goesOn here (fun _ => early) goes

end Looks

/-- A plan of one unit, which waits for a while and then completes. -/
def Plan.slow : Plan Unit where
  id := 0
  strategy := .hierarchical
  entries := [⟨"token", ⟨"unit", fun _ => .wait 5 none fun _ => .done (.ok ())⟩⟩]
  sink := .recorder
  surfaceFailures := false

/-- The plan is executed while its unit waits, and the unit then completes. -/
def Pool.crowded : Pool Unit :=
  let p : Pool Unit := { stage := { state := { host := () } } }
  ((((p.spawn (.plan .slow) 0).spawn (.plan .slow) 1).lookAt 1 false).lookAt 0 false).lookAt 1 true

theorem Pool.history_crowded : crowded.History .slow [1, 0] := by
  have hown : ∀ p', Compiled.plan Plan.slow = .plan p' → p'.id = Plan.slow.id → p' = .slow := by
    rintro p' hp' _
    cases hp'
    rfl
  have hcalled := ((History.new (p := .slow) (w := { host := () }) nofun).spawn (.plan .slow) 0
    hown).spawn (.plan .slow) 1 hown
  have hfirst := hcalled.lookFirst (i := 1) rfl rfl (by decide) false
  have hsecond := hfirst.lookFirst (i := 0) rfl rfl (by decide) false
  exact hsecond.lookAgain (i := 1) (by decide) true

theorem Pool.spentOnce_crowded : crowded.History .slow [1, 0] ∧ Plan.slow.SpentOnce crowded [1, 0] ∧
    crowded.starts 0 = ["unit"] ∧ crowded.sent .recorder = [.runStarted "flow-run-1" "hierarchical",
      .unitStarted "flow-run-1" "unit" "token", .unitCompleted "flow-run-1" "unit" "token",
      .runCompleted "flow-run-1" 1] :=
  ⟨history_crowded, Pool.History.spentOnce history_crowded, by decide, by decide⟩

end Flowchart
