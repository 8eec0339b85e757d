import Mathlib.Logic.Relation
import Flowchart.Proofs.Run.Numbering
import Flowchart.Proofs.Run.Trace

/-! Runs that go on side by side, in any order, and report to the same sinks. -/
namespace Flowchart

variable {σ : Type}

/-- A run beside others: its compiled tree, its signal, what is left of it
and what it has put out. -/
structure Spawned (σ : Type) where
  compiled : Compiled σ
  signal : Signal
  rest : RunActivity σ Outcome
  puts : List Report := []

structure Pool (σ : Type) where
  stage : RunStage σ
  runs : List (Spawned σ) := []

namespace Pool

def spawn (p : Pool σ) (compiled : Compiled σ) (signal : Signal) : Pool σ :=
  { p with runs := p.runs ++ [{ compiled, signal, rest := compiled.execute signal }] }

/-- Look at a run, and go on with it unless it is over or has to wait on. -/
def lookAt (p : Pool σ) (i : Nat) (timeIsUp : Bool) : Pool σ :=
  match p.runs[i]? with
  | none => p
  | some run =>
    match run.rest.look? timeIsUp p.stage with
    | none => p
    | some pause =>
      let items := pause.stage.items.toList.drop p.stage.items.size
      { stage := pause.stage
        runs := p.runs.set i { run with rest := pause.rest, puts := run.puts ++ items } }

/-- A run is spawned or goes on, or the host does something to the stage but reports nothing. -/
inductive Moves : Pool σ → Pool σ → Prop
  | spawn (p : Pool σ) (compiled : Compiled σ) (signal : Signal) :
      Moves p (p.spawn compiled signal)
  | goOn {p : Pool σ} {i : Nat} {run : Spawned σ} {items : List Report} {rest : RunActivity σ Outcome}
      {stage : RunStage σ} (here : p.runs[i]? = some run)
      (goes : run.rest.Stretch p.stage items rest stage) :
      Moves p { stage, runs := p.runs.set i { run with rest, puts := run.puts ++ items } }
  | host {p : Pool σ} {stage : RunStage σ} (reports : stage.items = p.stage.items)
      (count : stage.state.runsBegun = p.stage.state.runsBegun) : Moves p { p with stage }

/-- A pool comes about from another, one move after the other. -/
abbrev Reaches : Pool σ → Pool σ → Prop := Relation.ReflTransGen Moves

/-- A look at a run lets it go on for a while, unless it is over or has to wait on. -/
theorem exists_lookAt {p : Pool σ} {i : Nat} {run : Spawned σ} {timeIsUp : Bool}
    {pause : Pause (World σ) Report Outcome} (here : p.runs[i]? = some run)
    (hlook : run.rest.look? timeIsUp p.stage = some pause) :
    ∃ items rest stage, run.rest.Stretch p.stage items rest stage ∧ p.lookAt i timeIsUp =
      { stage, runs := p.runs.set i { run with rest, puts := run.puts ++ items } } := by
  obtain ⟨items, hstretch⟩ := Activity.stretch_look? hlook
  have hitems : pause.stage.items.toList.drop p.stage.items.size = items := by
    rw [hstretch.items_eq]
    exact List.drop_left
  refine ⟨items, pause.rest, pause.stage, hstretch, ?_⟩
  rw [lookAt, here]
  dsimp only
  rw [hlook]
  dsimp only
  rw [hitems]

/-- A look leaves a pool as it is, or one run goes on for a while. -/
theorem lookAt_cases (p : Pool σ) (i : Nat) (timeIsUp : Bool) : p.lookAt i timeIsUp = p ∨
    ∃ run items rest stage, p.runs[i]? = some run ∧ run.rest.Stretch p.stage items rest stage ∧
      p.lookAt i timeIsUp =
        { stage, runs := p.runs.set i { run with rest, puts := run.puts ++ items } } := by
  cases here : p.runs[i]? with
  | none =>
    rw [lookAt, here]
    exact .inl rfl
  | some run =>
    cases hlook : run.rest.look? timeIsUp p.stage with
    | none =>
      rw [lookAt, here]
      dsimp only
      rw [hlook]
      exact .inl rfl
    | some pause =>
      obtain ⟨items, rest, stage, goes, hresumed⟩ := exists_lookAt here hlook
      exact .inr ⟨run, items, rest, stage, rfl, goes, hresumed⟩

/-- A run of a pool in which one was put in another's place is that one or one that was there. -/
theorem getElem?_set_cases {p : Pool σ} {i j : Nat} {run new other : Spawned σ}
    (here : p.runs[i]? = some run) (h : (p.runs.set i new)[j]? = some other) :
    (j = i ∧ other = new) ∨ j ≠ i ∧ p.runs[j]? = some other := by
  have hlt : i < p.runs.length := (List.getElem?_eq_some_iff.mp here).1
  by_cases hij : j = i
  · subst hij
    rw [List.getElem?_set_self hlt] at h
    exact .inl ⟨rfl, (Option.some.inj h).symm⟩
  · rw [List.getElem?_set_ne (Ne.symm hij)] at h
    exact .inr ⟨hij, h⟩

/-- If that one is a run of the same compiled tree, every place still has a run of the same tree. -/
theorem exists_getElem?_set {p : Pool σ} {i j : Nat} {run other : Spawned σ} (new : Spawned σ)
    (here : p.runs[i]? = some run) (same : new.compiled = run.compiled) (h : p.runs[j]? = some other) :
    ∃ next, (p.runs.set i new)[j]? = some next ∧ next.compiled = other.compiled := by
  by_cases hij : j = i
  · subst hij
    obtain rfl := Option.some.inj (h.symm.trans here)
    exact ⟨new, List.getElem?_set_self (List.getElem?_eq_some_iff.mp here).1, same⟩
  · exact ⟨other, (List.getElem?_set_ne (Ne.symm hij)).trans h, rfl⟩

/-- What is true of the compiled trees of all runs is still true of them. -/
theorem compiled_of_mem_set {p : Pool σ} {i : Nat} {run new : Spawned σ} {P : Compiled σ → Prop}
    (here : p.runs[i]? = some run) (same : new.compiled = run.compiled)
    (h : ∀ r ∈ p.runs, P r.compiled) : ∀ r ∈ p.runs.set i new, P r.compiled := by
  intro r hr
  rcases List.mem_or_eq_of_mem_set hr with hr | rfl
  · exact h r hr
  · rw [same]
    exact h run (List.mem_of_getElem? here)

theorem getElem?_spawn_cases {p : Pool σ} {compiled : Compiled σ} {signal : Signal} {j : Nat}
    {other : Spawned σ} (h : (p.spawn compiled signal).runs[j]? = some other) :
    p.runs[j]? = some other ∨
      p.runs.length ≤ j ∧ other = { compiled, signal, rest := compiled.execute signal } := by
  unfold spawn at h
  by_cases hlt : j < p.runs.length
  · rw [List.getElem?_append_left hlt] at h
    exact .inl h
  · rw [List.getElem?_append_right (Nat.le_of_not_lt hlt)] at h
    exact .inr ⟨Nat.le_of_not_lt hlt, List.mem_singleton.mp (List.mem_of_getElem? h)⟩

/-- A run stays the run of the same compiled tree. -/
theorem Reaches.kept {p q : Pool σ} (h : Reaches p q) {i : Nat} {run : Spawned σ}
    (here : p.runs[i]? = some run) : ∃ run', q.runs[i]? = some run' ∧ run'.compiled = run.compiled := by
  induction h with
  | refl => exact ⟨run, here, rfl⟩
  | tail _ hmove ih =>
    obtain ⟨run', here', hsame⟩ := ih
    have hlt := (List.getElem?_eq_some_iff.mp here').1
    cases hmove with
    | spawn => exact ⟨run', (List.getElem?_append_left hlt).trans here', hsame⟩
    | host => exact ⟨run', here', hsame⟩
    | @goOn j other items rest _ hother _ =>
      obtain ⟨next, hnext, hcompiled⟩ :=
        exists_getElem?_set { other with rest, puts := other.puts ++ items } hother rfl here'
      exact ⟨next, hnext, hcompiled.trans hsame⟩

def sent (p : Pool σ) (sink : Sink) : List Event :=
  p.stage.items.toList.filterMap (Report.sentTo? sink)

end Pool

def Spawned.sent (run : Spawned σ) : List Event :=
  run.puts.filterMap (Report.sentTo? run.compiled.sink)

def Report.carries (id : String) (o : Report) : Bool := o.run? == some id

/-- Some reports carry the id of the run with this number, if any. -/
def Report.AllOf (n : Option Nat) (items : List Report) : Prop :=
  ∀ o ∈ items, ∀ id ∈ o.run?, some id = n.map World.runName

namespace Report

theorem run?_of_sentTo? {sink : Sink} {o : Report} {e : Event} (h : o.sentTo? sink = some e) :
    o.run? = some e.run := by
  cases o with
  | event s e' =>
    by_cases hs : s = sink
    · simp only [sentTo?, hs, if_true, Option.some.injEq] at h
      rw [← h]
      rfl
    · simp [sentTo?, hs] at h
  | log line => cases h

theorem filter_sentTo? (sink : Sink) (id : String) (items : List Report) :
    (items.filterMap (sentTo? sink)).filter (·.run = id) =
      (items.filter (carries id)).filterMap (sentTo? sink) := by
  rw [List.filter_filterMap, List.filterMap_filter]
  congr 1
  funext o
  cases o with
  | event s e =>
    by_cases hs : s = sink <;> by_cases hid : e.run = id <;>
      simp [sentTo?, carries, run?, hs, hid, Option.filter]
  | log line => simp [sentTo?, carries, run?]

namespace AllOf

variable {n : Option Nat} {k : Nat} {items : List Report}

theorem filter_eq_nil (h : AllOf n items) (hn : n ≠ some k) :
    items.filter (carries (World.runName k)) = [] := by
  rw [List.filter_eq_nil_iff]
  intro o ho hcarries
  have hid := h o ho (World.runName k) (by simpa [carries] using hcarries)
  cases n with
  | none => cases hid
  | some m =>
    have hname : World.runName k = World.runName m := Option.some.inj hid
    exact hn (congrArg some (World.runName_inj.mp hname).symm)

theorem number_eq (h : AllOf n items) {o : Report} (ho : o ∈ items)
    (hid : o.run? = some (World.runName k)) : n = some k := by
  by_contra hn
  have hnil := h.filter_eq_nil hn
  rw [List.filter_eq_nil_iff] at hnil
  exact hnil o ho (by simp [carries, hid])

theorem filter_sentTo?_eq_self (h : AllOf (some k) items) (sink : Sink) :
    (items.filter (carries (World.runName k))).filterMap (sentTo? sink) =
      items.filterMap (sentTo? sink) := by
  rw [← filter_sentTo?, List.filter_eq_self]
  intro e he
  obtain ⟨o, ho, hsent⟩ := List.mem_filterMap.mp he
  have hid := h o ho e.run (run?_of_sentTo? hsent)
  simpa using hid

end AllOf

end Report

/-- A run keeps to its number, and what it has put out is the beginning of what it can put out. -/
structure Spawned.Sound (run : Spawned σ) (n : Option Nat) : Prop where
  keeps : ∀ w, run.rest.Numbered n w
  own : Report.AllOf n run.puts
  whole : ∀ items outcome, run.rest.Puts items outcome →
    (run.compiled.execute run.signal).Puts (run.puts ++ items) outcome

/-- Runs have numbers of their own, and what one has put out is what the stage has of it. -/
structure Pool.Sound (p : Pool σ) (number : Nat → Option Nat) : Prop where
  each : ∀ (i : Nat) (run : Spawned σ), p.runs[i]? = some run → run.Sound (number i)
  present : ∀ i k, number i = some k → i < p.runs.length
  counted : ∀ i k, number i = some k → k ≤ p.stage.state.runsBegun
  unique : ∀ i j k, number i = some k → number j = some k → i = j
  shown : ∀ (i : Nat) (run : Spawned σ) k, p.runs[i]? = some run → number i = some k →
    p.stage.items.toList.filter (Report.carries (World.runName k)) =
      run.puts.filter (Report.carries (World.runName k))
  past : ∀ o ∈ p.stage.items.toList, ∀ k, o.run? = some (World.runName k) →
    k ≤ p.stage.state.runsBegun

namespace Pool.Sound

variable {p : Pool σ} {number : Nat → Option Nat}

theorem new (w : World σ) : Sound { stage := { state := w } } fun _ => none where
  each _ _ h := by simp at h
  present _ _ h := by cases h
  counted _ _ h := by cases h
  unique _ _ _ h := by cases h
  shown _ _ _ h := by simp at h
  past _ h := by simp at h

theorem host (h : p.Sound number) {stage : RunStage σ} (reports : stage.items = p.stage.items)
    (count : stage.state.runsBegun = p.stage.state.runsBegun) :
    Sound { p with stage } number where
  each := h.each
  present := h.present
  counted i k hk := count ▸ h.counted i k hk
  unique := h.unique
  shown := reports ▸ h.shown
  past := by
    rw [reports, count]
    exact h.past

theorem spawn (h : p.Sound number) (compiled : Compiled σ) (signal : Signal) :
    (p.spawn compiled signal).Sound number := by
  -- A run is one of the runs before or the one that was spawned.
  have hcases : ∀ {i run}, (p.spawn compiled signal).runs[i]? = some run → p.runs[i]? = some run ∨
        number i = none ∧ run = { compiled, signal, rest := compiled.execute signal } := by
    intro i run hi
    rcases getElem?_spawn_cases hi with hi | ⟨hlate, hnew⟩
    · exact .inl hi
    · refine .inr ⟨?_, hnew⟩
      cases hn : number i with
      | none => rfl
      | some k => exact absurd (h.present i k hn) (Nat.not_lt.mpr hlate)
  constructor
  case each =>
    intro i run hi
    rcases hcases hi with hi | ⟨hn, rfl⟩
    · exact h.each i run hi
    · rw [hn]
      exact ⟨compiled.execute_numbered signal, nofun, fun _ _ hputs => hputs⟩
  case present =>
    intro i k hk
    have := h.present i k hk
    simp only [Pool.spawn, List.length_append]
    omega
  case counted => exact h.counted
  case unique => exact h.unique
  case shown =>
    intro i run k hi hk
    rcases hcases hi with hi | ⟨hn, rfl⟩
    · exact h.shown i run k hi hk
    · rw [hn] at hk
      cases hk
  case past => exact h.past

theorem goOn (h : p.Sound number) {i : Nat} {run : Spawned σ} {items : List Report}
    {rest : RunActivity σ Outcome} {stage : RunStage σ} (here : p.runs[i]? = some run)
    (goes : run.rest.Stretch p.stage items rest stage) :
    ∃ number', Sound { stage, runs := p.runs.set i { run with rest, puts := run.puts ++ items } }
      number' := by
  have hrun := h.each i run here
  obtain ⟨n, hrest, hitems, hcount⟩ := goes.numbered (hrun.keeps p.stage.state)
  have hlt : i < p.runs.length := (List.getElem?_eq_some_iff.mp here).1
  have hself : Function.update number i n i = n := Function.update_self ..
  have hother : ∀ {j}, j ≠ i → Function.update number i n j = number j := fun hj =>
    Function.update_of_ne hj ..
  have hgrown : p.stage.state.runsBegun ≤ stage.state.runsBegun := by omega
  -- Nobody else has the number that the run has now.
  have halone : ∀ {j k}, j ≠ i → number j = some k → n ≠ some k := by
    rintro j k hj hk rfl
    rcases hcount with ⟨hn, _⟩ | ⟨_, hn, _⟩
    · exact hj (h.unique j i k hk hn.symm)
    · have := h.counted j k hk
      cases hn
      omega
  have hcounted : ∀ k, n = some k → k ≤ stage.state.runsBegun := by
    rintro k rfl
    rcases hcount with ⟨hn, heq⟩ | ⟨_, hn, heq⟩
    · rw [heq]
      exact h.counted i k hn.symm
    · cases hn
      exact heq.ge
  refine ⟨Function.update number i n, ?_⟩
  constructor
  case each =>
    intro j r hj
    rcases getElem?_set_cases here hj with ⟨rfl, rfl⟩ | ⟨hne, hj⟩
    · rw [hself]
      refine ⟨hrest, ?_, fun more outcome hmore => ?_⟩
      · intro o ho id hid
        rcases List.mem_append.mp ho with ho | ho
        · have hid := hrun.own o ho id hid
          rcases hcount with ⟨rfl, _⟩ | ⟨hn, _⟩
          · exact hid
          · rw [hn] at hid
            cases hid
        · exact hitems o ho id hid
      · rw [List.append_assoc]
        exact hrun.whole _ _ (goes.puts hmore)
    · rw [hother hne]
      exact h.each j r hj
  case present =>
    intro j k hk
    rw [List.length_set]
    by_cases hj : j = i
    · exact hj ▸ hlt
    · exact h.present j k (hother hj ▸ hk)
  case counted =>
    intro j k hk
    by_cases hj : j = i
    · subst hj
      exact hcounted k (hself ▸ hk)
    · exact (h.counted j k (hother hj ▸ hk)).trans hgrown
  case unique =>
    intro j j' k hj hj'
    by_cases hji : j = i
    · by_cases hji' : j' = i
      · rw [hji, hji']
      · subst hji
        exact absurd (hself ▸ hj) (halone hji' (hother hji' ▸ hj'))
    · by_cases hji' : j' = i
      · subst hji'
        exact absurd (hself ▸ hj') (halone hji (hother hji ▸ hj))
      · exact h.unique j j' k (hother hji ▸ hj) (hother hji' ▸ hj')
  case shown =>
    intro j r k hj hk
    rw [goes.items_eq, List.filter_append]
    rcases getElem?_set_cases here hj with ⟨rfl, rfl⟩ | ⟨hne, hj⟩
    · rw [hself] at hk
      subst hk
      rw [List.filter_append]
      congr 1
      rcases hcount with ⟨hn, _⟩ | ⟨hnone, hn, _⟩
      · exact h.shown j run k here hn.symm
      · cases hn
        have hown := hrun.own
        rw [hnone] at hown
        rw [hown.filter_eq_nil nofun, List.filter_eq_nil_iff]
        intro o ho hcarries
        have := h.past o ho _ (by simpa [Report.carries] using hcarries)
        omega
    · rw [hother hne] at hk
      rw [Report.AllOf.filter_eq_nil hitems (halone hne hk), List.append_nil]
      exact h.shown j r k hj hk
  case past =>
    intro o ho k hid
    rw [goes.items_eq] at ho
    rcases List.mem_append.mp ho with ho | ho
    · exact (h.past o ho k hid).trans hgrown
    · exact hcounted k (Report.AllOf.number_eq hitems ho hid)

theorem of_reaches {w : World σ} (h : Reaches { stage := { state := w } } p) :
    ∃ number, p.Sound number := by
  induction h with
  | refl => exact ⟨_, .new w⟩
  | tail _ hmove ih =>
    obtain ⟨number, hp⟩ := ih
    cases hmove with
    | spawn compiled signal => exact ⟨number, hp.spawn compiled signal⟩
    | goOn here goes => exact hp.goOn here goes
    | host reports count => exact ⟨number, hp.host reports count⟩

/-- A run that is over and was not refused has put out a trace, and nothing else has its id. -/
theorem traced (h : p.Sound number) {i : Nat} {run : Spawned σ} (here : p.runs[i]? = some run)
    {outcome : Outcome} (hover : run.rest = .done outcome) :
    (outcome = .error (.planConsumed run.compiled.label) ∧ run.sent = []) ∨
      ∃ id, (p.sent run.compiled.sink).filter (·.run = id) = run.sent ∧
        Trace id run.compiled run.sent outcome := by
  obtain ⟨_, hown, hwhole⟩ := h.each i run here
  have hputs : (run.compiled.execute run.signal).Puts run.puts outcome := by
    have hall := hwhole [] outcome (hover ▸ .done)
    rwa [List.append_nil] at hall
  rcases Compiled.execute_puts hputs with hrefused | ⟨id, htrace⟩
  · exact .inl hrefused
  · refine .inr ⟨id, ?_, htrace⟩
    obtain ⟨e, he, rfl⟩ := htrace.exists_mem
    obtain ⟨o, ho, hsent⟩ := List.mem_filterMap.mp he
    obtain ⟨k, hk, hname⟩ := Option.map_eq_some_iff.mp
      (hown o ho e.run (Report.run?_of_sentTo? hsent)).symm
    rw [← hname]
    rw [Pool.sent, Report.filter_sentTo?, h.shown i run k here hk]
    rw [hk] at hown
    exact hown.filter_sentTo?_eq_self _

end Pool.Sound

def Tour.late : Tour Unit where
  tree := TokenTree.push {}
    { label := "token"
      resolve := .push ⟨"unit", fun _ => .wait 5 none fun _ => .done (.error (.failed "late"))⟩
        (.done (.ok ())) }
  limit := 1
  sink := .recorder
  surfaceFailures := true

def Plan.empty : Plan Unit where
  id := 0
  strategy := .linear
  entries := []
  sink := .recorder
  surfaceFailures := false

/-- The plan begins and ends while the unit of the tour waits. -/
def Pool.late : Pool Unit :=
  let p : Pool Unit := { stage := { state := { host := () } } }
  ((((p.spawn (.tour .late) 0).spawn (.plan .empty) 1).lookAt 0 false).lookAt 1 false).lookAt 0 true

end Flowchart
