import Flowchart.Proofs.Activity.Partway
import Flowchart.Proofs.Run.Pool
import Flowchart.Proofs.Run.Visible

/-! Plans that are executed again and again, from anywhere: the first execution to begin takes the
units, and every other one is refused. -/
namespace Flowchart

open Activity (Changes Partway Puts)

variable {σ α : Type}

def World.SpentAlike (id : PlanId) (w w' : World σ) : Prop := id ∈ w'.spent ↔ id ∈ w.spent

/-- An activity that leaves a plan spent or unspent does so in any while in which it goes on. -/
theorem Activity.Stretch.spentAlike {id : PlanId} {a rest : RunActivity σ α} {items : List Report}
    {stage stage' : RunStage σ} (h : Stretch a stage items rest stage')
    (ha : a.Changes (World.SpentAlike id) stage.state) :
    (id ∈ stage'.state.spent ↔ id ∈ stage.state.spent) ∧
      ∀ w, rest.Changes (World.SpentAlike id) w :=
  h.changes (R := World.SpentAlike id) (fun _ => Iff.rfl) (fun _ _ _ h h' => Iff.trans h' h) ha

namespace Plan

/-- What an execution does that has taken the units of a plan. -/
def carryOut (p : Plan σ) (r : Reporter) (signal : Signal) : RunActivity σ Outcome := do
  r.send (.runStarted r.run p.strategy.name)
  r.finish (← r.executeAll signal 0 p.entries)

def refusal (p : Plan σ) : LogLine := ⟨.warn, s!"Plan '{p.label}' was already executed"⟩

def refuse (p : Plan σ) : RunActivity σ Outcome := do
  .tell (.log p.refusal)
  return .error (.planConsumed p.label)

/-- An execution looks whether the plan is spent, and spends it if it is
not, before it makes room for anything else. -/
theorem execute_eq (p : Plan σ) (signal : Signal) : p.execute signal = .get fun w =>
    if w.spent.contains p.id then p.refuse
    else
      let w₁ : World σ := { w with spent := p.id :: w.spent }
      .set w₁ (.get fun w₂ => .set { w₂ with runsBegun := w₂.runsBegun + 1 }
        (p.carryOut ⟨w₂.nextRun, p.sink, p.surfaceFailures⟩ signal)) := rfl

end Plan

section Keeping

variable {id : PlanId} {r : Reporter} {signal : Signal}

theorem changes_inRun {α : Type} (a : Activity σ LogLine α) (w : World σ) :
    (a.inRun : RunActivity σ α).Changes (World.SpentAlike id) w := by
  refine Changes.embed (fun _ _ => ?_) a w
  exact Iff.rfl

theorem Reporter.changes_send (e : Event) (w : World σ) :
    (r.send e : RunActivity σ Unit).Changes (World.SpentAlike id) w := .tell _

theorem Reporter.changes_start (strategy : Strategy) (sink : Sink) (surfaceFailures : Bool)
    (w : World σ) : (start strategy sink surfaceFailures : RunActivity σ Reporter).Changes
      (World.SpentAlike id) w := ⟨Iff.rfl, fun _ => True.intro⟩

/-- To leave a plan spent or unspent passes from the steps of a run to the run. -/
theorem Reporter.changes_passes : Passes (fun _ (a : RunActivity σ _) =>
    ∀ w, a.Changes (World.SpentAlike id) w) r signal where
  pure _ _ := .pure _
  bind ha hf w := (ha w).bind fun x w => hf x w
  hasFired _ := .hasFired signal
  inRun := changes_inRun
  execute e started w := by
    rw [execute_eq]
    refine (Changes.hasFired signal).bind fun fired w => ?_
    cases fired with
    | true => exact .pure _
    | false =>
      refine (changes_send _ w).bind fun _ w => (changes_inRun _ w).bind fun outcome w => ?_
      exact conclude_passes (P := fun _ a => ∀ w, a.Changes (World.SpentAlike id) w)
        (fun _ _ => .pure _) (fun ha hf w => (ha w).bind fun x w => hf x w)
        (fun _ _ _ _ => changes_send _) e started outcome w

theorem Reporter.changes_finish (p : Progress) (w : World σ) :
    (r.finish p : RunActivity σ Outcome).Changes (World.SpentAlike id) w :=
  finish_passes (P := fun _ a => ∀ w, a.Changes (World.SpentAlike id) w) (fun _ _ => .pure _)
    (fun ha hf w => (ha w).bind fun x w => hf x w) (fun _ _ _ _ => changes_send _)
    (fun _ _ => .tell _) p w

theorem Plan.changes_carryOut (p : Plan σ) (w : World σ) :
    (p.carryOut r signal).Changes (World.SpentAlike id) w :=
  (Reporter.changes_send _ w).bind fun _ w =>
    (Reporter.changes_passes.executeAll p.entries 0 w).bind Reporter.changes_finish

theorem Plan.changes_refuse (p : Plan σ) (w : World σ) :
    p.refuse.Changes (World.SpentAlike id) w := (Changes.tell _).bind fun _ _ => .pure _

theorem Tour.changes_pass (t : Tour σ) (w : World σ) :
    (t.pass r signal).Changes (World.SpentAlike id) w := by
  unfold pass
  split
  · exact .pure _
  · exact TokenTree.passes_walk Reporter.changes_passes (fun _ _ => Reporter.changes_send _) _ _ _ _ _
      _ w

theorem Compiled.changes_execute (c : Compiled σ) (h : ∀ p, c = .plan p → p.id ≠ id) (w : World σ) :
    (c.execute signal).Changes (World.SpentAlike id) w := by
  cases c with
  | plan p =>
    have hother : id ≠ p.id := (h p rfl).symm
    change (p.execute signal).Changes _ w
    rw [Plan.execute_eq, Changes]
    split
    · exact p.changes_refuse w
    · refine ⟨?_, Iff.rfl, p.changes_carryOut _⟩
      simp [World.SpentAlike, hother]
  | tour t =>
    have hexecute : (Compiled.tour t).execute signal = t.execute signal := rfl
    rw [hexecute, Tour.execute_eq]
    refine (Reporter.changes_start _ _ _ w).bind fun r w => ?_
    exact (t.changes_pass w).bind Reporter.changes_finish

end Keeping

section Begun

variable {r : Reporter} {signal : Signal} {items : List Report}

def Event.Begins (events : List Event) (units : List String) : Prop :=
  events.filterMap startedUnit? = units ∧ ∀ e ∈ events, e.resolvedToken? = none

theorem Event.Begins.append {xs ys : List Event} {us vs : List String} (hx : Begins xs us)
    (hy : Begins ys vs) : Begins (xs ++ ys) (us ++ vs) := by
  refine ⟨by rw [List.filterMap_append, hx.1, hy.1], fun e he => ?_⟩
  rcases List.mem_append.mp he with he | he
  · exact hx.2 e he
  · exact hy.2 e he

theorem Event.begins_nil : Begins [] [] := ⟨rfl, nofun⟩

theorem Event.begins_single {e : Event} (hs : e.startedUnit? = none) (hr : e.resolvedToken? = none) :
    Begins [e] [] := by
  refine ⟨by simp [hs], fun e' he => ?_⟩
  rw [List.mem_singleton.mp he]
  exact hr

namespace Reporter

theorem send_partway {α : Type} {e : Event} {f : Unit → RunActivity σ α} {rest : RunActivity σ α}
    (h : Partway (r.send e >>= f) items rest) :
    items = [] ∨ ∃ more, Partway (f ()) more rest ∧ items = .event r.sink e :: more := by
  rcases Partway.of_tell_bind h with ⟨hitems, _⟩ | hgoes
  · exact .inl hitems
  · exact .inr hgoes

/-- Wherever an activity of a run is, it has begun no unit and resolved no token. -/
def BeginsNothing {α : Type} (r : Reporter) (a : RunActivity σ α) : Prop :=
  ∀ items rest, Partway a items rest → Event.Begins (items.filterMap (Report.sentTo? r.sink)) []

namespace BeginsNothing

theorem pure {α : Type} (x : α) : r.BeginsNothing (Pure.pure x : RunActivity σ α) := by
  intro items rest h
  obtain ⟨rfl, _⟩ := h.of_pure
  exact Event.begins_nil

theorem bind {α β : Type} {a : RunActivity σ α} {f : α → RunActivity σ β} (ha : r.BeginsNothing a)
    (hf : ∀ x, r.BeginsNothing (f x)) : r.BeginsNothing (a >>= f) := by
  intro items rest h
  rcases h.of_bind with ⟨_, hfirst, _⟩ | ⟨x, first, last, hfirst, hlast, rfl⟩
  · exact ha _ _ hfirst
  · rw [List.filterMap_append]
    exact (ha _ _ hfirst.partway).append (hf x _ _ hlast)

theorem tell {o : Report} (h : Event.Begins (o.sentTo? r.sink).toList []) :
    r.BeginsNothing (.tell o : RunActivity σ Unit) := by
  intro items rest hgoes
  cases hgoes with
  | here => exact Event.begins_nil
  | emit hdone =>
    cases hdone
    cases ho : o.sentTo? r.sink with
    | none =>
      rw [List.filterMap_cons_none ho]
      exact Event.begins_nil
    | some e =>
      rw [ho] at h
      rwa [List.filterMap_cons_some ho]

theorem send {e : Event} (hs : e.startedUnit? = none) (hr : e.resolvedToken? = none) :
    r.BeginsNothing (r.send e : RunActivity σ Unit) := by
  apply tell
  rw [Report.sentTo?_event]
  exact Event.begins_single hs hr

theorem inRun {α : Type} (a : Activity σ LogLine α) : r.BeginsNothing (a.inRun : RunActivity σ α) := by
  intro items rest h
  obtain ⟨lines, rfl⟩ := h.of_embed
  rw [Report.filterMap_sentTo?_log]
  exact Event.begins_nil

theorem conclude (e : Entry σ) (started : Nat) (outcome : Outcome) :
    r.BeginsNothing (r.conclude e started outcome) :=
  conclude_passes (P := fun _ a => r.BeginsNothing a) pure bind (fun _ _ => send) e started outcome

theorem finish (p : Progress) : r.BeginsNothing (r.finish p : RunActivity σ Outcome) :=
  finish_passes (P := fun _ a => r.BeginsNothing a) pure bind (fun _ _ => send)
    (fun line => tell (o := .log line) Event.begins_nil) p

end BeginsNothing

/-- On the way through an execution of one unit it is begun at most once. -/
theorem execute_partway {e : Entry σ} {started : Nat} {rest : RunActivity σ Progress}
    (h : Partway (r.execute signal e started) items rest) :
    Event.Begins (items.filterMap (Report.sentTo? r.sink)) [] ∨
      Event.Begins (items.filterMap (Report.sentTo? r.sink)) [e.unit.label] := by
  rw [execute_eq] at h
  rcases Partway.of_hasFired_bind h with rfl | ⟨fired, hgoes⟩
  · exact .inl Event.begins_nil
  cases fired with
  | true =>
    obtain ⟨rfl, _⟩ := hgoes.of_pure
    exact .inl Event.begins_nil
  | false =>
    rcases send_partway hgoes with rfl | ⟨more, hunit, rfl⟩
    · exact .inl Event.begins_nil
    refine .inr ?_
    have hbegun : Event.Begins [.unitStarted r.run e.unit.label e.token] [e.unit.label] :=
      ⟨rfl, by simp [Event.resolvedToken?]⟩
    have hmore := (BeginsNothing.inRun _).bind (BeginsNothing.conclude e started) _ _ hunit
    simpa [List.filterMap_cons] using hbegun.append hmore

theorem executeAll_partway {entries : List (Entry σ)} {started : Nat} {rest : RunActivity σ Progress}
    (h : Partway (r.executeAll signal started entries) items rest) :
    ∃ n, Event.Begins (items.filterMap (Report.sentTo? r.sink))
      ((entries.take n).map (·.unit.label)) := by
  induction entries generalizing started items with
  | nil =>
    obtain ⟨rfl, _⟩ := h.of_pure
    exact ⟨0, Event.begins_nil⟩
  | cons e es ih =>
    rw [executeAll_cons] at h
    rcases h.of_bind with ⟨_, hfirst, _⟩ | ⟨p, first, more, hfirst, hmore, rfl⟩
    · rcases execute_partway hfirst with hbegins | hbegins
      · exact ⟨0, hbegins⟩
      · exact ⟨1, hbegins⟩
    · rw [List.filterMap_append]
      obtain ⟨n, f | _⟩ := p
      · obtain ⟨rfl, _⟩ := hmore.of_pure
        rw [List.filterMap_nil, List.append_nil]
        rcases execute_partway hfirst.partway with hbegins | hbegins
        · exact ⟨0, hbegins⟩
        · exact ⟨1, hbegins⟩
      · obtain ⟨m, hrest⟩ := ih hmore
        refine ⟨m + 1, ?_⟩
        rcases execute_puts [] hfirst with ⟨_, _, hevents⟩ | ⟨_, hfailed, _⟩
        · rw [hevents]
          exact Event.Begins.append ⟨rfl, by simp [Event.resolvedToken?]⟩ hrest
        · cases hfailed

end Reporter

/-- On the way through the units of a plan some of them are begun, in their order. -/
theorem Plan.carryOut_partway {p : Plan σ} (sink : r.sink = p.sink) {rest : RunActivity σ Outcome}
    (h : Partway (p.carryOut r signal) items rest) :
    ∃ n, Event.Begins (items.filterMap (Report.sentTo? p.sink)) (p.labels.take n) := by
  rw [← sink]
  rcases Reporter.send_partway h with rfl | ⟨more, hgoes, rfl⟩
  · exact ⟨0, Event.begins_nil⟩
  have hstarted : Event.Begins [.runStarted r.run p.strategy.name] [] := Event.begins_single rfl rfl
  rw [List.filterMap_cons, Report.sentTo?_event]
  rcases hgoes.of_bind with ⟨_, hunits, _⟩ | ⟨progress, first, last, hunits, hclose, rfl⟩
  · obtain ⟨n, hbegins⟩ := Reporter.executeAll_partway hunits
    rw [List.map_take] at hbegins
    exact ⟨n, hstarted.append hbegins⟩
  · obtain ⟨n, hbegins⟩ := Reporter.executeAll_partway hunits.partway
    rw [List.map_take] at hbegins
    refine ⟨n, ?_⟩
    rw [List.filterMap_append]
    simpa [Plan.labels] using hstarted.append (hbegins.append (Reporter.BeginsNothing.finish _ _ _ hclose))

section Through

variable {run : String} {work : List (String × String)} {events : List Event}

/-- Units that are executed in a row and all end well have all been begun. -/
theorem Blocks.begun_eq (h : Blocks run work events (.ok ())) :
    events.filterMap Event.startedUnit? = work.map (·.2) := by
  generalize hended : (Except.ok () : Outcome) = ended at h
  induction h with
  | through => rfl
  | completed _ ih => exact congrArg (List.cons _) (ih hended)
  | barred | failed | left => cases hended

/-- If they do not all end well, that is a cancellation or an event tells of it. -/
theorem Blocks.exists_alarm {f : Fault} (h : Blocks run work events (.error f)) :
    f.isCancelled = true ∨ ∃ e ∈ events, e.isAlarm = true := by
  generalize hended : (Except.error f : Outcome) = ended at h
  induction h with
  | through => cases hended
  | completed _ ih =>
    rcases ih hended with hcancelled | ⟨e, he, halarm⟩
    · exact .inl hcancelled
    · exact .inr ⟨e, List.mem_cons_of_mem _ (List.mem_cons_of_mem _ he), halarm⟩
  | failed => exact .inr ⟨_, List.mem_cons_of_mem _ List.mem_cons_self, rfl⟩
  | barred | left =>
    cases hended
    exact .inl rfl

end Through

/-- Whoever has come to the end of carrying out a plan, without an alarm, has begun all its units. -/
theorem Plan.carryOut_puts {p : Plan σ} (sink : r.sink = p.sink) {outcome : Outcome}
    (h : Puts (p.carryOut r signal) items outcome)
    (quiet : ∀ e ∈ items.filterMap (Report.sentTo? p.sink), e.isAlarm = false) :
    (items.filterMap (Report.sentTo? p.sink)).filterMap Event.startedUnit? = p.labels := by
  rw [← sink] at quiet ⊢
  obtain ⟨more, hgoes, rfl⟩ := Puts.of_tell_bind h
  obtain ⟨⟨n, ended⟩, first, last, hunits, hclose, rfl⟩ := hgoes.of_bind
  obtain ⟨closing, hclosing, hcloses⟩ := Reporter.finish_puts hclose
  obtain ⟨hblocks, _⟩ := Reporter.executeAll_puts hunits
  have hevents : (Report.event r.sink (.runStarted r.run p.strategy.name) ::
      (first ++ last)).filterMap (Report.sentTo? r.sink) =
        .runStarted r.run p.strategy.name :: (first.filterMap (Report.sentTo? r.sink) ++ [closing]) := by
    rw [List.filterMap_cons, Report.sentTo?_event, List.filterMap_append, hclosing]
  have hlast : [closing].filterMap Event.startedUnit? = [] := by cases hcloses <;> rfl
  rw [hevents] at quiet ⊢
  cases ended with
  | ok =>
    have hbegun := hblocks.begun_eq
    rw [List.map_map] at hbegun
    rw [List.filterMap_cons_none rfl, List.filterMap_append, hbegun, hlast, List.append_nil]
    rfl
  | error f =>
    rcases hblocks.exists_alarm with hcancelled | ⟨e, he, halarm⟩
    · have halarm : closing.isAlarm = true := by
        cases hcloses with
        | hushed other | failed other => cases hcancelled.symm.trans other
        | cancelled => rfl
      cases halarm.symm.trans (quiet closing (by simp))
    · cases halarm.symm.trans (quiet e (by simp [he]))

end Begun

end Flowchart
