import Flowchart.Proofs.Run.Alike
import Flowchart.Proofs.Run.Withdrawn

/-! The events of a run carry its id. Runs with the same id that show the same of their units have the
same events of units. -/
namespace Flowchart

variable {σ υ : Type} {run : String} {events : List Event}

theorem Blocks.run_eq {work : List (String × String)} {outcome : Outcome}
    (h : Blocks run work events outcome) : ∀ e ∈ events, e.run = run := by
  induction h with
  | through | barred => nofun
  | completed _ ih =>
    intro e he
    rcases List.mem_cons.mp he with rfl | he
    · rfl
    · rcases List.mem_cons.mp he with rfl | he
      · rfl
      · exact ih e he
  | failed | left => simp [Event.run]

theorem Segments.run_eq {outcome : Outcome} (h : Segments run events outcome) :
    ∀ e ∈ events, e.run = run := by
  induction h with
  | through | halted => nofun
  | onward body _ ih =>
    intro e he
    rcases List.mem_cons.mp he with rfl | he
    · rfl
    · rcases List.mem_append.mp he with he | he
      · exact body.run_eq e he
      · exact ih e he
  | stopped body =>
    intro e he
    rcases List.mem_cons.mp he with rfl | he
    · rfl
    · exact body.run_eq e he

theorem Closes.run_eq {surfaceFailures : Bool} {n : Nat} {ended told : Outcome} {last : Event}
    (h : Closes run surfaceFailures n ended last told) : last.run = run := by
  cases h <;> rfl

theorem Trace.run_eq {c : Compiled σ} {outcome : Outcome} (h : Trace run c events outcome) :
    ∀ e ∈ events, e.run = run := by
  have hwhole : ∀ {first last : Event} {body : List Event}, first.run = run →
      (∀ e ∈ body, e.run = run) → last.run = run → ∀ e ∈ first :: (body ++ [last]), e.run = run := by
    intro first last body hfirst hbody hlast e he
    rcases List.mem_cons.mp he with rfl | he
    · exact hfirst
    · rcases List.mem_append.mp he with he | he
      · exact hbody e he
      · exact List.mem_singleton.mp he ▸ hlast
  cases h with
  | plan body closed => exact hwhole rfl body.run_eq closed.run_eq
  | tour body closed => exact hwhole rfl body.run_eq closed.run_eq

namespace Compiled

/-- What is sent in a run that comes to its end carries the id of its reporter. -/
theorem run_of_sent {c : Compiled σ} {signal : Signal} {others : Company (World σ) Report}
    {stage : RunStage σ} {told : Outcome} {final : Scene (World σ) Report}
    (hready : c.Ready { stage })
    (hplay : (c.execute signal).play others { stage } = (some told, final)) :
    ∀ e ∈ final.sent c.sink, e.run = stage.state.nextRun := by
  obtain ⟨items, hputs, hsent⟩ := Activity.Puts.sent_eq hplay c.sink
  have hsent : final.sent c.sink = items.filterMap (Report.sentTo? c.sink) := hsent
  rcases execute_puts hputs with ⟨-, hnone⟩ | ⟨run, htrace⟩
  · rw [hsent, hnone]
    exact fun _ => nofun
  · rw [← hsent] at htrace
    -- The first event of the run tells its id, and the reporter has announced it.
    rw [play_ready hready] at hplay
    obtain ⟨rest, -, hafter⟩ := Activity.Puts.sent_eq hplay c.sink
    rw [sent_outset] at hafter
    have hfirst := htrace.run_eq (.runStarted stage.state.nextRun c.strategy.name) (by
      rw [hafter]
      exact List.mem_append_left _ List.mem_cons_self)
    obtain rfl : run = stage.state.nextRun := hfirst.symm
    exact htrace.run_eq

end Compiled

def Event.signed (run : String) : Event → Event
  | runStarted _ producer => runStarted run producer
  | tokenResolved _ token units => tokenResolved run token units
  | unitStarted _ unit token => unitStarted run unit token
  | unitCompleted _ unit token => unitCompleted run unit token
  | unitFailed _ unit token error => unitFailed run unit token error
  | runCompleted _ n => runCompleted run n
  | runFailed _ n error => runFailed run n error
  | runCancelled _ n => runCancelled run n

theorem Event.signed_anonymous (e : Event) : e.anonymous.signed e.run = e := by
  cases e <;> rfl

theorem Event.filter_unit_eq (h : ∀ e ∈ events, e.run = run) :
    events.filter (·.unit?.isSome) = (events.filterMap ofUnit?).map (signed run) := by
  induction events with
  | nil => rfl
  | cons e rest ih =>
    have hrest := ih fun e he => h e (List.mem_cons_of_mem _ he)
    have he : e.anonymous.signed run = e := h e List.mem_cons_self ▸ e.signed_anonymous
    cases hunit : e.unit?.isSome with
    | true =>
      have hofUnit : e.ofUnit? = some e.anonymous := if_pos hunit
      rw [List.filter_cons, if_pos hunit, List.filterMap_cons_some hofUnit, List.map_cons, he, hrest]
    | false =>
      have hnone : ¬ e.unit?.isSome = true := Bool.eq_false_iff.mp hunit
      have hofUnit : e.ofUnit? = none := if_neg hnone
      rw [List.filter_cons, if_neg hnone, List.filterMap_cons_none hofUnit, hrest]

theorem Scene.SameUnits.filter_unit_eq {U : σ → υ} {sink : Sink} {a b : Scene (World σ) Report}
    (h : SameUnits U sink a b) (ha : ∀ e ∈ a.sent sink, e.run = run)
    (hb : ∀ e ∈ b.sent sink, e.run = run) :
    (a.sent sink).filter (·.unit?.isSome) = (b.sent sink).filter (·.unit?.isSome) := by
  rw [Event.filter_unit_eq ha, Event.filter_unit_eq hb, h.events]

end Flowchart
