import Flowchart.Proofs.Activity.View
import Flowchart.Proofs.Run.Begun

/-! Runs that execute the same units, as far as these can be seen. -/
namespace Flowchart

def Event.anonymous : Event → Event
  | runStarted _ producer => runStarted "" producer
  | tokenResolved _ token units => tokenResolved "" token units
  | unitStarted _ unit token => unitStarted "" unit token
  | unitCompleted _ unit token => unitCompleted "" unit token
  | unitFailed _ unit token error => unitFailed "" unit token error
  | runCompleted _ n => runCompleted "" n
  | runFailed _ n error => runFailed "" n error
  | runCancelled _ n => runCancelled "" n

def Event.ofUnit? (e : Event) : Option Event := if e.unit?.isSome then some e.anonymous else none

def Report.ofUnits? : Report → Option Report
  | event sink e => e.ofUnit?.map (event sink)
  | log line => some (log line)

variable {σ υ τ : Type}

/-- Seeing the units of runs at work, and what they see of the host's state. -/
def View.ofUnits (U : σ → υ) : View (World σ) Report υ Report := ⟨U ∘ World.host, Report.ofUnits?⟩

/-- A unit sees no more than `U` of the host's state, and it does not touch the part `T`. -/
def FlowUnit.Discreet (U : σ → υ) (T : σ → τ) (signal : Signal) (u : FlowUnit σ) : Prop :=
  ∀ s t, U s = U t → (Activity.Twin ⟨U, some⟩ T (u.execute signal) s (u.execute signal) t)

/-- Two scenes show the same of units, and what units see of the state and the signals is the same. -/
structure Scene.SameUnits (U : σ → υ) (sink : Sink) (a b : Scene (World σ) Report) : Prop where
  events : (a.sent sink).filterMap Event.ofUnit? = (b.sent sink).filterMap Event.ofUnit?
  host : U a.stage.state.host = U b.stage.state.host
  signals : a.stage.signals = b.stage.signals

variable {U : σ → υ} {T : σ → τ}

theorem Event.unitsBegun_ofUnit? (events : List Event) :
    unitsBegun (events.filterMap ofUnit?) = unitsBegun events := by
  unfold unitsBegun
  rw [List.filterMap_filterMap]
  congr 2
  funext e
  cases e <;> rfl

theorem Scene.SameUnits.unitsBegun_eq {sink : Sink} {a b : Scene (World σ) Report}
    (h : SameUnits U sink a b) :
    Event.unitsBegun (a.sent sink) = Event.unitsBegun (b.sent sink) := by
  rw [← Event.unitsBegun_ofUnit?, h.events, Event.unitsBegun_ofUnit?]

/-- Scenes that look the same to somebody who sees the units show the same of them. -/
theorem Scene.sameUnits_of_scene_eq {a b : Scene (World σ) Report}
    (h : (View.ofUnits U).scene a = (View.ofUnits U).scene b) (sink : Sink) : SameUnits U sink a b := by
  obtain ⟨hhost, hsignals, _, hdeeds⟩ := View.scene_eq_iff.mp h
  have hevents : ∀ sc : Scene (World σ) Report, (sc.sent sink).filterMap Event.ofUnit? =
      (sc.deeds.filterMap (Deed.seen? Report.ofUnits?)).filterMap (Deed.sentTo? sink) := by
    intro sc
    rw [Scene.sent, List.filterMap_filterMap, List.filterMap_filterMap]
    congr 1
    funext d
    cases d with
    | waited => rfl
    | put o =>
      cases o with
      | log line => rfl
      | event s e =>
        by_cases hs : s = sink <;> cases hu : e.ofUnit? <;>
          simp [Deed.seen?, Deed.sentTo?, Deed.item?, Report.sentTo?, Report.ofUnits?, hs, hu]
  exact ⟨by rw [hevents, hevents]; exact congrArg _ hdeeds, hhost, hsignals⟩

open Activity (Twin)

/-- Where units see all of the state, none of it is to be left alone. -/
theorem FlowUnit.discreet_id (u : FlowUnit σ) (signal : Signal) :
    u.Discreet id (fun _ => ()) signal := by
  rintro s t rfl
  exact Twin.refl Function.injective_id _ s

theorem Activity.Twin.inRun {α : Type} {a b : Activity σ LogLine α} {s t : σ}
    (h : Twin ⟨U, some⟩ T a s b t) (seen : Report → Option Report) (w w' : World σ)
    (hs : w.host = s) (ht : w'.host = t) :
    Twin ⟨U ∘ World.host, seen⟩ (T ∘ World.host) a.inRun w b.inRun w' := by
  unfold Activity.inRun
  induction h generalizing w w' with
  | done => exact .done
  | crash => exact .crash
  | get _ ih =>
    subst hs ht
    exact .get (ih w w' rfl rfl)
  | set same kept _ ih =>
    subst hs ht
    exact .get (.set same kept (ih _ _ rfl rfl))
  | emit same _ ih =>
    cases same
    exact .emit rfl (ih w w' hs ht)
  | fire _ ih => exact .fire (ih w w' hs ht)
  | poll _ ih => exact .poll fun fired => ih fired w w' hs ht
  | wait _ ih => exact .wait fun cut v v' same => ih cut v.host v'.host same v v' rfl rfl

namespace Closes

variable {run run' : String} {surfaceFailures : Bool} {n : Nat} {ended told told' : Outcome}
  {last last' : Event}

theorem ofUnit?_eq_none (h : Closes run surfaceFailures n ended last told) : last.ofUnit? = none := by
  cases h <;> rfl

/-- How a run is closed depends on its id only in that the last event carries it. -/
theorem anonymous_eq (h : Closes run surfaceFailures n ended last told)
    (h' : Closes run' surfaceFailures n ended last' told') :
    told = told' ∧ last.anonymous = last'.anonymous := by
  cases h <;> cases h' <;> simp_all [Event.anonymous]

end Closes

/-- Two runs are told to end in the same way, and their last events say the same. -/
def Scene.SameEnd (sink : Sink) (a b : Option Outcome × Scene (World σ) Report) : Prop :=
  a.1 = b.1 ∧ (a.1 ≠ none →
    (a.2.sent sink).getLast?.map Event.anonymous = (b.2.sent sink).getLast?.map Event.anonymous)

namespace Reporter

variable {r r' : Reporter} {signal : Signal}

section Twins

variable {seen : Report → Option Report}

theorem send_twin {e e' : Event} (he : seen (.event r.sink e) = seen (.event r'.sink e'))
    (w w' : World σ) :
    Twin ⟨U ∘ World.host, seen⟩ (T ∘ World.host) (r.send e) w (r'.send e') w' := .tell he w w'

/-- Whoever sees of events what they say of units, whichever the run, sees the same of two runs. -/
theorem ofUnits?_event (hsink : r.sink = r'.sink) (event : String → Event)
    (hevent : ∀ a b, (event a).ofUnit? = (event b).ofUnit?) :
    Report.ofUnits? (.event r.sink (event r.run)) = Report.ofUnits? (.event r'.sink (event r'.run)) := by
  change (event r.run).ofUnit?.map (Report.event r.sink) =
    (event r'.run).ofUnit?.map (Report.event r'.sink)
  rw [hevent r.run r'.run, hsink]

variable (hseen : ∀ event : String → Event, (∀ a b, (event a).ofUnit? = (event b).ofUnit?) →
  seen (.event r.sink (event r.run)) = seen (.event r'.sink (event r'.run)))
include hseen

theorem execute_twin {e : Entry σ} (he : e.unit.Discreet U T signal) (started : Nat)
    {w w' : World σ} (same : U w.host = U w'.host) :
    Twin ⟨U ∘ World.host, seen⟩ (T ∘ World.host) (r.execute signal e started) w
      (r'.execute signal e started) w' := by
  refine (Twin.hasFired signal w w').bind same fun fired w w' same => ?_
  cases fired with
  | true => exact .done
  | false =>
    have hbegun := hseen (.unitStarted · e.unit.label e.token) fun _ _ => rfl
    refine (send_twin hbegun w w').bind same fun _ w w' same => ?_
    refine ((he _ _ same).inRun seen w w' rfl rfl).bind same fun result w w' same => ?_
    cases result with
    | ok =>
      have hdone := hseen (.unitCompleted · e.unit.label e.token) fun _ _ => rfl
      exact (send_twin hdone w w').bind same fun _ _ _ _ => .done
    | error f =>
      cases hf : f.isCancelled with
      | true =>
        simp only [hf, if_true]
        exact .done
      | false =>
        have hfailed := hseen (.unitFailed · e.unit.label e.token f.message) fun _ _ => rfl
        simp only [hf]
        exact (send_twin hfailed w w').bind same fun _ _ _ _ => .done

theorem executeAll_twin {entries : List (Entry σ)}
    (hentries : ∀ e ∈ entries, e.unit.Discreet U T signal) (started : Nat) {w w' : World σ}
    (same : U w.host = U w'.host) :
    Twin ⟨U ∘ World.host, seen⟩ (T ∘ World.host) (r.executeAll signal started entries) w
      (r'.executeAll signal started entries) w' := by
  induction entries generalizing started w w' with
  | nil => exact .done
  | cons e rest ih =>
    have he := hentries e List.mem_cons_self
    refine (execute_twin hseen he started same).bind same fun p w w' same => ?_
    obtain ⟨started, f | _⟩ := p
    · exact .done
    · exact ih (fun e he => hentries e (List.mem_cons_of_mem _ he)) started same

end Twins

section Finish

variable {others : Company (World σ) Report} {sc sc' : Scene (World σ) Report}

theorem sameUnits_finish (hsink : r.sink = r'.sink)
    (h : (View.ofUnits U).scene sc = (View.ofUnits U).scene sc') (p q : Progress) :
    ((r.finish p).play others sc).2.SameUnits U r.sink ((r'.finish q).play others sc').2 := by
  obtain ⟨_, last, sc₁, hplay, hstate, hsignals, hsent, hcloses⟩ := r.play_finish others p sc
  obtain ⟨_, last', sc₁', hplay', hstate', hsignals', hsent', hcloses'⟩ :=
    r'.play_finish others q sc'
  have hsame := Scene.sameUnits_of_scene_eq h r.sink
  rw [hplay, hplay']
  refine ⟨?_, ?_, ?_⟩
  · rw [← hsink] at hsent'
    rw [hsent, hsent', List.filterMap_append, List.filterMap_append, hsame.events]
    simp [hcloses.ofUnit?_eq_none, hcloses'.ofUnit?_eq_none]
  · rw [hstate, hstate']
    exact hsame.host
  · rw [hsignals, hsignals']
    exact hsame.signals

theorem sameEnd_finish (hsink : r.sink = r'.sink) (htold : r.surfaceFailures = r'.surfaceFailures)
    (p : Progress) : Scene.SameEnd r.sink ((r.finish p).play others sc)
      ((r'.finish p).play others sc') := by
  obtain ⟨_, last, sc₁, hplay, _, _, hsent, hcloses⟩ := r.play_finish others p sc
  obtain ⟨_, last', sc₁', hplay', _, _, hsent', hcloses'⟩ := r'.play_finish others p sc'
  obtain ⟨hresult, hlast⟩ := hcloses.anonymous_eq (htold ▸ hcloses')
  rw [← hsink] at hsent'
  rw [hplay, hplay']
  refine ⟨congrArg some hresult, fun _ => ?_⟩
  simp [hsent, hsent', hlast]

end Finish

end Reporter

end Flowchart
