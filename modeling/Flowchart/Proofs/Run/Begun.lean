import Flowchart.Proofs.Activity.Scenes
import Flowchart.Proofs.Run.Beginning
import Flowchart.Proofs.Run.Trace

/-! Which units of a run have been begun in a scene, and which still can be. -/
namespace Flowchart

variable {σ : Type}

def Deed.sentTo? (sink : Sink) (d : Deed Report) : Option Event :=
  d.item?.bind (Report.sentTo? sink)

def Deed.begins? (sink : Sink) (d : Deed Report) : Option String :=
  (d.sentTo? sink).bind Event.startedUnit?

def Scene.sent (sc : Scene (World σ) Report) (sink : Sink) : List Event :=
  sc.deeds.filterMap (Deed.sentTo? sink)

theorem Scene.unitsBegun_sent (sc : Scene (World σ) Report) (sink : Sink) :
    Event.unitsBegun (sc.sent sink) = (sc.deeds.filterMap (Deed.begins? sink)).length := by
  unfold Event.unitsBegun Scene.sent Deed.begins?
  rw [List.filterMap_filterMap]

theorem Scene.sent_eq (sc : Scene (World σ) Report) (sink : Sink) :
    sc.sent sink = (sc.deeds.filterMap Deed.item?).filterMap (Report.sentTo? sink) := by
  rw [List.filterMap_filterMap]
  rfl

/-- What was put out says which units were begun. -/
theorem Scene.begins_congr {sc sc' : Scene (World σ) Report}
    (h : sc.deeds.filterMap Deed.item? = sc'.deeds.filterMap Deed.item?) (sink : Sink) :
    sc.deeds.filterMap (Deed.begins? sink) = sc'.deeds.filterMap (Deed.begins? sink) := by
  have hbegins : ∀ sc : Scene (World σ) Report,
      sc.deeds.filterMap (Deed.begins? sink) = (sc.sent sink).filterMap Event.startedUnit? := by
    intro sc
    unfold sent Deed.begins?
    rw [List.filterMap_filterMap]
  rw [hbegins, hbegins, sent_eq, sent_eq, h]

theorem Deed.begins?_event {sink s : Sink} {e : Event} (h : e.startedUnit? = none) :
    Deed.begins? sink (.put (.event s e)) = none := by
  by_cases hs : s = sink <;> simp [begins?, sentTo?, item?, Report.sentTo?, hs, h]

theorem Scene.unitsBegun_announced (sc : Scene (World σ) Report) (strategy : Strategy)
    (s sink : Sink) :
    Event.unitsBegun ((sc.announced strategy s).sent sink) = Event.unitsBegun (sc.sent sink) := by
  rw [unitsBegun_sent, unitsBegun_sent, announced, List.filterMap_append,
    List.filterMap_cons_none (Deed.begins?_event rfl)]
  exact congrArg List.length (List.append_nil _)

open Activity (Hides Puts StopsShowing)

/-- The events of what was played come after those before. -/
theorem Activity.Puts.sent_eq {α : Type} {a : RunActivity σ α} {others : Company (World σ) Report}
    {sc sc' : Scene (World σ) Report} {x : α} (h : a.play others sc = (some x, sc')) (sink : Sink) :
    ∃ items, Puts a items x ∧ sc'.sent sink = sc.sent sink ++ items.filterMap (Report.sentTo? sink) := by
  obtain ⟨items, ha, hitems⟩ := Puts.of_play h
  exact ⟨items, ha, by rw [Scene.sent_eq, Scene.sent_eq, hitems, List.filterMap_append]⟩

namespace Reporter

variable {r : Reporter} {signal : Signal} {others : Company (World σ) Report}
  {sc : Scene (World σ) Report}

theorem begun_executeAll {entries : List (Entry σ)} {started ended : Nat}
    {sc' : Scene (World σ) Report}
    (h : (r.executeAll signal started entries).play others sc = (some ⟨ended, .ok ()⟩, sc')) :
    Event.unitsBegun (sc'.sent r.sink) = Event.unitsBegun (sc.sent r.sink) + entries.length := by
  obtain ⟨items, hputs, hsent⟩ := Puts.sent_eq h r.sink
  rw [hsent, Event.unitsBegun_append, (executeAll_puts hputs).1.unitsBegun_eq, List.length_map]

theorem play_finish (r : Reporter) (others : Company (World σ) Report) (p : Progress)
    (sc : Scene (World σ) Report) :
    ∃ told last sc', (r.finish p).play others sc = (some told, sc') ∧
      sc'.stage.state = sc.stage.state ∧ sc'.stage.signals = sc.stage.signals ∧
      sc'.sent r.sink = sc.sent r.sink ++ [last] ∧
      Closes r.run r.surfaceFailures p.started p.outcome last told := by
  have hplay : ∃ told sc', (r.finish p).play others sc = (some told, sc') ∧
      sc'.stage.state = sc.stage.state ∧ sc'.stage.signals = sc.stage.signals := by
    obtain ⟨n, f | _⟩ := p
    · unfold finish
      dsimp only
      split
      · exact ⟨_, _, rfl, rfl, rfl⟩
      · split <;> exact ⟨_, _, rfl, rfl, rfl⟩
    · exact ⟨_, _, rfl, rfl, rfl⟩
  obtain ⟨told, sc', hplay, hstate, hsignals⟩ := hplay
  obtain ⟨items, hputs, hsent⟩ := Puts.sent_eq hplay r.sink
  obtain ⟨last, hlast, hcloses⟩ := finish_puts hputs
  exact ⟨told, last, sc', hplay, hstate, hsignals, hlast ▸ hsent, hcloses⟩

section StopsBeginning

variable {sink : Sink}

theorem hides_begins_inRun {α : Type} (a : Activity σ LogLine α) :
    Hides (Deed.begins? sink) (a.inRun : RunActivity σ α) :=
  Hides.embed (fun _ => rfl) (fun _ _ => rfl) a

theorem hides_begins_send {e : Event} (h : e.startedUnit? = none) :
    Hides (Deed.begins? sink) (r.send e : RunActivity σ Unit) :=
  .tell (Deed.begins?_event h)

theorem hides_begins_finish (p : Progress) :
    Hides (Deed.begins? sink) (r.finish p : RunActivity σ Outcome) :=
  finish_passes Hides.pure Hides.bind (fun _ _ h _ => hides_begins_send h) (fun _ => .tell rfl) p

theorem hides_begins_start (strategy : Strategy) (s : Sink) (surfaceFailures : Bool) :
    Hides (Deed.begins? sink) (start strategy s surfaceFailures : RunActivity σ Reporter) := by
  intro others sc
  rw [play_start, Scene.announced, List.filterMap_append,
    List.filterMap_cons_none (Deed.begins?_event rfl)]
  exact List.append_nil _

theorem hides_begins_conclude (e : Entry σ) (started : Nat) (outcome : Outcome) :
    Hides (Deed.begins? sink) (r.conclude e started outcome) :=
  conclude_passes Hides.pure Hides.bind (fun _ _ h _ => hides_begins_send h) e started outcome

variable (hothers : others.KeepsFirings)
include hothers

theorem execute_stops (e : Entry σ) (started : Nat) (sc : Scene (World σ) Report) :
    StopsShowing (Deed.begins? sink) signal others (r.execute signal e started) sc := by
  rw [execute_eq]
  refine StopsShowing.bind hothers (.of_hides (.hasFired signal) sc) fun fired sc₁ hpoll => ?_
  cases hpoll
  cases hfired : sc.stage.signals.has signal with
  | true => exact .of_hides (.pure _) sc
  | false =>
    refine StopsShowing.bind hothers (.tell hfired) fun _ sc₁ _ => .of_hides ?_ sc₁
    exact (hides_begins_inRun _).bind (hides_begins_conclude e started)

theorem stops_passes : Passes (fun _ (a : RunActivity σ _) =>
    ∀ sc, StopsShowing (Deed.begins? sink) signal others a sc) r signal where
  pure _ sc := .of_hides (.pure _) sc
  bind ha hf sc := StopsShowing.bind hothers (ha sc) fun x sc₁ _ => hf x sc₁
  hasFired sc := .of_hides (.hasFired signal) sc
  inRun a sc := .of_hides (hides_begins_inRun a) sc
  execute := execute_stops hothers

theorem executeAll_stops (entries : List (Entry σ)) (started : Nat) (sc : Scene (World σ) Report) :
    StopsShowing (Deed.begins? sink) signal others (r.executeAll signal started entries) sc :=
  (stops_passes hothers).executeAll entries started sc

theorem walk_stops (t : TokenTree (Token σ)) (limit left : Nat) (ahead seen : List TokenId)
    (started : Nat) (sc : Scene (World σ) Report) :
    StopsShowing (Deed.begins? sink) signal others
      (r.walk signal t limit left ahead seen started) sc :=
  TokenTree.passes_walk (stops_passes hothers)
    (fun _ _ sc => .of_hides (hides_begins_send rfl) sc) t limit left ahead seen started sc

end StopsBeginning

end Reporter

/-- Once its signal has fired a run begins no more units. -/
theorem Compiled.execute_stops {others : Company (World σ) Report} (hothers : others.KeepsFirings)
    (sink : Sink) (c : Compiled σ) (signal : Signal) (sc : Scene (World σ) Report) :
    StopsShowing (Deed.begins? sink) signal others (c.execute signal) sc := by
  have hfinish : ∀ (r : Reporter) p sc, StopsShowing (Deed.begins? sink) signal others
      (r.finish p : RunActivity σ Outcome) sc :=
    fun r p sc => .of_hides (Reporter.hides_begins_finish p) sc
  have hstart : ∀ strategy s told sc, StopsShowing (Deed.begins? sink) signal others
      (Reporter.start strategy s told : RunActivity σ Reporter) sc :=
    fun strategy s told sc => .of_hides (Reporter.hides_begins_start strategy s told) sc
  cases c with
  | plan p =>
    have hread : Hides (Deed.begins? sink) (.read : RunActivity σ (World σ)) := fun _ _ => rfl
    have hset : ∀ w, Hides (Deed.begins? sink) (.set w (.done ()) : RunActivity σ Unit) :=
      fun _ _ _ => rfl
    refine StopsShowing.bind hothers (.of_hides hread sc) fun w sc _ => ?_
    split
    · exact .of_hides (Hides.bind (.tell rfl) fun _ => .pure _) sc
    · refine StopsShowing.bind hothers (.of_hides (hset _) sc) fun _ sc _ => ?_
      refine StopsShowing.bind hothers (hstart _ _ _ sc) fun r sc _ => ?_
      exact StopsShowing.bind hothers (Reporter.executeAll_stops hothers _ _ sc)
        fun p sc _ => hfinish r p sc
  | tour t =>
    have hexecute : (Compiled.tour t).execute signal = t.execute signal := rfl
    rw [hexecute, Tour.execute_eq]
    refine StopsShowing.bind hothers (hstart _ _ _ sc) fun r sc _ => ?_
    refine StopsShowing.bind hothers ?_ fun p sc _ => hfinish r p sc
    unfold Tour.pass
    split
    · exact .of_hides (.pure _) sc
    · exact Reporter.walk_stops hothers _ _ _ _ _ _ sc

/-- The signal does not fire while an activity is played, or before the last
of `n` units is begun. -/
def Activity.InTime (signal : Signal) (sink : Sink) (n : Nat) (others : Company (World σ) Report)
    (a : RunActivity σ Outcome) (sc : Scene (World σ) Report) : Prop :=
  (∀ s ∈ a.scenes others sc, s.stage.signals.has signal = false) ∨
    ∃ s ∈ a.scenes others sc, s.stage.signals.has signal = true ∧ Event.unitsBegun (s.sent sink) < n

/-- If the signal of a run has fired in the end, and in time, there are
units left that were not begun. -/
theorem Compiled.unitsBegun_ne_of_inTime {others : Company (World σ) Report}
    (hothers : others.KeepsFirings) (c : Compiled σ) {signal : Signal} {sink : Sink} {n : Nat}
    {sc : Scene (World σ) Report} (h : (c.execute signal).InTime signal sink n others sc)
    (hfired : ((c.execute signal).play others sc).2.stage.signals.has signal = true) :
    Event.unitsBegun (((c.execute signal).play others sc).2.sent sink) ≠ n := by
  rcases h with hquiet | ⟨s, hs, hs', hlt⟩
  · rw [hquiet _ (Activity.last_mem_scenes _ _)] at hfired
    cases hfired
  · have hstops := c.execute_stops hothers sink signal sc s hs hs'
    rw [Scene.unitsBegun_sent] at hlt ⊢
    rw [← hstops]
    exact Nat.ne_of_lt hlt

end Flowchart
