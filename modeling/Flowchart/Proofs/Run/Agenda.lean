import Mathlib.Logic.Relation
import Flowchart.Proofs.Run.Begun
import Flowchart.Proofs.Walk.Guarded

/-! What a run has still to do when it looks at its signal, and what it does between two looks: it
executes one unit, or resolves one token. -/
namespace Flowchart

variable {σ : Type}

/-- The units that were put in and not begun yet, and how the walk goes on after them. -/
structure Agenda (σ : Type) where
  units : List (Entry σ)
  ahead : List TokenId := []
  seen : List TokenId := []
  left : Nat := 0

def Agenda.isClear (g : Agenda σ) : Bool := g.units.isEmpty && g.ahead.isEmpty

/-- Where a run is when it looks at its signal: its agenda, how many units
were begun, and the scene. -/
structure Stand (σ : Type) where
  agenda : Agenda σ
  started : Nat
  scene : Scene (World σ) Report

def Stand.HasFired (u : Stand σ) (signal : Signal) : Prop := u.scene.stage.signals.has signal = true

namespace Reporter

def goOn (r : Reporter) (signal : Signal) (t : TokenTree (Token σ)) (limit : Nat) (g : Agenda σ)
    (started : Nat) : RunActivity σ Progress :=
  r.executeAll signal started g.units >>=
    Progress.onward (r.walk signal t limit g.left g.ahead g.seen)

def resolve (r : Reporter) (token : Token σ) : RunActivity σ (Outcome × List (Entry σ)) := do
  let (outcome, acc) ← (token.resolve.within { current := token.label }).inRun
  match token.resolved outcome with
  | .error f => return (.error f, acc.entries.toList)
  | .ok () =>
    r.send (.tokenResolved r.run token.label acc.entries.size)
    return (.ok (), acc.entries.toList)

/-- What a run does from one look at its signal to the next: it executes a
unit or resolves a token. -/
inductive Takes (r : Reporter) (signal : Signal) (t : TokenTree (Token σ))
    (others : Company (World σ) Report) : Stand σ → Option Outcome → Stand σ → Prop
  | unit {e : Entry σ} {units : List (Entry σ)} {ahead seen : List TokenId} {left started : Nat}
      {sc sc' : Scene (World σ) Report} {p : Option Progress}
      (quiet : sc.stage.signals.has signal = false)
      (executes : (r.execute signal e started).play others sc = (p, sc')) :
      Takes r signal t others ⟨⟨e :: units, ahead, seen, left⟩, started, sc⟩ (p.map (·.outcome))
        ⟨⟨units, ahead, seen, left⟩, started + 1, sc'⟩
  | token {id : TokenId} {ahead seen : List TokenId} {left started : Nat}
      {slot : TokenSlot (Token σ)} {units : List (Entry σ)} {sc sc' : Scene (World σ) Report}
      {outcome : Outcome} (quiet : sc.stage.signals.has signal = false)
      (visits : t.visit seen id = .ok slot)
      (resolves : (r.resolve slot.token).play others sc = (some (outcome, units), sc')) :
      Takes r signal t others ⟨⟨[], id :: ahead, seen, left + 1⟩, started, sc⟩ (some outcome)
        ⟨⟨units, Strategy.immediate.next slot ++ ahead, id :: seen, left⟩, started, sc'⟩

/-- A run comes from one look at its signal to another, and everything in between ends well. -/
abbrev ComesTo (r : Reporter) (signal : Signal) (t : TokenTree (Token σ))
    (others : Company (World σ) Report) : Stand σ → Stand σ → Prop :=
  Relation.ReflTransGen fun u v => r.Takes signal t others u (some (.ok ())) v

/-- The signal fires before the first look at it, or while a unit is
executed or a token is resolved. -/
inductive Fires (r : Reporter) (signal : Signal) (t : TokenTree (Token σ))
    (others : Company (World σ) Report) (first : Stand σ) : Option Outcome → Stand σ → Prop
  | before (fired : first.HasFired signal) : Fires r signal t others first (some (.ok ())) first
  | during {u v : Stand σ} {result : Option Outcome} (comes : r.ComesTo signal t others first u)
      (takes : r.Takes signal t others u result v) (fired : v.HasFired signal) :
      Fires r signal t others first result v

section

variable {r : Reporter} {signal : Signal} {t : TokenTree (Token σ)}
  {others : Company (World σ) Report} {limit : Nat} {u v w : Stand σ} {result : Option Outcome}

theorem attendTo_eq (token : Token σ) (started : Nat) : r.attendTo signal token started =
    .hasFired signal >>= fun fired =>
      if fired then return ⟨started, .error .cancelled⟩
      else r.resolve token >>= fun (outcome, units) => match outcome with
        | .error f => return ⟨started, .error f⟩
        | .ok () => r.executeAll signal started units := by
  unfold attendTo resolve
  refine bind_congr fun fired => ?_
  cases fired with
  | true => rfl
  | false =>
    simp only [Bool.false_eq_true, if_false, bind_assoc]
    refine bind_congr fun result => ?_
    cases token.resolved result.1 with
    | error f => rfl
    | ok => rfl

/-- Unless the signal has fired, the unit that is executed counts as begun, however it ends. -/
theorem execute_started {e : Entry σ} {started : Nat} {sc sc' : Scene (World σ) Report} {p : Progress}
    (quiet : sc.stage.signals.has signal = false)
    (h : (r.execute signal e started).play others sc = (some p, sc')) : p.started = started + 1 := by
  have hconclude : ∀ outcome, Activity.Ends (fun p : Progress => p.started = started + 1)
      (r.conclude e started outcome) := by
    apply conclude_cases
    · exact (Activity.Ends.trivial _).bind fun _ _ => .pure rfl
    · exact .pure rfl
    · exact fun f => (Activity.Ends.trivial _).bind fun _ _ => .pure rfl
  rw [execute_eq, Activity.play_hasFired_bind, quiet] at h
  simp only [Bool.false_eq_true, if_false] at h
  obtain ⟨_, sc₁, _, h⟩ := Activity.play_bind_eq_some_iff.mp h
  obtain ⟨outcome, sc₂, _, h⟩ := Activity.play_bind_eq_some_iff.mp h
  exact hconclude outcome others sc₂ p sc' h

theorem play_goOn_takes (h : r.Takes signal t others u result v) :
    (r.goOn signal t limit u.agenda u.started).play others u.scene = match result with
      | none => (none, v.scene)
      | some (.error f) => (some ⟨v.started, .error f⟩, v.scene)
      | some (.ok ()) => (r.goOn signal t limit v.agenda v.started).play others v.scene := by
  cases h with
  | @unit e units ahead seen left started sc sc' p quiet executes =>
    unfold goOn
    rw [executeAll_cons, Progress.bind_onward_bind, Activity.play_bind, executes]
    cases p with
    | none => rfl
    | some p =>
      have hstarted := execute_started quiet executes
      obtain ⟨n, outcome⟩ := p
      obtain rfl : n = started + 1 := hstarted
      cases outcome with
      | error f => rfl
      | ok => rfl
  | @token id ahead seen left started slot units sc sc' outcome quiet visits resolves =>
    have hwalk : r.goOn signal t limit ⟨[], id :: ahead, seen, left + 1⟩ started =
        r.walk signal t limit (left + 1) (id :: ahead) seen started := rfl
    rw [hwalk, TokenTree.walk_of_visited visits, attendTo_eq, bind_assoc, Activity.play_hasFired_bind,
      quiet]
    simp only [Bool.false_eq_true, if_false]
    rw [bind_assoc, Activity.play_bind, resolves]
    cases outcome with
    | error f => rfl
    | ok => rfl

/-- Once the signal has fired the run does nothing more, and is cancelled if anything is left. -/
theorem play_goOn_fired (h : u.HasFired signal) :
    (r.goOn signal t limit u.agenda u.started).play others u.scene =
      (some ⟨u.started, if u.agenda.isClear then .ok () else .error .cancelled⟩, u.scene) := by
  obtain ⟨⟨units, ahead, seen, left⟩, started, sc⟩ := u
  unfold goOn
  rw [Activity.play_bind, play_executeAll_fired h]
  cases units with
  | cons e units => rfl
  | nil =>
    cases ahead with
    | nil =>
      rw [if_pos rfl]
      simp only [Progress.onward, walk]
      rfl
    | cons id ahead =>
      have hpoll : ∀ f : Bool → RunActivity σ Progress,
          (Activity.hasFired signal >>= f).play others sc = (f true).play others sc := by
        intro f
        rw [Activity.play_hasFired_bind]
        exact congrArg (fun fired => (f fired).play others sc) h
      simp only [if_true, Progress.onward, walk, hpoll]
      rfl

theorem play_goOn_comesTo (h : r.ComesTo signal t others u v) :
    (r.goOn signal t limit u.agenda u.started).play others u.scene =
      (r.goOn signal t limit v.agenda v.started).play others v.scene := by
  induction h with
  | refl => rfl
  | tail _ takes ih => exact ih.trans (play_goOn_takes takes)

/-- How a run goes on whose signal fires: what is under way ends, and nothing is done after it. -/
theorem play_goOn_fires (h : r.Fires signal t others u result v) :
    (r.goOn signal t limit u.agenda u.started).play others u.scene = (match result with
      | none => none
      | some (.error f) => some ⟨v.started, .error f⟩
      | some (.ok ()) =>
        some ⟨v.started, if v.agenda.isClear then .ok () else .error .cancelled⟩, v.scene) := by
  cases h with
  | before fired => exact play_goOn_fired fired
  | during comes takes fired =>
    rw [play_goOn_comesTo comes, play_goOn_takes takes]
    rcases result with _ | ⟨f | _⟩
    · rfl
    · rfl
    · exact play_goOn_fired fired

theorem Fires.cons (takes : r.Takes signal t others u (some (.ok ())) v)
    (quiet : v.scene.stage.signals.has signal = false) (h : r.Fires signal t others v result w) :
    r.Fires signal t others u result w := by
  cases h with
  | before fired =>
    rw [Stand.HasFired, quiet] at fired
    cases fired
  | during comes takes' fired => exact .during (.head takes comes) takes' fired

theorem play_resolve (r : Reporter) (token : Token σ) (others : Company (World σ) Report)
    (sc : Scene (World σ) Report) : ∃ outcome units sc',
    (r.resolve token).play others sc = (some (outcome, units), sc') := by
  unfold resolve
  rw [Activity.play_bind, Filling.play_within]
  dsimp only
  cases token.resolved _ with
  | error f => exact ⟨_, _, _, rfl⟩
  | ok => exact ⟨_, _, _, rfl⟩

theorem play_halt_quiet {sc : Scene (World σ) Report} (quiet : sc.stage.signals.has signal = false)
    (f : Fault) (started : Nat) : (halt signal (some f) started).play others sc =
      (some ⟨started, .error f⟩, sc) := by
  rw [halt, Activity.play_hasFired_bind, quiet]
  rfl

theorem play_goOn_clear (h : u.agenda.isClear = true) :
    (r.goOn signal t limit u.agenda u.started).play others u.scene =
      (some ⟨u.started, .ok ()⟩, u.scene) := by
  obtain ⟨⟨units, ahead, seen, left⟩, started, sc⟩ := u
  simp only [Agenda.isClear, Bool.and_eq_true, List.isEmpty_iff] at h
  obtain ⟨rfl, rfl⟩ := h
  change (r.walk signal t limit left [] seen started).play others sc = _
  rw [walk]
  rfl

section Halt

variable {id : TokenId} {ahead seen : List TokenId} {left started : Nat} {sc : Scene (World σ) Report}

theorem play_goOn_refused {f : Fault} (quiet : sc.stage.signals.has signal = false)
    (hvisit : t.visit seen id = .error f) :
    (r.goOn signal t limit ⟨[], id :: ahead, seen, left⟩ started).play others sc =
      (some ⟨started, .error f⟩, sc) := by
  change (r.walk signal t limit left (id :: ahead) seen started).play others sc = _
  rw [TokenTree.walk_of_refused hvisit, play_halt_quiet quiet]

theorem play_goOn_noRoom {slot : TokenSlot (Token σ)} (quiet : sc.stage.signals.has signal = false)
    (hvisit : t.visit seen id = .ok slot) :
    (r.goOn signal t limit ⟨[], id :: ahead, seen, 0⟩ started).play others sc =
      (some ⟨started, .error (.tokenLimit limit)⟩, sc) := by
  change (r.walk signal t limit 0 (id :: ahead) seen started).play others sc = _
  rw [TokenTree.walk_of_noRoom hvisit, play_halt_quiet quiet]

end Halt

/-- Step by step a run comes to its fired signal, to nothing left, or to a
walk that must not go on. -/
theorem goOn_induction (r : Reporter) (signal : Signal) (t : TokenTree (Token σ))
    (others : Company (World σ) Report) {P : Stand σ → Prop} (fired : ∀ u, u.HasFired signal → P u)
    (clear : ∀ u, u.agenda.isClear = true → P u)
    (refused : ∀ id ahead seen left started (sc : Scene (World σ) Report) f,
      sc.stage.signals.has signal = false → t.visit seen id = .error f →
        P ⟨⟨[], id :: ahead, seen, left⟩, started, sc⟩)
    (noRoom : ∀ id ahead seen started (sc : Scene (World σ) Report) slot,
      sc.stage.signals.has signal = false → t.visit seen id = .ok slot →
        P ⟨⟨[], id :: ahead, seen, 0⟩, started, sc⟩)
    (takes : ∀ u v result, r.Takes signal t others u result v → P v → P u) (u : Stand σ) : P u := by
  have hunits : ∀ {ahead seen left}, (∀ started (sc : Scene (World σ) Report),
      sc.stage.signals.has signal = false → P ⟨⟨[], ahead, seen, left⟩, started, sc⟩) →
      ∀ units started sc, P ⟨⟨units, ahead, seen, left⟩, started, sc⟩ := by
    intro ahead seen left hnil units
    induction units with
    | nil =>
      intro started sc
      cases quiet : sc.stage.signals.has signal with
      | true => exact fired _ quiet
      | false => exact hnil started sc quiet
    | cons e units ih =>
      intro started sc
      cases quiet : sc.stage.signals.has signal with
      | true => exact fired _ quiet
      | false => exact takes _ _ _ (.unit quiet rfl) (ih _ _)
  obtain ⟨⟨units, ahead, seen, left⟩, started, sc⟩ := u
  -- The walk visits fewer tokens each time, and comes to units again after each of them.
  induction left generalizing units ahead seen started sc with
  | zero =>
    refine hunits (fun started sc quiet => ?_) units started sc
    cases ahead with
    | nil => exact clear _ rfl
    | cons id ahead =>
      cases hvisit : t.visit seen id with
      | error f => exact refused id ahead seen 0 started sc f quiet hvisit
      | ok slot => exact noRoom id ahead seen started sc slot quiet hvisit
  | succ left ih =>
    refine hunits (fun started sc quiet => ?_) units started sc
    cases ahead with
    | nil => exact clear _ rfl
    | cons id ahead =>
      cases hvisit : t.visit seen id with
      | error f => exact refused id ahead seen (left + 1) started sc f quiet hvisit
      | ok slot =>
        obtain ⟨outcome, units, sc', hresolve⟩ := r.play_resolve slot.token others sc
        exact takes _ _ _ (.token quiet hvisit hresolve) (ih _ _ _ _ _)

/-- If the signal fires after a look at it that found it quiet, something is under way then. -/
def Catches (r : Reporter) (signal : Signal) (t : TokenTree (Token σ)) (limit : Nat)
    (others : Company (World σ) Report) (u : Stand σ) : Prop :=
  u.scene.stage.signals.has signal = false →
    ((r.goOn signal t limit u.agenda u.started).play others u.scene).2.stage.signals.has signal = true →
    ∃ result v, r.Fires signal t others u result v

theorem catches_of_takes (takes : r.Takes signal t others u result v)
    (hrest : r.Catches signal t limit others v) : r.Catches signal t limit others u := by
  intro _ fired
  cases hv : v.scene.stage.signals.has signal with
  | true => exact ⟨result, v, .during .refl takes hv⟩
  | false =>
    rw [play_goOn_takes takes] at fired
    rcases result with _ | ⟨f | _⟩
    · exact absurd fired (Bool.eq_false_iff.mp hv)
    · exact absurd fired (Bool.eq_false_iff.mp hv)
    · obtain ⟨result, w, hw⟩ := hrest hv fired
      exact ⟨result, w, hw.cons takes hv⟩

theorem catches_of_still (h : u.scene.stage.signals.has signal = false →
    ((r.goOn signal t limit u.agenda u.started).play others u.scene).2 = u.scene) :
    r.Catches signal t limit others u := by
  intro quiet fired
  rw [h quiet, quiet] at fired
  cases fired

theorem catches (u : Stand σ) : r.Catches signal t limit others u := by
  refine goOn_induction r signal t others ?fired ?clear ?refused ?noRoom ?takes u
  case fired =>
    intro u fired quiet
    rw [Stand.HasFired, quiet] at fired
    cases fired
  case clear =>
    intro u hclear
    exact catches_of_still fun _ => by rw [play_goOn_clear hclear]
  case refused =>
    intro id ahead seen left started sc f quiet hvisit
    exact catches_of_still fun _ => by rw [play_goOn_refused quiet hvisit]
  case noRoom =>
    intro id ahead seen started sc slot quiet hvisit
    exact catches_of_still fun _ => by rw [play_goOn_noRoom quiet hvisit]
  case takes => exact fun u v result takes hrest => catches_of_takes takes hrest

section Begun

theorem begun_execute {e : Entry σ} {started : Nat} {sc sc' : Scene (World σ) Report}
    {p : Option Progress} (quiet : sc.stage.signals.has signal = false)
    (h : (r.execute signal e started).play others sc = (p, sc')) :
    Event.unitsBegun (sc'.sent r.sink) = Event.unitsBegun (sc.sent r.sink) + 1 := by
  have hsc' : sc' = ((r.execute signal e started).play others sc).2 := by rw [h]
  have hrest : Activity.Hides (Deed.begins? r.sink)
      ((e.unit.execute signal).inRun >>= r.conclude e started) :=
    (hides_begins_inRun _).bind (hides_begins_conclude e started)
  rw [hsc', execute_eq, Activity.play_hasFired_bind, quiet]
  simp only [Bool.false_eq_true, if_false]
  rw [Scene.unitsBegun_sent, Scene.unitsBegun_sent, Activity.play_bind]
  refine (congrArg List.length (hrest others _)).trans ?_
  simp [Deed.begins?, Deed.sentTo?, Deed.item?, Event.startedUnit?]

theorem hides_begins_resolve (token : Token σ) :
    Activity.Hides (Deed.begins? r.sink) (r.resolve token) := by
  refine (hides_begins_inRun _).bind fun result => ?_
  obtain ⟨outcome, acc⟩ := result
  dsimp only
  cases token.resolved outcome with
  | error f => exact .pure _
  | ok => exact (hides_begins_send rfl).bind fun _ => .pure _

theorem begun_takes (h : r.Takes signal t others u result v) :
    Event.unitsBegun (v.scene.sent r.sink) + u.started =
      Event.unitsBegun (u.scene.sent r.sink) + v.started := by
  cases h with
  | unit quiet executes =>
    rw [begun_execute quiet executes]
    dsimp only
    omega
  | @token _ _ _ _ _ slot _ sc sc' _ _ _ resolves =>
    have hhides := (hides_begins_resolve slot.token).filterMap_eq resolves
    rw [Scene.unitsBegun_sent, Scene.unitsBegun_sent, hhides]

theorem begun_comesTo (h : r.ComesTo signal t others u v) :
    Event.unitsBegun (v.scene.sent r.sink) + u.started =
      Event.unitsBegun (u.scene.sent r.sink) + v.started := by
  induction h with
  | refl => rfl
  | tail _ takes ih =>
    have := begun_takes takes
    omega

theorem begun_fires (h : r.Fires signal t others u result v) :
    Event.unitsBegun (v.scene.sent r.sink) + u.started =
      Event.unitsBegun (u.scene.sent r.sink) + v.started := by
  cases h with
  | before fired => rfl
  | during comes takes fired =>
    have := begun_comesTo comes
    have := begun_takes takes
    omega

end Begun

end

end Reporter

end Flowchart
