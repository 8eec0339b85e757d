import Flowchart.Proofs.Run.Surfacing
import Flowchart.Proofs.Run.Withdrawn

/-! What the caller of a run is told. -/
namespace Flowchart

variable {σ : Type}

def Stand.Within (u : Stand σ) (t : TokenTree (Token σ)) : Prop := ∀ id ∈ u.agenda.ahead, id < t.size

namespace Reporter

/-- What is next on the agenda fails, and not by a cancellation: a unit, a token, or the walk. -/
inductive StopsOn (r : Reporter) (signal : Signal) (t : TokenTree (Token σ)) (limit : Nat)
    (others : Company (World σ) Report) : Stand σ → Fault → Prop
  | unit {e : Entry σ} {units : List (Entry σ)} {ahead seen : List TokenId} {left started : Nat}
      {sc sc' : Scene (World σ) Report} {source : Fault}
      (quiet : sc.stage.signals.has signal = false)
      (returns : ((e.unit.execute signal).inRun : RunActivity σ Outcome).play others
        (sc.offered r.sink (.unitStarted r.run e.unit.label e.token)) = (some (.error source), sc'))
      (other : source.isCancelled = false) :
      StopsOn r signal t limit others ⟨⟨e :: units, ahead, seen, left⟩, started, sc⟩
        (.unitFailed e.unit.label e.token source)
  | token {id : TokenId} {ahead seen : List TokenId} {left started : Nat}
      {slot : TokenSlot (Token σ)} {sc : Scene (World σ) Report} {source : Fault}
      (quiet : sc.stage.signals.has signal = false) (visits : t.visit seen id = .ok slot)
      (returns : (slot.token.resolve.run { current := slot.token.label } sc.stage.state.host
        sc.stage.signals).1 = .error source)
      (other : source.isCancelled = false) :
      StopsOn r signal t limit others ⟨⟨[], id :: ahead, seen, left + 1⟩, started, sc⟩
        (.resolveFailed slot.token.label source)
  | revisited {id : TokenId} {ahead seen : List TokenId} {left started : Nat}
      {slot : TokenSlot (Token σ)} {sc : Scene (World σ) Report}
      (quiet : sc.stage.signals.has signal = false) (known : t.slot id = .ok slot)
      (again : id ∈ seen) :
      StopsOn r signal t limit others ⟨⟨[], id :: ahead, seen, left⟩, started, sc⟩
        (.tokenRevisited id slot.token.label)
  | exceeded {id : TokenId} {ahead seen : List TokenId} {started : Nat}
      {slot : TokenSlot (Token σ)} {sc : Scene (World σ) Report}
      (quiet : sc.stage.signals.has signal = false) (visits : t.visit seen id = .ok slot) :
      StopsOn r signal t limit others ⟨⟨[], id :: ahead, seen, 0⟩, started, sc⟩ (.tokenLimit limit)

section

variable {r : Reporter} {signal : Signal} {t : TokenTree (Token σ)}
  {others : Company (World σ) Report} {limit : Nat} {u v : Stand σ} {result : Option Outcome} {f : Fault}

/-- A unit is begun, executed, and its end is reported. -/
theorem play_execute_eq {e : Entry σ} {started : Nat} {sc : Scene (World σ) Report}
    (quiet : sc.stage.signals.has signal = false) : (r.execute signal e started).play others sc =
      ((e.unit.execute signal).inRun >>= r.conclude e started).play others
        (sc.offered r.sink (.unitStarted r.run e.unit.label e.token)) := by
  rw [execute_eq, Activity.play_hasFired_bind, quiet]
  rfl

theorem hides_sent_inRun {α : Type} (sink : Sink) (a : Activity σ LogLine α) :
    Activity.Hides (Deed.sentTo? sink) (a.inRun : RunActivity σ α) :=
  Activity.Hides.embed (fun _ => rfl) (fun _ _ => rfl) a

theorem play_execute_failed {e : Entry σ} {started : Nat} {sc sc' : Scene (World σ) Report}
    {source : Fault} (quiet : sc.stage.signals.has signal = false)
    (returns : ((e.unit.execute signal).inRun : RunActivity σ Outcome).play others
      (sc.offered r.sink (.unitStarted r.run e.unit.label e.token)) = (some (.error source), sc'))
    (other : source.isCancelled = false) : ∃ final,
      (r.execute signal e started).play others sc =
        (some ⟨started + 1, .error (.unitFailed e.unit.label e.token source)⟩, final) ∧
      final.sent r.sink = sc.sent r.sink ++ [.unitStarted r.run e.unit.label e.token,
        .unitFailed r.run e.unit.label e.token source.message] := by
  have hsent := (hides_sent_inRun r.sink (e.unit.execute signal)).filterMap_eq returns
  have hconclude : r.conclude e started (.error source) =
      (r.send (.unitFailed r.run e.unit.label e.token source.message) >>= fun _ =>
        return ⟨started + 1, .error (.unitFailed e.unit.label e.token source)⟩) := by
    simp [conclude, other]
  refine ⟨sc'.offered r.sink (.unitFailed r.run e.unit.label e.token source.message), ?_, ?_⟩
  · rw [play_execute_eq quiet, Activity.play_bind, returns]
    dsimp only
    rw [hconclude]
    rfl
  · have hsent : sc'.sent r.sink = (sc.offered r.sink _).sent r.sink := hsent
    rw [Scene.sent_offered, hsent, Scene.sent_offered, List.append_assoc]
    rfl

theorem play_resolve_failed (r : Reporter) (others : Company (World σ) Report) {token : Token σ}
    {sc : Scene (World σ) Report} {source : Fault}
    (returns : (token.resolve.run { current := token.label } sc.stage.state.host
      sc.stage.signals).1 = .error source) : ∃ units final,
      (r.resolve token).play others sc =
        (some (.error (.resolveFailed token.label source), units), final) := by
  unfold resolve
  rw [Activity.play_bind, Filling.play_within]
  dsimp only
  rw [returns]
  exact ⟨_, _, rfl⟩

theorem StopsOn.play_goOn (h : r.StopsOn signal t limit others u f) : ∃ n final,
    (r.goOn signal t limit u.agenda u.started).play others u.scene = (some ⟨n, .error f⟩, final) ∧
      f.isCancelled = false ∧ ∀ unit token source, f = .unitFailed unit token source →
        final.sent r.sink = u.scene.sent r.sink ++ [.unitStarted r.run unit token,
          .unitFailed r.run unit token source.message] := by
  cases h with
  | unit quiet returns other =>
    obtain ⟨final, hplay, hsent⟩ := play_execute_failed quiet returns other
    refine ⟨_, final, play_goOn_takes (.unit quiet hplay), other, ?_⟩
    rintro unit token source ⟨⟩
    exact hsent
  | token quiet visits returns other =>
    obtain ⟨units, final, hplay⟩ := r.play_resolve_failed others returns
    exact ⟨_, final, play_goOn_takes (.token quiet visits hplay), other, nofun⟩
  | @revisited id ahead seen left started slot sc quiet known again =>
    have hrefused : t.visit seen id = .error (.tokenRevisited id slot.token.label) := by
      exact TokenTree.visit_eq_error (TokenTree.slot_eq_ok_iff.mp known) again
    exact ⟨started, sc, play_goOn_refused quiet hrefused, rfl, nofun⟩
  | @exceeded id ahead seen started slot sc quiet visits =>
    exact ⟨started, sc, play_goOn_noRoom quiet visits, rfl, nofun⟩

theorem Takes.within (h : r.Takes signal t others u result v) (hc : t.Closed) (hu : u.Within t) :
    v.Within t := by
  cases h with
  | unit => exact hu
  | @token id ahead seen left started slot units sc sc' outcome quiet visits resolves =>
    intro next hnext
    rcases List.mem_append.mp hnext with hlink | hahead
    · exact hc.link_lt id slot (TokenTree.visit_eq_ok_iff.mp visits).1 next hlink
    · exact hu next (List.mem_cons_of_mem _ hahead)

theorem Takes.ahead_eq_nil (h : r.Takes signal t others u result v) (hu : u.agenda.ahead = []) :
    v.agenda.ahead = [] := by
  cases h with
  | unit => exact hu
  | token => cases hu

/-- If a run ends with a failure that is no cancellation, it stops on this failure. -/
def Settles (r : Reporter) (signal : Signal) (t : TokenTree (Token σ)) (limit : Nat)
    (others : Company (World σ) Report) (u : Stand σ) : Prop :=
  u.Within t → ∀ n f final, f.isCancelled = false →
    (r.goOn signal t limit u.agenda u.started).play others u.scene =
      (some ⟨n, .error f⟩, final) →
    ∃ v, r.ComesTo signal t others u v ∧ r.StopsOn signal t limit others v f

/-- A failure of what is next is one that the run stops on. -/
theorem stopsOn_of_takes (h : r.Takes signal t others u (some (.error f)) v)
    (other : f.isCancelled = false) : r.StopsOn signal t limit others u f := by
  generalize hresult : some (Except.error f) = result at h
  cases h with
  | @unit e units ahead seen left started sc sc' p quiet executes =>
    rw [play_execute_eq quiet] at executes
    cases p with
    | none => cases hresult
    | some p =>
      obtain ⟨outcome, sc₁, hreturns, hconcludes⟩ := Activity.play_bind_eq_some_iff.mp executes
      have hp : p.outcome = .error f := (Option.some.inj hresult).symm
      cases outcome with
      | ok =>
        cases hconcludes
        cases hp
      | error source =>
        rw [conclude] at hconcludes
        split at hconcludes
        · cases hconcludes
          cases hp
          cases other
        · next hsource =>
          cases hconcludes
          cases hp
          exact .unit quiet hreturns (Bool.eq_false_iff.mpr hsource)
  | @token id ahead seen left started slot units sc sc' outcome quiet visits resolves =>
    obtain rfl : outcome = .error f := (Option.some.inj hresult).symm
    unfold resolve at resolves
    rw [Activity.play_bind, Filling.play_within] at resolves
    dsimp only at resolves
    cases hreturns : (slot.token.resolve.run { current := slot.token.label } sc.stage.state.host
        sc.stage.signals).1 with
    | ok =>
      rw [hreturns] at resolves
      cases resolves
    | error source =>
      rw [hreturns] at resolves
      cases resolves
      exact .token quiet visits hreturns other

theorem settles_of_takes (takes : r.Takes signal t others u result v) (hc : t.Closed)
    (hrest : r.Settles signal t limit others v) : r.Settles signal t limit others u := by
  intro hwithin n f final other hplay
  rw [play_goOn_takes takes] at hplay
  rcases result with _ | ⟨g | _⟩
  · cases hplay
  · cases hplay
    exact ⟨u, .refl, stopsOn_of_takes takes other⟩
  · obtain ⟨w, comes, hstops⟩ := hrest (takes.within hc hwithin) n f final other hplay
    exact ⟨w, .head takes comes, hstops⟩

/-- Under a signal that has fired a run ends with no other failure than a cancellation. -/
theorem settles_of_fired (fired : u.HasFired signal) : r.Settles signal t limit others u := by
  intro _ n f final other hplay
  rw [play_goOn_fired fired] at hplay
  split at hplay
  · cases hplay
  · cases hplay
    cases other

/-- Where a token is refused that is in the tree, the walk has seen it. -/
theorem stopsOn_of_refused {id : TokenId} {ahead seen : List TokenId} {left started : Nat}
    {sc : Scene (World σ) Report} (quiet : sc.stage.signals.has signal = false) (hid : id < t.size)
    (hvisit : t.visit seen id = .error f) :
    r.StopsOn signal t limit others ⟨⟨[], id :: ahead, seen, left⟩, started, sc⟩ f := by
  have hslot := Array.getElem?_eq_getElem hid
  by_cases hseen : id ∈ seen
  · rw [TokenTree.visit_eq_error hslot hseen] at hvisit
    cases hvisit
    exact .revisited quiet (TokenTree.slot_eq_ok_iff.mpr hslot) hseen
  · rw [TokenTree.visit_eq_ok hslot hseen] at hvisit
    cases hvisit

theorem settles (hc : t.Closed) (u : Stand σ) : r.Settles signal t limit others u := by
  refine goOn_induction r signal t others ?fired ?clear ?refused ?noRoom ?takes u
  case fired => exact fun u fired => settles_of_fired fired
  case clear =>
    intro u hclear _ n f final _ hplay
    rw [play_goOn_clear hclear] at hplay
    cases hplay
  case refused =>
    intro id ahead seen left started sc g quiet hvisit hwithin n f final _ hplay
    rw [play_goOn_refused quiet hvisit] at hplay
    cases hplay
    exact ⟨_, .refl, stopsOn_of_refused quiet (hwithin id List.mem_cons_self) hvisit⟩
  case noRoom =>
    intro id ahead seen started sc slot quiet hvisit _ n f final _ hplay
    rw [play_goOn_noRoom quiet hvisit] at hplay
    cases hplay
    exact ⟨_, .refl, .exceeded quiet hvisit⟩
  case takes => exact fun u v result takes hrest => settles_of_takes takes hc hrest

end

end Reporter

namespace Compiled

/-- A first execution goes as far as something that fails, and that is no cancellation. -/
def StopsOn (c : Compiled σ) (signal : Signal) (others : Company (World σ) Report)
    (sc : Scene (World σ) Report) (f : Fault) : Prop :=
  c.Unspent sc ∧ ∃ u, (c.reporter sc).ComesTo signal c.tree others (c.outset sc) u ∧
    (c.reporter sc).StopsOn signal c.tree c.limit others u f

structure Answers (c : Compiled σ) (signal : Signal) (others : Company (World σ) Report)
    (sc : Scene (World σ) Report) (told : Outcome) (final : Scene (World σ) Report) : Prop where
  consumed : ¬ c.Unspent sc → told = .error (.planConsumed c.label)
  /-- The caller is told that the run is complete or cancelled, or of the failure that stopped it. -/
  tells : c.Unspent sc → told = .ok () ∨ told = .error .cancelled ∨
    c.surfaceFailures = true ∧ ∃ f, c.StopsOn signal others sc f ∧ told = .error f
  /-- Just the failure that stopped the run is told, and only if that is wanted. -/
  stopped : ∀ f, c.StopsOn signal others sc f →
    f.isCancelled = false ∧ told = if c.surfaceFailures then .error f else .ok ()
  names : ∀ unit token source, c.StopsOn signal others sc (.unitFailed unit token source) →
    ∃ before last, final.sent c.sink = before ++ [.unitStarted (c.reporter sc).run unit token,
      .unitFailed (c.reporter sc).run unit token source.message, last] ∧ last.unit? = none
  planned : ∀ p, c = .plan p → ∀ f, c.StopsOn signal others sc f →
    ∃ unit token source, f = .unitFailed unit token source
  /-- A cancellation is told as it is, however deep it was wrapped. -/
  bare : ∀ f, told = .error f → f.isCancelled = true → f = .cancelled

variable {c : Compiled σ} {signal : Signal} {others : Company (World σ) Report}
  {sc final : Scene (World σ) Report} {told : Outcome}

theorem within_outset (hc : c.tree.Closed) (sc : Scene (World σ) Report) :
    (c.outset sc).Within c.tree := by
  cases c with
  | plan p => nofun
  | tour t =>
    intro id hid
    exact hc.root_lt id (Option.mem_toList.mp hid)

/-- The tokens of a plan were resolved before, so that none lies ahead of it. -/
theorem planned {p : Plan σ} {f : Fault} (h : (plan p).StopsOn signal others sc f) :
    ∃ unit token source, f = .unitFailed unit token source := by
  obtain ⟨-, u, comes, hstops⟩ := h
  have hahead : u.agenda.ahead = [] := by
    clear hstops
    induction comes with
    | refl => rfl
    | tail _ takes ih => exact takes.ahead_eq_nil ih
  cases hstops with
  | unit => exact ⟨_, _, _, rfl⟩
  | token | revisited | exceeded => cases hahead

/-- A first execution is closed by how it went: it went wrong just where it stopped on something. -/
theorem closes_of_first (hc : c.tree.Closed) (hready : c.Unspent sc → c.Ready sc) (hfirst : c.Unspent sc)
    (hplay : (c.execute signal).play others sc = (some told, final)) : ∃ n ended last before,
      Closes (c.reporter sc).run c.surfaceFailures n ended last told ∧
      final.sent c.sink = before ++ [last] ∧
      (∀ f, ended = .error f → f.isCancelled = false → c.StopsOn signal others sc f) ∧
      ∀ f, c.StopsOn signal others sc f → ended = .error f ∧ f.isCancelled = false ∧
        ∀ unit token source, f = .unitFailed unit token source →
          ∃ begun, before = begun ++ [.unitStarted (c.reporter sc).run unit token,
            .unitFailed (c.reporter sc).run unit token source.message] := by
  rw [play_ready (hready hfirst)] at hplay
  obtain ⟨⟨n, ended⟩, sc₁, hgoOn, hfinish⟩ := Activity.play_bind_eq_some_iff.mp hplay
  obtain ⟨told', last, final', hfinish', -, -, hsent, hcloses⟩ :=
    (c.reporter sc).play_finish others ⟨n, ended⟩ sc₁
  obtain ⟨rfl, rfl⟩ : told' = told ∧ final' = final := by
    rw [hfinish] at hfinish'
    cases hfinish'
    exact ⟨rfl, rfl⟩
  refine ⟨n, ended, last, sc₁.sent c.sink, hcloses, hsent, ?_, ?_⟩
  · rintro f rfl other
    exact ⟨hfirst, Reporter.settles hc _ (within_outset hc sc) n f sc₁ other hgoOn⟩
  · rintro f ⟨-, u, comes, hstops⟩
    obtain ⟨m, sc₂, hstop, other, hnames⟩ := hstops.play_goOn
    rw [← Reporter.play_goOn_comesTo comes, hgoOn] at hstop
    cases hstop
    exact ⟨rfl, other, fun unit token source hf => ⟨_, hnames unit token source hf⟩⟩

theorem answers_of_spent {p : Plan σ} (hspent : p.id ∈ sc.stage.state.spent)
    (hplay : ((plan p).execute signal).play others sc = (some told, final)) :
    (plan p).Answers signal others sc told final := by
  have hfirst : ¬ (plan p).Unspent sc := not_not.mpr hspent
  have hrefused : ((plan p).execute signal).play others sc = _ := Plan.play_execute_spent hspent signal
  rw [hrefused] at hplay
  cases hplay
  constructor
  case consumed => exact fun _ => rfl
  case tells => exact fun h => absurd h hfirst
  case stopped => exact fun f h => absurd h.1 hfirst
  case names => exact fun _ _ _ h => absurd h.1 hfirst
  case planned => exact fun _ _ _ h => absurd h.1 hfirst
  case bare =>
    rintro f ⟨⟩ hf
    cases hf

theorem answers (hc : c.tree.Closed) (hready : c.Unspent sc → c.Ready sc)
    (hplay : (c.execute signal).play others sc = (some told, final)) :
    c.Answers signal others sc told final := by
  by_cases hfirst : c.Unspent sc
  · obtain ⟨n, ended, last, before, hcloses, hsent, hends, hstops⟩ :=
      closes_of_first hc hready hfirst hplay
    constructor
    case consumed => exact fun hspent => absurd hfirst hspent
    case tells =>
      intro _
      cases hcloses with
      | completed | hushed => exact .inl rfl
      | cancelled => exact .inr (.inl rfl)
      | failed hf htold => exact .inr (.inr ⟨htold, _, hends _ rfl hf, rfl⟩)
    case stopped =>
      intro f hf
      obtain ⟨rfl, other, -⟩ := hstops f hf
      refine ⟨other, ?_⟩
      cases hcloses with
      | hushed _ quiet => rw [show c.surfaceFailures = false from quiet]; rfl
      | failed _ htold => rw [show c.surfaceFailures = true from htold]; rfl
      | cancelled hf => rw [other] at hf; cases hf
    case names =>
      intro unit token source hf
      obtain ⟨-, -, hnames⟩ := hstops _ hf
      obtain ⟨begun, rfl⟩ := hnames unit token source rfl
      refine ⟨begun, last, ?_, by cases hcloses <;> rfl⟩
      rw [hsent, List.append_assoc]
      rfl
    case planned =>
      rintro p rfl f hf
      exact planned hf
    case bare =>
      rintro f rfl hf
      cases hcloses with
      | failed other => rw [hf] at other; cases other
      | cancelled => rfl
  · cases c with
    | tour t => exact absurd True.intro hfirst
    | plan p => exact answers_of_spent (not_not.mp hfirst) hplay

end Compiled

namespace Engine

/-- What the caller of a compiled tree is told is decided by how its run
went and whether failures are told. -/
theorem compile_answers (calls : List (TreeCall (Token σ))) (e : Engine) (stage stage' : RunStage σ)
    (c : Compiled σ) (h : e.compile (.ofCalls calls) stage = (.ok c, stage')) :
    c.surfaceFailures = e.config.surfaceFailures ∧
    (∀ signal others sc told final, (c.execute signal).play others sc = (some told, final) →
      c.Answers signal others sc told final) ∧
    (∀ b, (e.surfacing b).compile (.ofCalls calls) stage = (.ok (c.surfacing b), stage')) ∧
    ∀ signal others sc, Scene.SameUntilClosed e.sink
      (((c.surfacing true).execute signal).play others sc)
      (((c.surfacing false).execute signal).play others sc) := by
  have hmade := compile_made h
  have hc : c.tree.Closed := by
    rcases hmade.walks with hnone | htree
    · exact hnone ▸ TokenTree.Closed.empty
    · exact htree ▸ TokenTree.Closed.ofCalls calls
  refine ⟨hmade.surfaceFailures, fun signal others sc told final hplay => ?_, fun b => ?_,
    fun signal others sc => ?_⟩
  · exact Compiled.answers hc (hmade.ready sc) hplay
  · rw [compile_surfacing, h]
    rfl
  · exact hmade.sink ▸ c.execute_surfacing signal others sc

/-- An engine that tells about failures, and a token whose unit fails. -/
theorem compile_answers_failing :
    ∃ c stage, compile { config := { strategy := .immediate, surfaceFailures := true } }
        (.ofCalls [.push (Script.token "token" [.push "bad" [.fail (.failed "reason")] false])])
        { state := { host := {} } } = (.ok c, stage) ∧
      c.StopsOn 0 .nobody { stage } (.unitFailed "bad" "token" (.failed "reason")) := by
  refine ⟨_, _, rfl, ?_⟩
  obtain ⟨-, hanswers, -, -⟩ := compile_answers
    [.push (Script.token "token" [.push "bad" [.fail (.failed "reason")] false])]
    { config := { strategy := .immediate, surfaceFailures := true } }
    { state := { host := {} } } _ _ rfl
  rcases (hanswers 0 .nobody { stage := { state := { host := {} } } } _ _ rfl).tells True.intro with
    hok | hcancelled | ⟨-, f, hf, htold⟩
  · cases hok
  · cases hcancelled
  · cases htold
    exact hf

end Engine

end Flowchart
