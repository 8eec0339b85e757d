import Flowchart.Proofs.Run.Alike
import Flowchart.Proofs.Run.Begun
import Flowchart.Proofs.Walk.Emission

/-! Planning a tree and touring it come to the same, when its tokens only put in units and do so
whatever units have done. -/
namespace Flowchart

variable {σ υ τ : Type} {U : σ → υ} {T : σ → τ}

/-- Tokens put in the same units wherever they are resolved, and read a part
of the state that units keep. -/
inductive Token.EmitAlike (U : σ → υ) (T : σ → τ) : τ → List (Token σ × List (FlowUnit σ)) → Prop
  | nil {part : τ} : EmitAlike U T part []
  | cons {token : Token σ} {units : List (FlowUnit σ)} {rest : List (Token σ × List (FlowUnit σ))}
      {part part' : τ}
      (first : ∀ shown s, T s.host = part → ∃ s', token.resolve.Emits token.label shown s units s' ∧
        s'.signals = s.signals ∧ T s'.host = part' ∧ U s'.host = U s.host)
      (others : EmitAlike U T part' rest) : EmitAlike U T part ((token, units) :: rest)

theorem Token.EmitAlike.emitInTurn {part : τ} {emitted : List (Token σ × List (FlowUnit σ))}
    (h : EmitAlike U T part emitted) (shown : List (String × String)) {s : Setting σ}
    (hs : T s.host = part) : ∃ s', EmitInTurn shown s emitted s' ∧ s'.signals = s.signals ∧
      U s'.host = U s.host := by
  induction h generalizing shown s with
  | nil => exact ⟨s, .nil, rfl, rfl⟩
  | @cons token units rest part part' first _ ih =>
    obtain ⟨s₁, hfirst, hsignals₁, hpart, hU₁⟩ := first shown s hs
    obtain ⟨s', hrest, hsignals, hU⟩ := ih (shown ++ units.map (token.label, ·.label)) hpart
    exact ⟨s', .cons hfirst hrest, hsignals.trans hsignals₁, hU.trans hU₁⟩

namespace Reporter

variable {r r' : Reporter} {signal : Signal} {others : Company (World σ) Report}

/-- Attending to a token that puts in units is executing them, on a scene that looks the same. -/
theorem play_attendTo {token : Token σ} {units : List (FlowUnit σ)} {sc : Scene (World σ) Report}
    (quiet : sc.stage.signals.has signal = false) {s' : Setting σ}
    (h : token.resolve.Emits token.label [] ⟨sc.stage.state.host, sc.stage.signals⟩ units s')
    (hsignals : s'.signals = sc.stage.signals) (hunits : U s'.host = U sc.stage.state.host)
    (started : Nat) :
    ∃ sc₁, (r.attendTo signal token started).play others sc =
        (r.executeAll signal started (units.map (⟨token.label, ·⟩))).play others sc₁ ∧
      (View.ofUnits U).scene sc₁ = (View.ofUnits U).scene sc ∧ sc₁.stage.state.host = s'.host := by
  have hrun := h.run_eq { current := token.label } rfl rfl
  have hentries : (({ current := token.label } : Accumulator σ).pushAll units).entries.toList =
      units.map (⟨token.label, ·⟩) := by simp
  -- The scene after the token was resolved.
  let resolved : Scene (World σ) Report :=
    { sc with stage := { sc.stage with
        state := { sc.stage.state with host := s'.host }, signals := s'.signals } }
  have hsame : (View.ofUnits U).scene resolved = (View.ofUnits U).scene sc :=
    View.scene_eq_iff.mpr ⟨hunits, hsignals, rfl, rfl⟩
  rw [play_attendTo_eq quiet, hrun]
  dsimp only [Token.resolved]
  rw [hentries]
  exact ⟨_, rfl, (View.scene_put_unseen resolved rfl).trans hsame, rfl⟩

/-- Executing all units in a row shows what attending to their tokens one by one does. -/
theorem executeAll_agrees_attend (hsink : r.sink = r'.sink) {part : τ}
    {emitted : List (Token σ × List (FlowUnit σ))} (h : Token.EmitAlike U T part emitted)
    (hunits : ∀ e ∈ Entry.ofTokens emitted, e.unit.Discreet U T signal)
    (hothers : others.Respects (View.ofUnits U)) (hpart : others.Keeps (T ∘ World.host))
    (started : Nat) {sc sc' : Scene (World σ) Report}
    (hsame : (View.ofUnits U).scene sc = (View.ofUnits U).scene sc')
    (hhost : T sc'.stage.state.host = part) :
    let p := (r.executeAll signal started (Entry.ofTokens emitted)).play others sc
    let q := (r'.attend signal (emitted.map (·.1)) started).play others sc'
    (View.ofUnits U).scene p.2 = (View.ofUnits U).scene q.2 ∧
      (p.1 = q.1 ∨ p.2.stage.signals.has signal = true ∧
        ∃ n, p.1 = some ⟨n, .ok ()⟩ ∧ q.1 = some ⟨n, .error .cancelled⟩) := by
  induction h generalizing started sc sc' with
  | nil => exact ⟨hsame, .inl rfl⟩
  | @cons token units rest part part' first _ ih =>
    obtain ⟨hstate, hsignals, _⟩ := View.scene_eq_iff.mp hsame
    have hrest : Entry.ofTokens ((token, units) :: rest) =
        units.map (⟨token.label, ·⟩) ++ Entry.ofTokens rest := rfl
    cases hfired : sc.stage.signals.has signal with
    | true =>
      rw [List.map_cons, attend, Activity.play_bind, play_attendTo_fired (hsignals ▸ hfired),
        play_executeAll_fired hfired]
      refine ⟨hsame, ?_⟩
      split
      · exact .inr ⟨hfired, started, rfl, rfl⟩
      · exact .inl rfl
    | false =>
      obtain ⟨s', hemits, hs', hpart', hU⟩ := first [] ⟨sc'.stage.state.host, sc'.stage.signals⟩ hhost
      obtain ⟨sc₁, hattend, hsame₁, hhost₁⟩ :=
        play_attendTo (r := r') (hsignals ▸ hfired) hemits hs' hU started
      have hsame' := hsame.trans hsame₁.symm
      have htwin := executeAll_twin (ofUnits?_event hsink)
        (fun e he => hunits e (hrest ▸ List.mem_append_left _ he)) started
        (View.scene_eq_iff.mp hsame').1
      obtain ⟨hresult, hscene, _, hkept⟩ := htwin.play_eq hothers hpart sc sc₁ rfl rfl hsame'
      rw [hrest, executeAll_append, List.map_cons, attend, Activity.play_bind, Activity.play_bind,
        hattend]
      rcases hp : (r.executeAll signal started (units.map (⟨token.label, ·⟩))).play others sc with
        ⟨result, sc₂⟩
      rcases hq : (r'.executeAll signal started (units.map (⟨token.label, ·⟩))).play others sc₁ with
        ⟨result', sc₂'⟩
      rw [hp, hq] at hresult hscene
      rw [hq] at hkept
      obtain rfl : result = result' := hresult
      rcases result with _ | ⟨n, f | _⟩
      · exact ⟨hscene, .inl rfl⟩
      · exact ⟨hscene, .inl rfl⟩
      · refine ih (fun e he => hunits e (hrest ▸ List.mem_append_right _ he)) n hscene ?_
        rw [← hpart', ← hhost₁]
        exact hkept

theorem run_agrees (hsink : r.sink = r'.sink) (htold : r.surfaceFailures = r'.surfaceFailures)
    {part : τ} {emitted : List (Token σ × List (FlowUnit σ))} (h : Token.EmitAlike U T part emitted)
    (hunits : ∀ e ∈ Entry.ofTokens emitted, e.unit.Discreet U T signal)
    (hothers : others.Respects (View.ofUnits U)) (hpart : others.Keeps (T ∘ World.host))
    {sc sc' : Scene (World σ) Report}
    (hsame : (View.ofUnits U).scene sc = (View.ofUnits U).scene sc')
    (hhost : T sc'.stage.state.host = part) :
    let a := (r.executeAll signal 0 (Entry.ofTokens emitted) >>= r.finish).play others sc
    let b := (r'.attend signal (emitted.map (·.1)) 0 >>= r'.finish).play others sc'
    (a.1 = none ↔ b.1 = none) ∧ a.2.SameUnits U r.sink b.2 ∧
      (Scene.SameEnd r.sink a b ∨ a.2.stage.signals.has signal = true ∧
        Event.unitsBegun (a.2.sent r.sink) =
          Event.unitsBegun (sc.sent r.sink) + (Entry.ofTokens emitted).length) := by
  intro a b
  obtain ⟨hscene, hresult⟩ := executeAll_agrees_attend hsink h hunits hothers hpart 0 hsame hhost
  rcases hp : (r.executeAll signal 0 (Entry.ofTokens emitted)).play others sc with ⟨p, sc₁⟩
  rcases hq : (r'.attend signal (emitted.map (·.1)) 0).play others sc' with ⟨q, sc₁'⟩
  rw [hp, hq] at hscene hresult
  rcases hresult with hpq | ⟨hfired, n, hpn, hqn⟩
  · obtain rfl : p = q := hpq
    cases p with
    | none =>
      have ha : a = (none, sc₁) := by simp only [a, Activity.play_bind, hp]
      have hb : b = (none, sc₁') := by simp only [b, Activity.play_bind, hq]
      rw [ha, hb]
      exact ⟨.rfl, Scene.sameUnits_of_scene_eq hscene _, .inl ⟨rfl, fun h => absurd rfl h⟩⟩
    | some p =>
      have ha : a = (r.finish p).play others sc₁ := by simp only [a, Activity.play_bind, hp]
      have hb : b = (r'.finish p).play others sc₁' := by simp only [b, Activity.play_bind, hq]
      have hend : Scene.SameEnd r.sink ((r.finish p).play others sc₁)
        ((r'.finish p).play others sc₁') := sameEnd_finish hsink htold p
      rw [ha, hb]
      exact ⟨hend.1 ▸ .rfl, sameUnits_finish hsink hscene p p, .inl hend⟩
  · obtain rfl : p = some ⟨n, .ok ()⟩ := hpn
    obtain rfl : q = some ⟨n, .error .cancelled⟩ := hqn
    have ha : a = (r.finish ⟨n, .ok ()⟩).play others sc₁ := by simp only [a, Activity.play_bind, hp]
    have hb : b = (r'.finish ⟨n, .error .cancelled⟩).play others sc₁' := by
      simp only [b, Activity.play_bind, hq]
    have hbegun := begun_executeAll hp
    obtain ⟨told, last, sc₂, hfinish, _, hsignals, hsent, hcloses⟩ :=
      r.play_finish others ⟨n, .ok ()⟩ sc₁
    obtain ⟨told', _, sc₂', hfinish', _⟩ := r'.play_finish others ⟨n, .error .cancelled⟩ sc₁'
    rw [ha, hb]
    refine ⟨?_, sameUnits_finish hsink hscene _ _, .inr ⟨?_, ?_⟩⟩
    · rw [hfinish, hfinish']
      simp
    · rw [hfinish, hsignals]
      exact hfired
    · rw [hfinish, ← hbegun, hsent, Event.unitsBegun_append, hcloses.unitsBegun_eq, Nat.add_zero]

end Reporter

theorem Tour.pass_eq_attend {tour : Tour σ} {ids : List TokenId}
    (h : tour.tree.WalksOnce tour.limit ids) (r : Reporter) (signal : Signal) :
    tour.pass r signal = r.attend signal (tour.tree.tokensAt ids) 0 := by
  obtain ⟨⟨hroot, hlisted⟩, hnodup, hwithin⟩ := h
  obtain ⟨root, hroot⟩ := Option.ne_none_iff_exists'.mp hroot
  rw [hroot, Option.toList_some] at hlisted
  rw [pass, TokenTree.start_eq_ok_iff.mpr hroot]
  exact hlisted.walk_eq r signal hnodup (fun _ _ => List.not_mem_nil) hwithin 0

theorem View.ofUnits_announced (sc : Scene (World σ) Report) (strategy : Strategy) (sink : Sink) :
    (ofUnits U).scene (sc.announced strategy sink) = (ofUnits U).scene sc := by
  -- Only the count of runs and what was put out have changed.
  let w := sc.stage.state
  let counted : Scene (World σ) Report :=
    { sc with stage := { sc.stage with state := { w with runsBegun := w.runsBegun + 1 } } }
  have hcounted : (ofUnits U).scene counted = (ofUnits U).scene sc := rfl
  exact (scene_put_unseen counted rfl).trans hcounted

/-- The first execution of a plan and one of the tour show the same, and end
alike unless the signal fires late. -/
theorem Engine.tour_agrees_with_plan {e : Engine} {t : TokenTree (Token σ)} {ids : List TokenId}
    (hwalk : t.WalksOnce e.config.maxTokens ids) {stage : RunStage σ}
    {emitted : List (Token σ × List (FlowUnit σ))}
    (htokens : emitted.map (·.1) = t.tokensAt ids)
    (halike : Token.EmitAlike U T (T stage.state.host) emitted) {signal : Signal}
    (hunits : ∀ e ∈ Entry.ofTokens emitted, e.unit.Discreet U T signal)
    {others : Company (World σ) Report} (hothers : others.Respects (View.ofUnits U))
    (hpart : others.Keeps (T ∘ World.host)) (hfirings : others.KeepsFirings) :
    ∃ plan stage', e.plan .hierarchical t stage = (.ok plan, stage') ∧
      (View.ofUnits U).stage stage' = (View.ofUnits U).stage stage ∧
      ∀ st st' : RunStage σ, plan.id ∉ st.state.spent →
        (View.ofUnits U).stage st = (View.ofUnits U).stage st' →
        T st'.state.host = T stage.state.host →
        let units := (Entry.ofTokens emitted).length
        let planned := (plan.execute signal).play others { stage := st }
        let toured := ((e.tour t).execute signal).play others { stage := st' }
        (planned.1 = none ↔ toured.1 = none) ∧ planned.2.SameUnits U e.sink toured.2 ∧
          ((plan.execute signal).InTime signal e.sink units others { stage := st } ∨
              ((e.tour t).execute signal).InTime signal e.sink units others { stage := st' } →
            Scene.SameEnd e.sink planned toured) := by
  obtain ⟨s', hemitted, hsignals, hU⟩ :=
    halike.emitInTurn [] (s := ⟨stage.state.host, stage.signals⟩) rfl
  obtain ⟨plan, stage', hplan, hentries, hsink, htold, hhost', hsignals', hitems⟩ :=
    plan_emitted hwalk htokens hemitted
  have hview : (View.ofUnits U).stage stage' = (View.ofUnits U).stage stage := by
    have hstate : U stage'.state.host = U stage.state.host := hhost' ▸ hU
    simp only [View.stage, View.ofUnits, Function.comp_apply, hstate, hsignals', hsignals, hitems]
  refine ⟨plan, stage', hplan, hview, fun st st' hfresh hsame hhost => ?_⟩
  intro units planned toured
  let r : Reporter := ⟨st.state.nextRun, e.sink, e.config.surfaceFailures⟩
  let r' : Reporter := ⟨st'.state.nextRun, e.sink, e.config.surfaceFailures⟩
  let sc := (Scene.spending { stage := st } plan.id).announced plan.strategy e.sink
  let sc' := (Scene.mk st' []).announced .immediate e.sink
  have hplanned : planned = (r.executeAll signal 0 (Entry.ofTokens emitted) >>= r.finish).play
      others sc := by
    have hplay : planned = _ := Plan.play_execute hfresh signal
    rw [hentries, hsink, htold] at hplay
    exact hplay
  have htoured : toured = (r'.attend signal (emitted.map (·.1)) 0 >>= r'.finish).play
      others sc' := by
    have hplay : toured = ((e.tour t).pass r' signal >>= r'.finish).play others sc' :=
      (e.tour t).play_execute signal
    have hpass : (e.tour t).pass r' signal = r'.attend signal (t.tokensAt ids) 0 :=
      Tour.pass_eq_attend hwalk r' signal
    rw [hplay, hpass, htokens]
  have hscenes : (View.ofUnits U).scene sc = (View.ofUnits U).scene sc' := by
    rw [View.ofUnits_announced, View.ofUnits_announced]
    exact congrArg (·, []) hsame
  have hreporters : r.sink = r'.sink ∧ r.surfaceFailures = r'.surfaceFailures := ⟨rfl, rfl⟩
  obtain ⟨hcrash, hunits, hend⟩ := Reporter.run_agrees hreporters.1 hreporters.2 halike hunits
    hothers hpart hscenes hhost
  rw [← hplanned, ← htoured] at hcrash hunits hend
  refine ⟨hcrash, hunits, fun hintime => hend.resolve_right ?_⟩
  rintro ⟨hfired, hbegun⟩
  have hnone : Event.unitsBegun (sc.sent e.sink) = 0 := Scene.unitsBegun_announced _ _ _ _
  rw [hnone, Nat.zero_add] at hbegun
  rcases hintime with hintime | hintime
  · exact (Compiled.plan plan).unitsBegun_ne_of_inTime hfirings hintime hfired hbegun
  · rw [hunits.signals] at hfired
    rw [hunits.unitsBegun_eq] at hbegun
    exact (Compiled.tour (e.tour t)).unitsBegun_ne_of_inTime hfirings hintime hfired hbegun

theorem Engine.tour_agrees_branching :
    let e : Engine := { config := { maxTokens := 5, surfaceFailures := true } }
    let stage : RunStage Unit := { state := { host := () } }
    ∃ plan stage', e.plan .hierarchical .branching stage = (.ok plan, stage') ∧
      let planned := (plan.execute 0).play .nobody { stage }
      let toured := ((e.tour .branching).execute 0).play .nobody { stage }
      planned.2.SameUnits id e.sink toured.2 ∧ Scene.SameEnd e.sink planned toured ∧
        toured.1 = some (.error .cancelled) := by
  intro e stage
  have hwalk : TokenTree.branching.WalksOnce e.config.maxTokens [0, 1, 2, 3, 4] :=
    TokenTree.walksOnce_branching
  have halike : Token.EmitAlike id (fun _ => ()) () TokenTree.branchingUnits := by
    iterate 5 refine .cons (fun shown s _ => ⟨s, Token.emits_putting _ _ _ _, rfl, rfl, rfl⟩) ?_
    exact .nil
  have hdiscreet : ∀ e ∈ Entry.ofTokens TokenTree.branchingUnits,
      e.unit.Discreet id (fun _ => ()) 0 := fun e _ => e.unit.discreet_id 0
  have hothers : (Company.nobody : Company (World Unit) Report).Respects (View.ofUnits id) :=
    fun _ _ h => congrArg (·.1) h
  obtain ⟨plan, stage', hplan, _, hagree⟩ := Engine.tour_agrees_with_plan hwalk rfl halike
    hdiscreet hothers (fun _ _ => rfl) (fun _ _ _ h => h)
  obtain ⟨_, hunits, hend⟩ := hagree stage stage List.not_mem_nil rfl rfl
  -- The unit "y" fires the signal while those of two tokens are still to be begun.
  refine ⟨plan, stage', hplan, hunits, hend (.inr (.inr ?_)), rfl⟩
  decide

end Flowchart
