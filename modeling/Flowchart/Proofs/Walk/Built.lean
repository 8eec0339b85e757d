import Flowchart.Engine
import Flowchart.Proofs.Run.Beginning
import Flowchart.Proofs.Walk.Guarded

/-! Plans and runs of token trees that were built call by call, with links of any shape. -/
namespace Flowchart

/-- The pass of a run over its tree, between its announcement and its closing. -/
def Tour.pass {σ : Type} (tour : Tour σ) (r : Reporter) (signal : Signal) :
    RunActivity σ Progress :=
  match tour.tree.start with
  | .error f => return ⟨0, .error f⟩
  | .ok root => r.walk signal tour.tree tour.limit tour.limit [root] [] 0

theorem Tour.execute_eq {σ : Type} (tour : Tour σ) (signal : Signal) :
    tour.execute signal =
      Reporter.start .immediate tour.sink tour.surfaceFailures >>= fun r =>
        tour.pass r signal >>= r.finish := by
  unfold Tour.execute Tour.pass
  apply bind_congr
  intro r
  cases tour.tree.start <;> rfl

theorem Tour.play_execute {σ : Type} {others : Company (World σ) Report}
    {sc : Scene (World σ) Report} (tour : Tour σ) (signal : Signal) :
    (tour.execute signal).play others sc =
      let r : Reporter := ⟨sc.stage.state.nextRun, tour.sink, tour.surfaceFailures⟩
      (tour.pass r signal >>= r.finish).play others (sc.announced .immediate tour.sink) := by
  rw [execute_eq, Activity.play_bind, Reporter.play_start]

namespace TokenTree

variable {σ : Type}

/-- A plan of the tree resolves just these tokens, in order, and then may fail with `stop`. -/
def PlannedAs (t : TokenTree (Token σ)) (strategy : Strategy) (limit : Nat)
    (tokens : List (Token σ)) (stop : Option Fault) : Prop :=
  ∀ (e : Engine) (stage : RunStage σ), e.config.maxTokens = limit →
    let (result, s) := Token.resolveAll tokens {} ⟨stage.state.host, stage.signals⟩
    let (plan, stage') := e.plan strategy t stage
    (plan.map (·.entries) = result.bind fun acc =>
      match stop with
      | none => .ok acc.entries.toList
      | some f => .error f) ∧
    stage'.state.host = s.host ∧ stage'.signals = s.signals

/-- A run over the tree attends to just these tokens, in order, and then may end with `stop`. -/
structure TouredAs (t : TokenTree (Token σ)) (limit : Nat) (tokens : List (Token σ))
    (stop : Option Fault) : Prop where
  pass_eq : ∀ (tour : Tour σ), tour.tree = t → tour.limit = limit → ∀ r signal,
    tour.pass r signal = r.attend signal tokens 0 >>= Progress.onward (Reporter.halt signal stop)
  play_eq : ∀ (tour : Tour σ), tour.tree = t → tour.limit = limit → ∀ r signal others sc n sc',
    (r.attend signal tokens 0).play others sc = (some ⟨n, .ok ()⟩, sc') →
    sc'.stage.signals.has signal = false →
    (tour.pass r signal).play others sc =
      (some ⟨n, match stop with | none => .ok () | some f => .error f⟩, sc') ∧
    sc'.deeds.filterMap Deed.resolvedToken? =
      sc.deeds.filterMap Deed.resolvedToken? ++ tokens.map (·.label)

variable {t : TokenTree (Token σ)} {strategy : Strategy} {limit k : Nat} {stop : Option Fault}

theorem start_eq_ok_iff {root : TokenId} : t.start = .ok root ↔ t.root = some root := by
  unfold start
  cases t.root with
  | none => simp [throw, throwThe, MonadExceptOf.throw]
  | some id => simp [pure, Except.pure]

theorem EndsAt.plannedAs (h : t.EndsAt strategy limit k stop) (hc : t.Closed) {root : TokenId}
    (hroot : t.root = some root) :
    t.PlannedAs strategy limit (t.tokensAt (t.past strategy k)) stop := by
  rintro e stage rfl
  have hgather := h.gather_eq hc {} ⟨stage.state.host, stage.signals⟩
  rw [hroot, Option.toList_some] at hgather
  dsimp only
  rw [Engine.plan, start_eq_ok_iff.mpr hroot]
  dsimp only
  rw [hgather]
  rcases Token.resolveAll _ {} _ with ⟨f | acc, s⟩
  · exact ⟨rfl, rfl, rfl⟩
  · cases stop with
    | none => exact ⟨rfl, rfl, rfl⟩
    | some f => exact ⟨rfl, rfl, rfl⟩

theorem EndsAt.touredAs (h : t.EndsAt .immediate limit k stop) (hc : t.Closed) {root : TokenId}
    (hroot : t.root = some root) :
    t.TouredAs limit (t.tokensAt (t.past .immediate k)) stop := by
  have hpass : ∀ (tour : Tour σ), tour.tree = t → tour.limit = limit → ∀ r signal,
      tour.pass r signal = r.attend signal (t.tokensAt (t.past .immediate k)) 0 >>=
        Progress.onward (Reporter.halt signal stop) := by
    rintro tour rfl rfl r signal
    have hwalk := h.walk_eq hc r signal
    rw [hroot, Option.toList_some] at hwalk
    rw [Tour.pass, start_eq_ok_iff.mpr hroot]
    exact hwalk
  refine ⟨hpass, fun tour ht hl r signal others sc n sc' hattend hquiet => ?_⟩
  refine ⟨?_, Reporter.attend_resolved hattend⟩
  rw [hpass tour ht hl, Activity.play_bind, hattend]
  cases stop with
  | none => rfl
  | some f =>
    have hpoll : ∀ g : Bool → RunActivity σ Progress, (Activity.poll signal g).play others sc' =
        (g false).play others sc' := by
      intro g
      rw [Activity.play, hquiet]
    exact hpoll _

theorem fault_ne_of_blamesToken {f : Fault} (h : f.blamesToken = true) :
    (∀ id, f ≠ .unknownToken id) ∧ f ≠ .missingRoot := by
  cases f <;> simp_all [Fault.blamesToken]

theorem EndsAt.fault_ne {f : Fault} (h : t.EndsAt strategy limit k (some f)) :
    (∀ id, f ≠ .unknownToken id) ∧ f ≠ .missingRoot := by
  cases h with
  | revisited => simp
  | exceeded => simp

theorem EndsAt.plan_fails (h : t.EndsAt strategy limit k stop) (hc : t.Closed) {root : TokenId}
    (hroot : t.root = some root) {e : Engine} {stage : RunStage σ} (he : e.config.maxTokens = limit)
    {f : Fault} (hf : (e.plan strategy t stage).1 = .error f) :
    f.blamesToken = true ∨ stop = some f := by
  have hplan := (h.plannedAs hc hroot e stage he).1
  change (e.plan strategy t stage).1.map _ = _ at hplan
  rw [hf] at hplan
  cases hres : Token.resolveAll (t.tokensAt (t.past strategy k)) {}
      ⟨stage.state.host, stage.signals⟩ with
  | mk result s =>
    rw [hres] at hplan
    cases result with
    | error g =>
      cases hplan
      obtain ⟨token, _, e, rfl⟩ := Token.resolveAll_eq_error hres
      exact .inl rfl
    | ok acc =>
      cases stop with
      | none => cases hplan
      | some g =>
        cases hplan
        exact .inr rfl

theorem EndsAt.pass_fails (h : t.EndsAt .immediate limit k stop) (hc : t.Closed) {root : TokenId}
    (hroot : t.root = some root) {tour : Tour σ} (ht : tour.tree = t) (hl : tour.limit = limit)
    (r : Reporter) (signal : Signal) :
    Activity.Ends (fun p : Progress => ∀ f, p.outcome = .error f →
      f.blamesToken = true ∨ stop = some f) (tour.pass r signal) := by
  rw [(h.touredAs hc hroot).pass_eq tour ht hl]
  refine (Reporter.attend_blames _ _).bind fun p hp => ?_
  obtain ⟨started, g | _⟩ := p
  · refine .pure fun f hf => ?_
    cases hf
    exact .inl hp
  · cases stop with
    | none => exact .pure fun f hf => by cases hf
    | some g =>
      refine (Activity.Ends.trivial _).bind fun fired _ => ?_
      cases fired with
      | true => exact .pure fun f hf => by cases hf; exact .inl rfl
      | false => exact .pure fun f hf => by cases hf; exact .inr rfl

theorem EndsAt.plan_fault (h : t.EndsAt strategy limit k stop) (hc : t.Closed) {root : TokenId}
    (hroot : t.root = some root) {e : Engine} {stage : RunStage σ} (he : e.config.maxTokens = limit)
    {f : Fault} (hf : (e.plan strategy t stage).1 = .error f) :
    (∀ id, f ≠ .unknownToken id) ∧ f ≠ .missingRoot := by
  rcases h.plan_fails hc hroot he hf with hblames | rfl
  · exact fault_ne_of_blamesToken hblames
  · exact h.fault_ne

theorem EndsAt.pass_fault (h : t.EndsAt .immediate limit k stop) (hc : t.Closed) {root : TokenId}
    (hroot : t.root = some root) {tour : Tour σ} (ht : tour.tree = t) (hl : tour.limit = limit)
    {r : Reporter} {signal : Signal} {others : Company (World σ) Report}
    {sc sc' : Scene (World σ) Report} {n : Nat} {f : Fault}
    (hf : (tour.pass r signal).play others sc = (some ⟨n, .error f⟩, sc')) :
    (∀ id, f ≠ .unknownToken id) ∧ f ≠ .missingRoot := by
  rcases h.pass_fails hc hroot ht hl r signal others sc _ sc' hf f rfl with hblames | rfl
  · exact fault_ne_of_blamesToken hblames
  · exact h.fault_ne

theorem compile_rootless (hroot : t.root = none) {e : Engine} {stage : RunStage σ} {f : Fault}
    (hf : (e.compile t stage).1 = .error f) : f = .missingRoot := by
  unfold Engine.compile at hf
  have hplan : ∀ strategy, (e.plan strategy t stage).1 = .error .missingRoot := by
    intro strategy
    rw [Engine.plan, start, hroot]
    rfl
  split at hf
  · rw [start, hroot] at hf
    cases hf
    rfl
  · dsimp only at hf
    rw [hplan] at hf
    cases hf
    rfl

theorem Closed.compile_fault (hc : t.Closed) {root : TokenId} (hroot : t.root = some root)
    {e : Engine} {stage : RunStage σ} {f : Fault} (hf : (e.compile t stage).1 = .error f) :
    (∀ id, f ≠ .unknownToken id) ∧ f ≠ .missingRoot := by
  unfold Engine.compile at hf
  split at hf
  · rw [start_eq_ok_iff.mpr hroot] at hf
    cases hf
  · dsimp only at hf
    obtain ⟨k, stop, h⟩ := hc.exists_endsAt e.config.strategy e.config.maxTokens
    cases hplan : (e.plan e.config.strategy t stage).1 with
    | error g =>
      rw [hplan] at hf
      cases hf
      exact h.plan_fault hc hroot rfl hplan
    | ok plan =>
      rw [hplan] at hf
      cases hf

theorem Closed.root_eq_none_iff (hc : t.Closed) : t.root = none ↔ t.size = 0 := by
  refine ⟨hc.empty_of_rootless, fun hsize => ?_⟩
  by_contra hne
  obtain ⟨root, hroot⟩ := Option.ne_none_iff_exists'.mp hne
  exact Nat.not_lt_zero root (hsize ▸ hc.root_lt root hroot)

/-- Whatever calls make a tree, a guarded walk ends at the first position it may not go on to. -/
theorem ofCalls_walk (calls : List (TreeCall (Token σ))) (strategy : Strategy) (limit : Nat) :
    let t := ofCalls calls
    let pushed := calls.flatMap TreeCall.pushed
    (∀ (e : Engine) (stage : RunStage σ) (f : Fault), (e.compile t stage).1 = .error f →
      (∀ id, f ≠ .unknownToken id) ∧ (f = .missingRoot → pushed = [])) ∧
    (∀ (tour : Tour σ), tour.tree = t → tour.limit = limit → ∀ r signal others sc n f sc',
      (tour.pass r signal).play others sc = (some ⟨n, .error f⟩, sc') →
      (∀ id, f ≠ .unknownToken id) ∧ (f = .missingRoot → pushed = [])) ∧
    (pushed ≠ [] → ∃ k stop, t.EndsAt strategy limit k stop ∧
      (∀ k' stop', t.EndsAt strategy limit k' stop' → k' = k ∧ stop' = stop) ∧
      k ≤ limit ∧ k ≤ pushed.length ∧
      t.PlannedAs strategy limit (t.tokensAt (t.past strategy k)) stop ∧
      (strategy = .immediate → t.TouredAs limit (t.tokensAt (t.past strategy k)) stop)) := by
  intro t pushed
  have hc : t.Closed := Closed.ofCalls calls
  have hsize : t.size = pushed.length := size_ofCalls calls
  have hrootless : t.root = none ↔ pushed = [] := by
    rw [hc.root_eq_none_iff, hsize, List.length_eq_zero_iff]
  refine ⟨fun e stage f hf => ?_, fun tour ht hl r signal others sc n f sc' hf => ?_, fun hne => ?_⟩
  · cases hroot : t.root with
    | none =>
      obtain rfl := compile_rootless hroot hf
      exact ⟨fun _ => nofun, fun _ => hrootless.mp hroot⟩
    | some root =>
      obtain ⟨hunknown, hmissing⟩ := hc.compile_fault hroot hf
      exact ⟨hunknown, fun hm => absurd hm hmissing⟩
  · obtain ⟨k, stop, h⟩ := hc.exists_endsAt .immediate limit
    cases hroot : t.root with
    | none =>
      rw [Tour.pass, ht, start, hroot] at hf
      cases hf
      exact ⟨fun _ => nofun, fun _ => hrootless.mp hroot⟩
    | some root =>
      obtain ⟨hunknown, hmissing⟩ := h.pass_fault hc hroot ht hl hf
      exact ⟨hunknown, fun hm => absurd hm hmissing⟩
  · obtain ⟨k, stop, h⟩ := hc.exists_endsAt strategy limit
    obtain ⟨root, hroot⟩ := Option.ne_none_iff_exists'.mp (mt hrootless.mp hne)
    refine ⟨k, stop, h, fun k' stop' h' => h.unique h', h.le_limit, hsize ▸ h.le_size hc,
      h.plannedAs hc hroot, ?_⟩
    rintro rfl
    exact h.touredAs hc hroot

end TokenTree

end Flowchart
