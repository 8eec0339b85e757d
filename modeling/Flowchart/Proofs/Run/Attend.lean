import Flowchart.Proofs.Activity.Play
import Flowchart.Run

/-! Tokens attended to in a row: what a run does with a list of them, whichever tree they are from. -/
namespace Flowchart

def Event.resolvedToken? : Event → Option String
  | tokenResolved _ token _ => some token
  | _ => none

def Deed.resolvedToken? : Deed Report → Option String
  | .put (.event _ (.tokenResolved _ token _)) => some token
  | _ => none

/-- Whether a fault is a cancellation, or lies with a token or a unit and not with the walk. -/
def Fault.blamesToken : Fault → Bool
  | .cancelled | .resolveFailed .. | .unitFailed .. => true
  | _ => false

def Progress.BlamesToken (p : Progress) : Prop :=
  match p.outcome with
  | .ok () => True
  | .error f => f.blamesToken = true

/-- Go on with `f` from the number of units begun, unless something went wrong. -/
def Progress.onward {σ : Type} (f : Nat → RunActivity σ Progress) : Progress → RunActivity σ Progress
  | ⟨started, .ok ()⟩ => f started
  | p => return p

namespace Reporter

variable {σ : Type}

def attendTo (r : Reporter) (signal : Signal) (token : Token σ) (started : Nat) :
    RunActivity σ Progress := do
  if ← .hasFired signal then
    return ⟨started, .error .cancelled⟩
  let (outcome, acc) ← (token.resolve.within { current := token.label }).inRun
  match token.resolved outcome with
  | .error e => return ⟨started, .error e⟩
  | .ok () =>
    r.send (.tokenResolved r.run token.label acc.entries.size)
    r.executeAll signal started acc.entries.toList

/-- Report how a unit that was executed has ended; a cancellation is not reported. -/
def conclude (r : Reporter) (e : Entry σ) (started : Nat) : Outcome → RunActivity σ Progress
  | .ok () => do
    r.send (.unitCompleted r.run e.unit.label e.token)
    return ⟨started + 1, .ok ()⟩
  | .error f =>
    if f.isCancelled then
      return ⟨started + 1, .error .cancelled⟩
    else do
      r.send (.unitFailed r.run e.unit.label e.token f.message)
      return ⟨started + 1, .error (.unitFailed e.unit.label e.token f)⟩

def attend (r : Reporter) (signal : Signal) : List (Token σ) → Nat → RunActivity σ Progress
  | [], started => return ⟨started, .ok ()⟩
  | token :: rest, started => r.attendTo signal token started >>= Progress.onward (r.attend signal rest)

end Reporter

/-- As part of a run a filling does what it does on its own. -/
theorem Filling.play_within {σ α : Type} (f : Filling σ α) (acc : Accumulator σ)
    {others : Company (World σ) Report} (sc : Scene (World σ) Report) :
    (Activity.inRun (f.within acc)).play others sc =
      let (x, acc, host, signals) := f.run acc sc.stage.state.host sc.stage.signals
      (some (x, acc), { sc with stage := { sc.stage with
        state := { sc.stage.state with host }, signals } }) := by
  induction f generalizing acc sc with
  | done x => rfl
  | push u next ih => exact ih _ sc
  | clear next ih => exact ih _ sc
  | drain next ih => exact ih _ _ sc
  | look next ih => exact ih _ _ sc
  | get next ih => exact ih _ acc sc
  | set s next ih =>
    exact ih acc { sc with stage := { sc.stage with state := { sc.stage.state with host := s } } }
  | fire signal next ih =>
    exact ih acc { sc with stage := { sc.stage with signals := sc.stage.signals.fire signal } }
  | poll signal next ih => exact ih _ acc sc

namespace Progress

variable {σ : Type}

theorem onward_bind (p : Progress) (f g : Nat → RunActivity σ Progress) :
    p.onward f >>= onward g = p.onward fun started => f started >>= onward g := by
  obtain ⟨started, e | _⟩ := p <;> rfl

theorem bind_onward_bind (a : RunActivity σ Progress) (f g : Nat → RunActivity σ Progress) :
    (a >>= onward f) >>= onward g = a >>= onward fun started => f started >>= onward g := by
  rw [bind_assoc]
  exact bind_congr fun p => p.onward_bind f g

theorem onward_pure (p : Progress) :
    p.onward (fun started => (return ⟨started, .ok ()⟩ : RunActivity σ Progress)) = pure p := by
  obtain ⟨started, e | _⟩ := p <;> rfl

theorem play_bind_onward_eq_ok {a : RunActivity σ Progress} {f : Nat → RunActivity σ Progress}
    {others : Company (World σ) Report} {sc sc' : Scene (World σ) Report} {ended : Nat}
    (h : (a >>= onward f).play others sc = (some ⟨ended, .ok ()⟩, sc')) :
    ∃ started sc₁, a.play others sc = (some ⟨started, .ok ()⟩, sc₁) ∧
      (f started).play others sc₁ = (some ⟨ended, .ok ()⟩, sc') := by
  obtain ⟨⟨started, outcome⟩, sc₁, ha, hf⟩ := Activity.play_bind_eq_some_iff.mp h
  cases outcome with
  | error e => cases hf
  | ok => exact ⟨started, sc₁, ha, hf⟩

end Progress

namespace Reporter

variable {σ : Type} {r : Reporter} {signal : Signal}

/-- What attending to a token comes to: how it is resolved, and then its units. -/
theorem play_attendTo_eq {others : Company (World σ) Report} {sc : Scene (World σ) Report}
    (quiet : sc.stage.signals.has signal = false) (token : Token σ) (started : Nat) :
    (r.attendTo signal token started).play others sc =
      let (outcome, acc, host, signals) :=
        token.resolve.run { current := token.label } sc.stage.state.host sc.stage.signals
      let resolved : Scene (World σ) Report :=
        { sc with stage := { sc.stage with state := { sc.stage.state with host }, signals } }
      match token.resolved outcome with
      | .error f => (some ⟨started, .error f⟩, resolved)
      | .ok () => (r.send (.tokenResolved r.run token.label acc.entries.size) >>= fun _ =>
          r.executeAll signal started acc.entries.toList).play others resolved := by
  rw [attendTo, Activity.play_hasFired_bind, quiet]
  simp only [Bool.false_eq_true, if_false]
  rw [Activity.play_bind, Filling.play_within]
  dsimp only
  cases token.resolved _ with
  | error f => rfl
  | ok => rfl

theorem attend_append (ts us : List (Token σ)) (started : Nat) :
    r.attend signal (ts ++ us) started =
      r.attend signal ts started >>= Progress.onward (r.attend signal us) := by
  induction ts generalizing started with
  | nil => rfl
  | cons token ts ih =>
    have hrest : r.attend signal (ts ++ us) = fun started =>
        r.attend signal ts started >>= Progress.onward (r.attend signal us) := funext ih
    rw [List.cons_append, attend, attend, Progress.bind_onward_bind, hrest]

theorem attend_singleton (token : Token σ) (started : Nat) :
    r.attend signal [token] started = r.attendTo signal token started := by
  have hnil : r.attend signal ([] : List (Token σ)) = fun started => return ⟨started, .ok ()⟩ := rfl
  rw [attend, hnil]
  exact (bind_congr Progress.onward_pure).trans (bind_pure _)

theorem execute_eq (e : Entry σ) (started : Nat) : r.execute signal e started =
    .hasFired signal >>= fun fired =>
      if fired then return ⟨started, .error .cancelled⟩
      else r.send (.unitStarted r.run e.unit.label e.token) >>= fun _ =>
        (e.unit.execute signal).inRun >>= r.conclude e started := by
  rw [execute]
  refine bind_congr fun fired => ?_
  cases fired with
  | true => rfl
  | false =>
    refine bind_congr fun _ => bind_congr fun outcome => ?_
    cases outcome with
    | error f => rfl
    | ok => rfl

theorem conclude_cases {P : RunActivity σ Progress → Prop} {e : Entry σ} {started : Nat}
    (completed : P (r.send (.unitCompleted r.run e.unit.label e.token) >>= fun _ =>
      pure ⟨started + 1, .ok ()⟩))
    (cancelled : P (pure ⟨started + 1, .error .cancelled⟩))
    (failed : ∀ f, P (r.send (.unitFailed r.run e.unit.label e.token f.message) >>= fun _ =>
      pure ⟨started + 1, .error (.unitFailed e.unit.label e.token f)⟩)) (outcome : Outcome) :
    P (r.conclude e started outcome) := by
  cases outcome with
  | ok => exact completed
  | error f =>
    rw [conclude]
    split
    · exact cancelled
    · exact failed f

section Closing

variable {P : (α : Type) → RunActivity σ α → Prop} (pure : ∀ {α : Type} (x : α), P α (pure x))
  (bind : ∀ {α β : Type} {a : RunActivity σ α} {f : α → RunActivity σ β},
    P α a → (∀ x, P β (f x)) → P β (a >>= f))
  (send : ∀ e : Event, e.run = r.run → e.startedUnit? = none → e.resolvedToken? = none →
    P Unit (r.send e))
include pure bind send

/-- A property passes from the events that neither begin a unit nor report a
token to what follows a unit. -/
theorem conclude_passes (e : Entry σ) (started : Nat) (outcome : Outcome) :
    P Progress (r.conclude e started outcome) := by
  apply conclude_cases
  · exact bind (send _ rfl rfl rfl) fun _ => pure _
  · exact pure _
  · exact fun f => bind (send _ rfl rfl rfl) fun _ => pure _

/-- It passes to the end of a run as well, if lines of the log have it. -/
theorem finish_passes (log : ∀ line, P Unit (.tell (.log line))) (p : Progress) :
    P Outcome (r.finish p) := by
  obtain ⟨n, f | _⟩ := p
  · unfold finish
    dsimp only
    split
    · exact bind (log _) fun _ => bind (send _ rfl rfl rfl) fun _ => pure _
    · refine bind (log _) fun _ => ?_
      split
      · exact bind (send _ rfl rfl rfl) fun _ => pure _
      · exact bind (send _ rfl rfl rfl) fun _ => pure _
  · exact bind (send _ rfl rfl rfl) fun _ => pure _

end Closing

section Play

variable {others : Company (World σ) Report}

theorem executeAll_cons (e : Entry σ) (es : List (Entry σ)) (started : Nat) :
    r.executeAll signal started (e :: es) =
      r.execute signal e started >>= Progress.onward fun n => r.executeAll signal n es := by
  rw [executeAll]
  refine bind_congr fun p => ?_
  obtain ⟨n, f | _⟩ := p <;> rfl

theorem executeAll_append (es fs : List (Entry σ)) (started : Nat) :
    r.executeAll signal started (es ++ fs) =
      r.executeAll signal started es >>= Progress.onward fun n => r.executeAll signal n fs := by
  induction es generalizing started with
  | nil => rfl
  | cons e es ih =>
    rw [List.cons_append, executeAll_cons, executeAll_cons, Progress.bind_onward_bind]
    exact bind_congr fun p => congrArg (Progress.onward · p) (funext fun n => ih n)

theorem play_executeAll_fired {sc : Scene (World σ) Report}
    (h : sc.stage.signals.has signal = true) (entries : List (Entry σ)) (started : Nat) :
    (r.executeAll signal started entries).play others sc =
      (some ⟨started, if entries = [] then .ok () else .error .cancelled⟩, sc) := by
  cases entries with
  | nil => rfl
  | cons e rest =>
    rw [executeAll, Activity.play_bind, execute, Activity.play_hasFired_bind, h]
    rfl

theorem play_attendTo_fired {sc : Scene (World σ) Report}
    (h : sc.stage.signals.has signal = true) (token : Token σ) (started : Nat) :
    (r.attendTo signal token started).play others sc =
      (some ⟨started, .error .cancelled⟩, sc) := by
  rw [attendTo, Activity.play_hasFired_bind, h]
  rfl

end Play

/-- A property of activities passes from what a run consists of to what is put together from it. -/
structure Passes (P : (α : Type) → RunActivity σ α → Prop) (r : Reporter) (signal : Signal) : Prop where
  pure : ∀ {α : Type} (x : α), P α (pure x)
  bind : ∀ {α β : Type} {a : RunActivity σ α} {f : α → RunActivity σ β},
    P α a → (∀ x, P β (f x)) → P β (a >>= f)
  hasFired : P Bool (.hasFired signal)
  inRun : ∀ {α : Type} (a : Activity σ LogLine α), P α a.inRun
  execute : ∀ (e : Entry σ) started, P Progress (r.execute signal e started)

namespace Passes

variable {P : (α : Type) → RunActivity σ α → Prop}

theorem onward (h : Passes P r signal) {f : Nat → RunActivity σ Progress} (hf : ∀ n, P Progress (f n))
    (p : Progress) : P Progress (p.onward f) := by
  obtain ⟨started, e | _⟩ := p
  · exact h.pure _
  · exact hf started

theorem executeAll (h : Passes P r signal) (entries : List (Entry σ)) (started : Nat) :
    P Progress (r.executeAll signal started entries) := by
  induction entries generalizing started with
  | nil => exact h.pure _
  | cons e rest ih =>
    refine h.bind (h.execute e started) fun p => ?_
    obtain ⟨started, f | _⟩ := p
    · exact h.pure _
    · exact ih started

theorem attendTo (h : Passes P r signal)
    (resolved : ∀ token n, P Unit (r.send (.tokenResolved r.run token n))) (token : Token σ)
    (started : Nat) : P Progress (r.attendTo signal token started) := by
  refine h.bind h.hasFired fun fired => ?_
  cases fired with
  | true => exact h.pure _
  | false =>
    refine h.bind (h.inRun _) fun result => ?_
    obtain ⟨f | _, acc⟩ := result
    · exact h.pure _
    · exact h.bind (resolved _ _) fun _ => h.executeAll _ _

end Passes

section Resolved

open Activity

theorem hides_inRun {α : Type} (a : Activity σ LogLine α) :
    Hides Deed.resolvedToken? (a.inRun : RunActivity σ α) :=
  Hides.embed (fun _ => rfl) (fun _ _ => rfl) a

theorem hides_execute (e : Entry σ) (started : Nat) :
    Hides Deed.resolvedToken? (r.execute signal e started) := by
  rw [execute_eq]
  apply Hides.bind (.hasFired signal)
  intro fired
  cases fired with
  | true => exact .pure _
  | false =>
    refine Hides.bind (.tell rfl) fun _ => Hides.bind (hides_inRun _) ?_
    apply conclude_cases
    · exact Hides.bind (.tell rfl) fun _ => .pure _
    · exact .pure _
    · exact fun f => Hides.bind (.tell rfl) fun _ => .pure _

theorem hides_executeAll (entries : List (Entry σ)) (started : Nat) :
    Hides Deed.resolvedToken? (r.executeAll signal started entries) :=
  Passes.executeAll ⟨.pure, Hides.bind, .hasFired signal, hides_inRun, hides_execute⟩ entries started

theorem attendTo_resolved {others : Company (World σ) Report} {sc sc' : Scene (World σ) Report}
    {token : Token σ} {started ended : Nat}
    (h : (r.attendTo signal token started).play others sc = (some ⟨ended, .ok ()⟩, sc')) :
    sc'.deeds.filterMap Deed.resolvedToken? =
      sc.deeds.filterMap Deed.resolvedToken? ++ [token.label] := by
  obtain ⟨fired, sc₁, hpoll, h⟩ := play_bind_eq_some_iff.mp h
  cases hpoll
  split at h
  · cases h
  · obtain ⟨⟨outcome, acc⟩, sc₂, hresolve, h⟩ := play_bind_eq_some_iff.mp h
    have hsc₂ := (hides_inRun _).filterMap_eq hresolve
    dsimp only at h
    split at h
    · cases h
    · obtain ⟨_, sc₃, hsend, h⟩ := play_bind_eq_some_iff.mp h
      cases hsend
      have hsc' := (hides_executeAll _ _).filterMap_eq h
      rw [hsc', List.filterMap_append, hsc₂]
      rfl

/-- A row of tokens that all end well is reported token by token. -/
theorem attend_resolved {others : Company (World σ) Report} {sc sc' : Scene (World σ) Report}
    {tokens : List (Token σ)} {started ended : Nat}
    (h : (r.attend signal tokens started).play others sc = (some ⟨ended, .ok ()⟩, sc')) :
    sc'.deeds.filterMap Deed.resolvedToken? =
      sc.deeds.filterMap Deed.resolvedToken? ++ tokens.map (·.label) := by
  induction tokens generalizing started sc with
  | nil =>
    cases h
    simp
  | cons token rest ih =>
    obtain ⟨n, sc₁, htoken, hrest⟩ := Progress.play_bind_onward_eq_ok h
    rw [ih hrest, attendTo_resolved htoken, List.map_cons, List.append_assoc]
    rfl

end Resolved

section Blame

open Activity

theorem execute_blames (e : Entry σ) (started : Nat) :
    Ends Progress.BlamesToken (r.execute signal e started) := by
  rw [execute_eq]
  refine (Ends.trivial _).bind fun fired _ => ?_
  cases fired with
  | true => exact .pure rfl
  | false =>
    refine (Ends.trivial _).bind fun _ _ => (Ends.trivial _).bind fun outcome _ => ?_
    apply conclude_cases
    · exact (Ends.trivial _).bind fun _ _ => .pure True.intro
    · exact .pure rfl
    · exact fun f => (Ends.trivial _).bind fun _ _ => .pure rfl

theorem executeAll_blames (entries : List (Entry σ)) (started : Nat) :
    Ends Progress.BlamesToken (r.executeAll signal started entries) := by
  induction entries generalizing started with
  | nil => exact .pure True.intro
  | cons e rest ih =>
    refine (execute_blames e started).bind fun p hp => ?_
    obtain ⟨started, f | _⟩ := p
    · exact .pure hp
    · exact ih started

theorem attendTo_blames (token : Token σ) (started : Nat) :
    Ends Progress.BlamesToken (r.attendTo signal token started) := by
  refine (Ends.trivial _).bind fun fired _ => ?_
  cases fired with
  | true => exact .pure rfl
  | false =>
    refine (Ends.trivial _).bind fun result _ => ?_
    obtain ⟨outcome, acc⟩ := result
    cases outcome with
    | error f => exact .pure rfl
    | ok => exact (Ends.trivial _).bind fun _ _ => executeAll_blames _ _

/-- What fails while tokens are attended to is a token or one of its units. -/
theorem attend_blames (tokens : List (Token σ)) (started : Nat) :
    Ends Progress.BlamesToken (r.attend signal tokens started) := by
  induction tokens generalizing started with
  | nil => exact .pure True.intro
  | cons token rest ih =>
    refine (attendTo_blames token started).bind fun p hp => ?_
    obtain ⟨started, f | _⟩ := p
    · exact .pure hp
    · exact ih started

end Blame

end Reporter

end Flowchart
