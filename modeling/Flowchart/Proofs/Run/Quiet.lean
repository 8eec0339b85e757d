import Flowchart.Proofs.Run.Attend

/-! What a run does that has its stage to itself and whose signal does not fire. -/
namespace Flowchart

/-- What a host sees of units at work. -/
inductive Effect
  | began (unit : String)
  | logged (line : LogLine)
  | waited (ms : Nat)
deriving DecidableEq, Repr

def Deed.effect? : Deed Report → Option Effect
  | .put (.event _ (.unitStarted _ unit _)) => some (.began unit)
  | .put (.log line) => some (.logged line)
  | .waited ms _ => some (.waited ms)
  | _ => none

variable {σ α β : Type}

/-- In any company an activity whose signal does not fire ends with `x`,
these effects and state `s'`. -/
def Activity.Yields (signal : Signal) (a : RunActivity σ α) (s : σ) (x : α)
    (effects : List Effect) (s' : σ) : Prop :=
  ∀ sc : Scene (World σ) Report, sc.stage.signals.has signal = false → sc.stage.state.host = s →
    ∃ sc', a.play .nobody sc = (some x, sc') ∧ sc'.stage.signals = sc.stage.signals ∧
      sc'.stage.state = { sc.stage.state with host := s' } ∧
      sc'.deeds.filterMap Deed.effect? = sc.deeds.filterMap Deed.effect? ++ effects

def Reporter.answer (r : Reporter) (outcome : Outcome) : Outcome :=
  if r.surfaceFailures then outcome else .ok ()

def Reporter.closing (r : Reporter) : Outcome → List Effect
  | .ok () => []
  | .error f => [.logged ⟨.error, s!"Flow run {r.run} stopped: {f.message}"⟩]

namespace Activity.Yields

variable {signal : Signal} {s s₁ s' : σ} {x : α} {y : β} {effects effects₁ : List Effect}

theorem pure (x : α) : Yields signal (Pure.pure x) s x [] s := by
  rintro sc _ rfl
  exact ⟨sc, rfl, rfl, rfl, by simp⟩

theorem bind {a : RunActivity σ α} {f : α → RunActivity σ β}
    (ha : Yields signal a s x effects s₁) (hf : Yields signal (f x) s₁ y effects₁ s') :
    Yields signal (a >>= f) s y (effects ++ effects₁) s' := by
  intro sc hquiet hs
  obtain ⟨sc₁, hplay, hsignals, hstate, hdeeds⟩ := ha sc hquiet hs
  have hhost : sc₁.stage.state.host = s₁ := by rw [hstate]
  obtain ⟨sc', hplay', hsignals', hstate', hdeeds'⟩ := hf sc₁ (hsignals ▸ hquiet) hhost
  refine ⟨sc', play_bind_eq_some_iff.mpr ⟨x, sc₁, hplay, hplay'⟩, hsignals'.trans hsignals, ?_, ?_⟩
  · rw [hstate', hstate]
  · rw [hdeeds', hdeeds, List.append_assoc]

theorem hasFired : Yields signal (.hasFired signal) s false [] s := by
  rintro sc hquiet rfl
  refine ⟨sc, ?_, rfl, rfl, by simp⟩
  rw [Activity.hasFired, play, hquiet]
  rfl

theorem tell (o : Report) : Yields signal (.tell o) s () (Deed.effect? (.put o)).toList s := by
  rintro sc _ rfl
  refine ⟨_, rfl, rfl, rfl, ?_⟩
  rw [List.filterMap_append]
  cases h : Deed.effect? (.put o) <;> simp [h]

theorem send {r : Reporter} {e : Event} (h : Deed.effect? (.put (.event r.sink e)) = none) :
    Yields signal (r.send e) s () [] s := by
  have htell : Yields signal (r.send e) s () (Deed.effect? (.put (.event r.sink e))).toList s := tell _
  rwa [h] at htell

section InRun

variable {γ : Type} {next : Activity σ LogLine α}

theorem inRun_get {next : σ → Activity σ LogLine α}
    (h : Yields signal (next s).inRun s x effects s') :
    Yields signal (Activity.inRun (.get next)) s x effects s' := by
  rintro sc hquiet rfl
  exact h sc hquiet rfl

theorem inRun_set (h : Yields signal next.inRun s₁ x effects s') :
    Yields signal (Activity.inRun (.set s₁ next)) s x effects s' := by
  rintro sc hquiet rfl
  exact h { sc with stage := { sc.stage with state := { sc.stage.state with host := s₁ } } } hquiet rfl

theorem inRun_emit {line : LogLine} (h : Yields signal next.inRun s x effects s') :
    Yields signal (Activity.inRun (.emit line next)) s x (.logged line :: effects) s' :=
  Yields.bind (f := fun _ => next.inRun) (tell (.log line)) h

theorem inRun_poll {next : Bool → Activity σ LogLine α}
    (h : Yields signal (next false).inRun s x effects s') :
    Yields signal (Activity.inRun (.poll signal next)) s x effects s' :=
  Yields.bind (f := fun fired => (next fired).inRun) hasFired h

theorem inRun_wait {ms : Nat} {next : Bool → Activity σ LogLine α}
    (h : Yields signal (next false).inRun s x effects s') :
    Yields signal (Activity.inRun (.wait ms (some signal) next)) s x (.waited ms :: effects) s' := by
  rintro sc hquiet rfl
  have hcut : (some signal).any (Company.nobody sc.deeds sc.stage).signals.has = false := hquiet
  obtain ⟨sc', hplay, hsignals, hstate, hdeeds⟩ :=
    h { sc with deeds := sc.deeds ++ [.waited ms false] } hquiet rfl
  refine ⟨sc', ?_, hsignals, hstate, ?_⟩
  · rw [← hplay, Activity.inRun, embed, play, hcut]
    rfl
  · rw [hdeeds, List.filterMap_append, List.append_assoc]
    rfl

end InRun

theorem within {f : Filling σ α} {acc acc' : Accumulator σ}
    (h : ∀ signals, f.run acc s signals = (x, acc', s', signals)) :
    Yields signal (Activity.inRun (f.within acc)) s (x, acc') [] s' := by
  rintro sc _ rfl
  have hplay : (Activity.inRun (f.within acc)).play .nobody sc = _ := f.play_within acc sc
  rw [h] at hplay
  exact ⟨_, hplay, rfl, rfl, by simp⟩

section Attend

variable {r : Reporter} {e : Entry σ} {token : Token σ} {started : Nat} {f : Fault}

theorem execute_ok (h : Yields signal (e.unit.execute signal).inRun s (.ok ()) effects s') :
    Yields signal (r.execute signal e started) s ⟨started + 1, .ok ()⟩
      (.began e.unit.label :: effects) s' := by
  have hbegin : Yields signal (r.send (.unitStarted r.run e.unit.label e.token)) s ()
      [.began e.unit.label] s := tell _
  have hend : Yields signal (r.send (.unitCompleted r.run e.unit.label e.token) >>= fun _ =>
      Pure.pure (⟨started + 1, .ok ()⟩ : Progress)) s' ⟨started + 1, .ok ()⟩ ([] ++ []) s' :=
    (send rfl).bind (.pure _)
  have hall : Yields signal (r.execute signal e started) s ⟨started + 1, .ok ()⟩
      ([] ++ ([.began e.unit.label] ++ (effects ++ ([] ++ [])))) s' :=
    hasFired.bind (hbegin.bind (h.bind hend))
  simpa using hall

theorem execute_error (h : Yields signal (e.unit.execute signal).inRun s (.error f) effects s')
    (hf : f.isCancelled = false) :
    Yields signal (r.execute signal e started) s
      ⟨started + 1, .error (.unitFailed e.unit.label e.token f)⟩
      (.began e.unit.label :: effects) s' := by
  have hbegin : Yields signal (r.send (.unitStarted r.run e.unit.label e.token)) s ()
      [.began e.unit.label] s := tell _
  have hend : Yields signal (if f.isCancelled = true then
        Pure.pure (⟨started + 1, .error .cancelled⟩ : Progress)
      else r.send (.unitFailed r.run e.unit.label e.token f.message) >>= fun _ =>
        Pure.pure ⟨started + 1, .error (.unitFailed e.unit.label e.token f)⟩)
      s' ⟨started + 1, .error (.unitFailed e.unit.label e.token f)⟩ ([] ++ []) s' := by
    rw [hf]
    exact (send rfl).bind (.pure _)
  have hall : Yields signal (r.execute signal e started) s
      ⟨started + 1, .error (.unitFailed e.unit.label e.token f)⟩
      ([] ++ ([.began e.unit.label] ++ (effects ++ ([] ++ [])))) s' :=
    hasFired.bind (hbegin.bind (h.bind hend))
  simpa using hall

theorem executeAll_singleton {p : Progress}
    (h : Yields signal (r.execute signal e started) s p effects s') :
    Yields signal (r.executeAll signal started [e]) s p effects s' := by
  have hlast : Yields signal (p.onward fun started => r.executeAll signal started []) s' p [] s' := by
    obtain ⟨started, f | _⟩ := p
    · exact .pure _
    · exact .pure _
  have hall : Yields signal (r.executeAll signal started [e]) s p (effects ++ []) s' :=
    h.bind (f := Progress.onward fun started => r.executeAll signal started []) hlast
  simpa using hall

theorem attendTo_error {acc : Accumulator σ}
    (h : ∀ signals, token.resolve.run { current := token.label } s signals =
      (.error f, acc, s', signals)) :
    Yields signal (r.attendTo signal token started) s
      ⟨started, .error (.resolveFailed token.label f)⟩ [] s' :=
  hasFired.bind ((within h).bind (.pure _))

theorem attendTo_ok {acc : Accumulator σ} {p : Progress}
    (h : ∀ signals, token.resolve.run { current := token.label } s signals =
      (.ok (), acc, s₁, signals))
    (hall : Yields signal (r.executeAll signal started acc.entries.toList) s₁ p effects s') :
    Yields signal (r.attendTo signal token started) s p effects s' := by
  have hreport : Yields signal (r.send (.tokenResolved r.run token.label acc.entries.size)) s₁ ()
      [] s₁ := send rfl
  exact hasFired.bind ((within h).bind (hreport.bind hall))

theorem attendTo_unit {u : FlowUnit σ} {p : Progress}
    (h : ∀ signals, token.resolve.run { current := token.label } s signals =
      (.ok (), { entries := #[⟨token.label, u⟩], current := token.label }, s, signals))
    (hunit : Yields signal (r.execute signal ⟨token.label, u⟩ started) s p effects s') :
    Yields signal (r.attendTo signal token started) s p effects s' :=
  attendTo_ok h (executeAll_singleton hunit)

theorem attend_cons_ok {rest : List (Token σ)} {started₁ : Nat} {p : Progress}
    (h : Yields signal (r.attendTo signal token started) s ⟨started₁, .ok ()⟩ effects s₁)
    (hrest : Yields signal (r.attend signal rest started₁) s₁ p effects₁ s') :
    Yields signal (r.attend signal (token :: rest) started) s p (effects ++ effects₁) s' :=
  h.bind (f := Progress.onward (r.attend signal rest)) hrest

theorem attend_cons_error {rest : List (Token σ)} {started₁ : Nat}
    (h : Yields signal (r.attendTo signal token started) s ⟨started₁, .error f⟩ effects s') :
    Yields signal (r.attend signal (token :: rest) started) s ⟨started₁, .error f⟩ effects s' := by
  have hall : Yields signal (r.attend signal (token :: rest) started) s ⟨started₁, .error f⟩
      (effects ++ []) s' := h.bind (f := Progress.onward (r.attend signal rest)) (.pure _)
  simpa using hall

/-- Closing a run that was not cancelled: a failure is logged, and returned if it is to be told. -/
theorem finish {outcome : Outcome} (hout : ∀ f, outcome = .error f → f.isCancelled = false) :
    Yields signal (r.finish ⟨started, outcome⟩) s (r.answer outcome) (r.closing outcome) s := by
  cases outcome with
  | ok =>
    have hsend : Yields signal (r.send (.runCompleted r.run started)) s () [] s := send rfl
    have hanswer : r.answer (.ok ()) = .ok () := by
      unfold Reporter.answer
      split <;> rfl
    rw [hanswer]
    exact hsend.bind (.pure _)
  | error f =>
    have hf := hout f rfl
    have hlog : Yields signal (.tell (.log ⟨.error, s!"Flow run {r.run} stopped: {f.message}"⟩)) s ()
        (r.closing (.error f)) s := tell _
    have hend : Yields signal (if r.surfaceFailures = true then
          r.send (.runFailed r.run started f.message) >>= fun _ => Pure.pure (.error f)
        else r.send (.runCompleted r.run started) >>= fun _ => Pure.pure (.ok ())) s
        (r.answer (.error f)) ([] ++ []) s := by
      unfold Reporter.answer
      split
      · exact (send rfl).bind (.pure _)
      · exact (send rfl).bind (.pure _)
    have hall : Yields signal (r.finish ⟨started, .error f⟩) s (r.answer (.error f))
        (r.closing (.error f) ++ ([] ++ [])) s := by
      unfold Reporter.finish
      simp only [hf]
      exact hlog.bind hend
    simpa using hall

end Attend

end Activity.Yields

end Flowchart
