import Flowchart.Proofs.Run.Stopped

/-! Whether callers are told about failures, and what this leaves alone. -/
namespace Flowchart

variable {σ : Type}

def Reporter.surfacing (r : Reporter) (surfaceFailures : Bool) : Reporter :=
  { r with surfaceFailures }

def Compiled.surfacing (surfaceFailures : Bool) : Compiled σ → Compiled σ
  | plan p => plan { p with surfaceFailures }
  | tour t => tour { t with surfaceFailures }

def Engine.surfacing (e : Engine) (surfaceFailures : Bool) : Engine :=
  { e with config := { e.config with surfaceFailures } }

def Scene.offered (sc : Scene (World σ) Report) (sink : Sink) (e : Event) :
    Scene (World σ) Report :=
  { stage := { sc.stage with items := sc.stage.items.push (.event sink e) }
    deeds := sc.deeds ++ [.put (.event sink e)] }

/-- Two runs show the same, or the same up to the closing event after a failure. -/
inductive Scene.SameUntilClosed (sink : Sink) :
    Option Outcome × Scene (World σ) Report → Option Outcome × Scene (World σ) Report → Prop
  | same {p : Option Outcome × Scene (World σ) Report} : SameUntilClosed sink p p
  | stopped {mid : Scene (World σ) Report} {run : String} {n : Nat} {f : Fault}
      (other : f.isCancelled = false) :
      SameUntilClosed sink (some (.error f), mid.offered sink (.runFailed run n f.message))
        (some (.ok ()), mid.offered sink (.runCompleted run n))

namespace Scene

variable {sc : Scene (World σ) Report} {sink : Sink} {e : Event}

@[simp] theorem sent_offered : (sc.offered sink e).sent sink = sc.sent sink ++ [e] := by
  unfold sent offered
  rw [List.filterMap_append]
  simp [Deed.sentTo?, Deed.item?]

end Scene

namespace Reporter

variable (r : Reporter) (b : Bool) (signal : Signal)

theorem executeAll_surfacing (started : Nat) (entries : List (Entry σ)) :
    (r.surfacing b).executeAll signal started entries = r.executeAll signal started entries := by
  induction entries generalizing started with
  | nil => rfl
  | cons e rest ih =>
    have hrest : (fun n => (r.surfacing b).executeAll signal n rest) =
        fun n => r.executeAll signal n rest := funext ih
    rw [executeAll_cons, executeAll_cons, hrest]
    rfl

theorem attendTo_surfacing (token : Token σ) (started : Nat) :
    (r.surfacing b).attendTo signal token started = r.attendTo signal token started := by
  unfold attendTo
  simp only [executeAll_surfacing]
  rfl

theorem walk_surfacing (t : TokenTree (Token σ)) (limit left : Nat) (ahead seen : List TokenId)
    (started : Nat) : (r.surfacing b).walk signal t limit left ahead seen started =
      r.walk signal t limit left ahead seen started := by
  induction left generalizing ahead seen started with
  | zero =>
    cases ahead with
    | nil => rfl
    | cons id ahead =>
      cases hvisit : t.visit seen id with
      | error f => rw [TokenTree.walk_of_refused hvisit, TokenTree.walk_of_refused hvisit]
      | ok slot => rw [TokenTree.walk_of_noRoom hvisit, TokenTree.walk_of_noRoom hvisit]
  | succ left ih =>
    cases ahead with
    | nil => rw [walk, walk]
    | cons id ahead =>
      cases hvisit : t.visit seen id with
      | error f => rw [TokenTree.walk_of_refused hvisit, TokenTree.walk_of_refused hvisit]
      | ok slot =>
        have hrest : (r.surfacing b).walk signal t limit left
              (Strategy.immediate.next slot ++ ahead) (id :: seen) =
            r.walk signal t limit left (Strategy.immediate.next slot ++ ahead) (id :: seen) :=
          funext fun started => ih _ _ started
        rw [TokenTree.walk_of_visited hvisit, TokenTree.walk_of_visited hvisit, hrest,
          attendTo_surfacing]

theorem finish_surfacing (p : Progress) (others : Company (World σ) Report)
    (sc : Scene (World σ) Report) : Scene.SameUntilClosed r.sink
      (((r.surfacing true).finish p).play others sc)
      (((r.surfacing false).finish p).play others sc) := by
  obtain ⟨n, f | _⟩ := p
  · cases hf : f.isCancelled with
    | true =>
      have hclose : ((r.surfacing true).finish ⟨n, .error f⟩ : RunActivity σ Outcome) =
          (r.surfacing false).finish ⟨n, .error f⟩ := by
        unfold finish
        simp only [hf, if_true]
        rfl
      rw [hclose]
      exact .same
    | false =>
      have hclose : ∀ b, ((r.surfacing b).finish ⟨n, .error f⟩ : RunActivity σ Outcome) =
          .tell (.log ⟨.error, s!"Flow run {r.run} stopped: {f.message}"⟩) >>= fun _ =>
            if b then r.send (.runFailed r.run n f.message) >>= fun _ => return .error f
            else r.send (.runCompleted r.run n) >>= fun _ => return .ok () := by
        intro b
        unfold finish
        simp only [hf, Bool.false_eq_true, if_false]
        cases b <;> rfl
      rw [hclose true, hclose false]
      exact .stopped hf
  · exact .same

/-- Whatever a run does before, it is closed with either setting. -/
theorem bind_finish_surfacing (a : RunActivity σ Progress) (others : Company (World σ) Report)
    (sc : Scene (World σ) Report) : Scene.SameUntilClosed r.sink
      ((a >>= (r.surfacing true).finish).play others sc)
      ((a >>= (r.surfacing false).finish).play others sc) := by
  rw [Activity.play_bind, Activity.play_bind]
  cases a.play others sc with
  | mk p sc₁ =>
    cases p with
    | none => exact .same
    | some p => exact r.finish_surfacing p others sc₁

end Reporter

theorem Tour.pass_surfacing (t : Tour σ) (r : Reporter) (b : Bool) (signal : Signal) :
    Tour.pass { t with surfaceFailures := b } (r.surfacing b) signal = t.pass r signal := by
  unfold pass
  cases t.tree.start with
  | error f => rfl
  | ok root => exact r.walk_surfacing b signal _ _ _ _ _ _

/-- A run that tells about failures and one that does not are the same until they are closed. -/
theorem Compiled.execute_surfacing (c : Compiled σ) (signal : Signal)
    (others : Company (World σ) Report) (sc : Scene (World σ) Report) :
    Scene.SameUntilClosed c.sink (((c.surfacing true).execute signal).play others sc)
      (((c.surfacing false).execute signal).play others sc) := by
  cases c with
  | plan p =>
    by_cases h : p.id ∈ sc.stage.state.spent
    · have hrefused : ∀ b, (((plan p).surfacing b).execute signal).play others sc = _ :=
        fun b => Plan.play_execute_spent (p := { p with surfaceFailures := b }) h signal
      rw [hrefused, hrefused]
      exact .same
    · let r : Reporter := ⟨sc.stage.state.nextRun, p.sink, p.surfaceFailures⟩
      have hplay : ∀ b, (((plan p).surfacing b).execute signal).play others sc =
          (r.executeAll signal 0 p.entries >>= (r.surfacing b).finish).play others
            ((sc.spending p.id).announced p.strategy p.sink) := by
        intro b
        rw [← r.executeAll_surfacing b]
        exact Plan.play_execute (p := { p with surfaceFailures := b }) h signal
      rw [hplay, hplay]
      exact r.bind_finish_surfacing _ others _
  | tour t =>
    let r : Reporter := ⟨sc.stage.state.nextRun, t.sink, t.surfaceFailures⟩
    have hplay : ∀ b, (((tour t).surfacing b).execute signal).play others sc =
        (t.pass r signal >>= (r.surfacing b).finish).play others
          (sc.announced .immediate t.sink) := by
      intro b
      rw [← t.pass_surfacing r b]
      exact Tour.play_execute { t with surfaceFailures := b } signal
    rw [hplay, hplay]
    exact r.bind_finish_surfacing _ others _

theorem Engine.compile_surfacing (e : Engine) (b : Bool) (t : TokenTree (Token σ))
    (stage : RunStage σ) : (e.surfacing b).compile t stage =
      ((e.compile t stage).1.map (·.surfacing b), (e.compile t stage).2) := by
  have hplan : ∀ strategy, (e.surfacing b).plan strategy t stage =
      ((e.plan strategy t stage).1.map fun p => { p with surfaceFailures := b },
        (e.plan strategy t stage).2) := by
    intro strategy
    unfold plan
    cases t.start with
    | error f => rfl
    | ok root =>
      dsimp only [surfacing]
      rcases t.gather strategy _ _ [root] [] {} ⟨stage.state.host, stage.signals⟩ with ⟨f | acc, s⟩
      · rfl
      · rfl
  have hstrategy : (e.surfacing b).config.strategy = e.config.strategy := rfl
  unfold compile
  rw [hstrategy]
  cases e.config.strategy with
  | immediate => cases t.start <;> rfl
  | linear | hierarchical =>
    dsimp only
    rw [hplan]
    rcases e.plan _ t stage with ⟨f | p, s⟩
    · rfl
    · rfl

end Flowchart
