import Flowchart.Activity.Basic

/-! Playing an activity to its end, in the company of others that act while it waits. -/
namespace Flowchart

/-- What an activity is seen to do: put out an item, or wait, up to the end or cut short. -/
inductive Deed (ω : Type)
  | put (item : ω)
  | waited (ms : Nat) (cut : Bool)
deriving DecidableEq, Repr

/-- The stage, and what one activity has done on it so far. -/
structure Scene (σ ω : Type) where
  stage : Stage σ ω
  deeds : List (Deed ω) := []

/-- What the others do to the stage during a wait, by what the activity has done before it. -/
abbrev Company (σ ω : Type) := List (Deed ω) → Stage σ ω → Stage σ ω

def Company.nobody {σ ω : Type} : Company σ ω := fun _ stage => stage

namespace Activity

variable {σ ω α β γ : Type}

/-- How an activity ends, if it does not break off, and the scene it leaves. -/
def play (others : Company σ ω) : Activity σ ω α → Scene σ ω → Option α × Scene σ ω
  | done a, sc => (some a, sc)
  | crash, sc => (none, sc)
  | get next, sc => (next sc.stage.state).play others sc
  | set s next, sc => next.play others { sc with stage := { sc.stage with state := s } }
  | emit o next, sc =>
    next.play others { stage := { sc.stage with items := sc.stage.items.push o }
                       deeds := sc.deeds ++ [.put o] }
  | fire signal next, sc =>
    next.play others { sc with stage := { sc.stage with signals := sc.stage.signals.fire signal } }
  | poll signal next, sc => (next (sc.stage.signals.has signal)).play others sc
  | wait ms signal next, sc =>
    let stage := others sc.deeds sc.stage
    let cut := signal.any stage.signals.has
    (next cut).play others { stage, deeds := sc.deeds ++ [.waited ms cut] }

theorem bind_done (a : Activity σ ω α) : a.bind done = a := by
  induction a with
  | done a => rfl
  | crash => rfl
  | get next ih => exact congrArg get (funext ih)
  | set s next ih => exact congrArg (set s) ih
  | emit o next ih => exact congrArg (emit o) ih
  | fire signal next ih => exact congrArg (fire signal) ih
  | poll signal next ih => exact congrArg (poll signal) (funext ih)
  | wait ms signal next ih => exact congrArg (wait ms signal) (funext ih)

theorem bind_bind (a : Activity σ ω α) (f : α → Activity σ ω β) (g : β → Activity σ ω γ) :
    (a.bind f).bind g = a.bind fun x => (f x).bind g := by
  induction a with
  | done a => rfl
  | crash => rfl
  | get next ih => exact congrArg get (funext ih)
  | set s next ih => exact congrArg (set s) ih
  | emit o next ih => exact congrArg (emit o) ih
  | fire signal next ih => exact congrArg (fire signal) ih
  | poll signal next ih => exact congrArg (poll signal) (funext ih)
  | wait ms signal next ih => exact congrArg (wait ms signal) (funext ih)

instance : LawfulMonad (Activity σ ω) :=
  LawfulMonad.mk' _ bind_done (fun _ _ => rfl) bind_bind

variable {others : Company σ ω} {sc : Scene σ ω}

theorem play_bind (a : Activity σ ω α) (f : α → Activity σ ω β) :
    (a >>= f).play others sc = match a.play others sc with
      | (none, sc) => (none, sc)
      | (some x, sc) => (f x).play others sc := by
  change (a.bind f).play others sc = _
  induction a generalizing sc with
  | done a => rfl
  | crash => rfl
  | get next ih => exact ih _
  | set s next ih => exact ih
  | emit o next ih => exact ih
  | fire signal next ih => exact ih
  | poll signal next ih => exact ih _
  | wait ms signal next ih => exact ih _

theorem play_bind_eq_some_iff {a : Activity σ ω α} {f : α → Activity σ ω β} {b : β}
    {sc' : Scene σ ω} : (a >>= f).play others sc = (some b, sc') ↔
      ∃ x sc₁, a.play others sc = (some x, sc₁) ∧ (f x).play others sc₁ = (some b, sc') := by
  rw [play_bind]
  constructor
  · intro h
    cases hp : a.play others sc with
    | mk result sc₁ =>
      rw [hp] at h
      cases result with
      | none => cases h
      | some x => exact ⟨x, sc₁, rfl, h⟩
  · rintro ⟨x, sc₁, hp, hf⟩
    rw [hp]
    exact hf

theorem play_hasFired_bind (signal : Signal) (f : Bool → Activity σ ω β) :
    (hasFired signal >>= f).play others sc =
      (f (sc.stage.signals.has signal)).play others sc := rfl

/-- How an activity ends in no company, and the stage it leaves. -/
def alone (a : Activity σ ω α) (stage : Stage σ ω) : Option α × Stage σ ω :=
  let (result, sc) := a.play .nobody { stage }
  (result, sc.stage)

section Alone

variable {stage : Stage σ ω}

theorem alone_eq (a : Activity σ ω α) (stage : Stage σ ω) (deeds : List (Deed ω)) : a.alone stage =
    ((a.play .nobody ⟨stage, deeds⟩).1, (a.play .nobody ⟨stage, deeds⟩).2.stage) := by
  have h : ∀ deeds deeds' : List (Deed ω),
      ((a.play .nobody ⟨stage, deeds⟩).1, (a.play .nobody ⟨stage, deeds⟩).2.stage) =
        ((a.play .nobody ⟨stage, deeds'⟩).1, (a.play .nobody ⟨stage, deeds'⟩).2.stage) := by
    induction a generalizing stage with
    | done a => exact fun _ _ => rfl
    | crash => exact fun _ _ => rfl
    | get next ih => exact fun _ _ => ih _ stage _ _
    | set s next ih => exact fun _ _ => ih _ _ _
    | emit o next ih => exact fun _ _ => ih _ _ _
    | fire signal next ih => exact fun _ _ => ih _ _ _
    | poll signal next ih => exact fun _ _ => ih _ stage _ _
    | wait ms signal next ih => exact fun _ _ => ih _ stage _ _
  exact h [] deeds

theorem alone_wait (ms : Nat) (signal : Option Signal) (next : Bool → Activity σ ω α) :
    (wait ms signal next).alone stage = (next (signal.any stage.signals.has)).alone stage :=
  (alone_eq _ stage [.waited ms (signal.any stage.signals.has)]).symm

/-- A look at an activity takes it to where it ends in the same way. -/
theorem alone_burst (a : Activity σ ω α) (n : Nat) (stage : Stage σ ω) :
    (a.burst n stage).rest.alone (a.burst n stage).stage = a.alone stage := by
  induction a generalizing n stage with
  | done a => rfl
  | crash => rfl
  | get next ih => exact ih _ n stage
  | set s next ih => exact ih n _
  | emit o next ih => exact (ih n _).trans (alone_eq next _ [.put o])
  | fire signal next ih => exact ih n _
  | poll signal next ih => exact ih _ n stage
  | wait ms signal next ih =>
    rw [burst]
    split
    · rfl
    · split
      · next hfired => rw [ih, alone_wait, hfired]
      · next hquiet =>
        split
        · rw [ih, alone_wait, Bool.eq_false_iff.mpr hquiet]
        · rfl

theorem alone_look? {a : Activity σ ω α} {timeIsUp : Bool} {p : Pause σ ω α}
    (h : a.look? timeIsUp stage = some p) : p.rest.alone p.stage = a.alone stage := by
  cases a with
  | done | crash => cases h
  | wait ms signal next =>
    rw [look?] at h
    split at h
    · next hfired =>
      cases h
      rw [alone_burst, alone_wait, hfired]
    · next hquiet =>
      split at h
      · cases h
        rw [alone_burst, alone_wait, Bool.eq_false_iff.mpr hquiet]
      · cases h
  | get | set | emit | fire | poll =>
    cases h
    exact alone_burst _ _ _

end Alone

/-- Whatever the company, a result of an activity has a property. -/
def Ends (P : α → Prop) (a : Activity σ ω α) : Prop :=
  ∀ (others : Company σ ω) (sc : Scene σ ω) (x : α) (sc' : Scene σ ω),
    a.play others sc = (some x, sc') → P x

theorem Ends.pure {P : α → Prop} {x : α} (h : P x) : Ends P (Pure.pure x : Activity σ ω α) := by
  intro others sc y sc' hy
  cases hy
  exact h

theorem Ends.bind {P : α → Prop} {Q : β → Prop} {a : Activity σ ω α} {f : α → Activity σ ω β}
    (ha : Ends P a) (hf : ∀ x, P x → Ends Q (f x)) : Ends Q (a >>= f) := by
  intro others sc y sc' hy
  obtain ⟨x, sc₁, hx, hy⟩ := play_bind_eq_some_iff.mp hy
  exact hf x (ha others sc x sc₁ hx) others sc₁ y sc' hy

theorem Ends.trivial (a : Activity σ ω α) : Ends (fun _ => True) a := fun _ _ _ _ _ => True.intro

/-- Whatever the company, an activity does nothing that shows in a view of its deeds. -/
def Hides (view : Deed ω → Option γ) (a : Activity σ ω α) : Prop :=
  ∀ (others : Company σ ω) (sc : Scene σ ω),
    (a.play others sc).2.deeds.filterMap view = sc.deeds.filterMap view

namespace Hides

variable {view : Deed ω → Option γ}

theorem filterMap_eq {a : Activity σ ω α} {others : Company σ ω} {sc sc' : Scene σ ω} {x : Option α}
    (h : Hides view a) (hp : a.play others sc = (x, sc')) :
    sc'.deeds.filterMap view = sc.deeds.filterMap view := by
  have := h others sc
  rwa [hp] at this

theorem pure (a : α) : Hides view (Pure.pure a : Activity σ ω α) := fun _ _ => rfl

theorem hasFired (signal : Signal) : Hides view (.hasFired signal : Activity σ ω Bool) :=
  fun _ _ => rfl

theorem tell {o : ω} (h : view (.put o) = none) : Hides view (.tell o : Activity σ ω Unit) := by
  intro others sc
  simp [Activity.tell, play, h]

theorem bind {a : Activity σ ω α} {f : α → Activity σ ω β} (ha : Hides view a)
    (hf : ∀ x, Hides view (f x)) : Hides view (a >>= f) := by
  intro others sc
  rw [play_bind]
  cases hp : a.play others sc with
  | mk result sc' =>
    have hsc := ha.filterMap_eq hp
    cases result with
    | none => exact hsc
    | some x => exact (hf x others sc').trans hsc

theorem embed {τ ψ : Type} {view : Deed ψ → Option γ} {get : τ → σ} {update : σ → τ → τ}
    {item : ω → ψ} (hput : ∀ o, view (.put (item o)) = none)
    (hwaited : ∀ ms cut, view (.waited ms cut) = none) (a : Activity σ ω α) :
    Hides view (a.embed get update item) := by
  intro others sc
  induction a generalizing sc with
  | done a => rfl
  | crash => rfl
  | get next ih => exact ih _ _
  | set s next ih => exact ih _
  | emit o next ih =>
    apply (ih _).trans
    simp [hput]
  | fire signal next ih => exact ih _
  | poll signal next ih => exact ih _ _
  | wait ms signal next ih =>
    apply (ih _ _).trans
    simp [hwaited]

end Hides

end Activity

end Flowchart
