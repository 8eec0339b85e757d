import Flowchart.Proofs.Activity.Stretch

/-! What an activity has done when it is somewhere on its way, and how it changes the state. -/
namespace Flowchart.Activity

variable {σ τ ω ψ α β : Type}

/-- An activity can put out these items and then have another one left, if
states and signals suit it. -/
inductive Partway : Activity σ ω α → List ω → Activity σ ω α → Prop
  | here {a : Activity σ ω α} : Partway a [] a
  | get {next : σ → Activity σ ω α} {items : List ω} {rest : Activity σ ω α} (s : σ)
      (h : Partway (next s) items rest) : Partway (.get next) items rest
  | set {s : σ} {next : Activity σ ω α} {items : List ω} {rest : Activity σ ω α}
      (h : Partway next items rest) : Partway (.set s next) items rest
  | emit {o : ω} {next : Activity σ ω α} {items : List ω} {rest : Activity σ ω α}
      (h : Partway next items rest) : Partway (.emit o next) (o :: items) rest
  | fire {signal : Signal} {next : Activity σ ω α} {items : List ω} {rest : Activity σ ω α}
      (h : Partway next items rest) : Partway (.fire signal next) items rest
  | poll {signal : Signal} {next : Bool → Activity σ ω α} {items : List ω} {rest : Activity σ ω α}
      (fired : Bool) (h : Partway (next fired) items rest) : Partway (.poll signal next) items rest
  | wait {ms : Nat} {signal : Option Signal} {next : Bool → Activity σ ω α} {items : List ω}
      {rest : Activity σ ω α} (cut : Bool) (h : Partway (next cut) items rest) :
      Partway (.wait ms signal next) items rest

theorem Puts.partway {a : Activity σ ω α} {items : List ω} {x : α} (h : Puts a items x) :
    Partway a items (.done x) := by
  induction h with
  | done => exact .here
  | get s _ ih => exact .get s ih
  | set _ ih => exact .set ih
  | emit _ ih => exact .emit ih
  | fire _ ih => exact .fire ih
  | poll fired _ ih => exact .poll fired ih
  | wait cut _ ih => exact .wait cut ih

theorem Stretch.partway {a rest : Activity σ ω α} {stage stage' : Stage σ ω} {items : List ω}
    (h : Stretch a stage items rest stage') : Partway a items rest := by
  induction h with
  | stop => exact .here
  | get _ ih => exact .get _ ih
  | set _ ih => exact .set ih
  | emit _ ih => exact .emit ih
  | fire _ ih => exact .fire ih
  | poll _ ih => exact .poll _ ih
  | wait _ ih => exact .wait _ ih

namespace Partway

variable {a b c : Activity σ ω α} {items more : List ω}

theorem trans (h : Partway a items b) (h' : Partway b more c) : Partway a (items ++ more) c := by
  induction h with
  | here => exact h'
  | get s _ ih => exact .get s (ih h')
  | set _ ih => exact .set (ih h')
  | emit _ ih => exact .emit (ih h')
  | fire _ ih => exact .fire (ih h')
  | poll fired _ ih => exact .poll fired (ih h')
  | wait cut _ ih => exact .wait cut (ih h')

theorem puts {x : α} (h : Partway a items (.done x)) : Puts a items x := by
  generalize hx : Activity.done x = rest at h
  induction h with
  | here => exact hx ▸ .done
  | get s _ ih => exact .get s (ih hx)
  | set _ ih => exact .set (ih hx)
  | emit _ ih => exact .emit (ih hx)
  | fire _ ih => exact .fire (ih hx)
  | poll fired _ ih => exact .poll fired (ih hx)
  | wait cut _ ih => exact .wait cut (ih hx)

theorem of_pure {x : α} (h : Partway (Pure.pure x) items b) : items = [] ∧ b = Pure.pure x := by
  cases h
  exact ⟨rfl, rfl⟩

/-- Whoever is on the way through two activities is in the first, or is
through with it and in the second. -/
theorem of_bind {f : α → Activity σ ω β} {b : Activity σ ω β} (h : Partway (a >>= f) items b) :
    (∃ a', Partway a items a' ∧ b = a' >>= f) ∨
      ∃ x first rest, Puts a first x ∧ Partway (f x) rest b ∧ items = first ++ rest := by
  change Partway (a.bind f) items b at h
  induction a generalizing items with
  | done x => exact .inr ⟨x, [], items, .done, h, rfl⟩
  | crash =>
    cases h
    exact .inl ⟨.crash, .here, rfl⟩
  | get next ih =>
    cases h with
    | here => exact .inl ⟨.get next, .here, rfl⟩
    | get s h =>
      rcases ih s h with ⟨a', ha, rfl⟩ | ⟨x, first, rest, ha, hf, rfl⟩
      · exact .inl ⟨a', .get s ha, rfl⟩
      · exact .inr ⟨x, first, rest, .get s ha, hf, rfl⟩
  | set s next ih =>
    cases h with
    | here => exact .inl ⟨.set s next, .here, rfl⟩
    | set h =>
      rcases ih h with ⟨a', ha, rfl⟩ | ⟨x, first, rest, ha, hf, rfl⟩
      · exact .inl ⟨a', .set ha, rfl⟩
      · exact .inr ⟨x, first, rest, .set ha, hf, rfl⟩
  | emit o next ih =>
    cases h with
    | here => exact .inl ⟨.emit o next, .here, rfl⟩
    | emit h =>
      rcases ih h with ⟨a', ha, rfl⟩ | ⟨x, first, rest, ha, hf, rfl⟩
      · exact .inl ⟨a', .emit ha, rfl⟩
      · exact .inr ⟨x, o :: first, rest, .emit ha, hf, rfl⟩
  | fire signal next ih =>
    cases h with
    | here => exact .inl ⟨.fire signal next, .here, rfl⟩
    | fire h =>
      rcases ih h with ⟨a', ha, rfl⟩ | ⟨x, first, rest, ha, hf, rfl⟩
      · exact .inl ⟨a', .fire ha, rfl⟩
      · exact .inr ⟨x, first, rest, .fire ha, hf, rfl⟩
  | poll signal next ih =>
    cases h with
    | here => exact .inl ⟨.poll signal next, .here, rfl⟩
    | poll fired h =>
      rcases ih fired h with ⟨a', ha, rfl⟩ | ⟨x, first, rest, ha, hf, rfl⟩
      · exact .inl ⟨a', .poll fired ha, rfl⟩
      · exact .inr ⟨x, first, rest, .poll fired ha, hf, rfl⟩
  | wait ms signal next ih =>
    cases h with
    | here => exact .inl ⟨.wait ms signal next, .here, rfl⟩
    | wait cut h =>
      rcases ih cut h with ⟨a', ha, rfl⟩ | ⟨x, first, rest, ha, hf, rfl⟩
      · exact .inl ⟨a', .wait cut ha, rfl⟩
      · exact .inr ⟨x, first, rest, .wait cut ha, hf, rfl⟩

theorem of_hasFired_bind {signal : Signal} {f : Bool → Activity σ ω β} {b : Activity σ ω β}
    (h : Partway (.hasFired signal >>= f) items b) :
    items = [] ∨ ∃ fired, Partway (f fired) items b := by
  rcases of_bind h with ⟨_, hpoll, _⟩ | ⟨fired, first, rest, hpoll, hrest, rfl⟩
  · cases hpoll with
    | here => exact .inl rfl
    | poll _ hdone =>
      cases hdone
      exact .inl rfl
  · cases hpoll with
    | poll _ hdone =>
      cases hdone
      exact .inr ⟨fired, hrest⟩

theorem of_tell_bind {o : ω} {f : Unit → Activity σ ω β} {b : Activity σ ω β}
    (h : Partway (.tell o >>= f) items b) :
    (items = [] ∧ b = .tell o >>= f) ∨ ∃ rest, Partway (f ()) rest b ∧ items = o :: rest := by
  cases h with
  | here => exact .inl ⟨rfl, rfl⟩
  | emit h => exact .inr ⟨_, h, rfl⟩

theorem of_embed {view : τ → σ} {update : σ → τ → τ} {item : ω → ψ} {a : Activity σ ω α}
    {items : List ψ} {b : Activity τ ψ α} (h : Partway (a.embed view update item) items b) :
    ∃ own : List ω, items = own.map item := by
  induction a generalizing items with
  | done x =>
    cases h
    exact ⟨[], rfl⟩
  | crash =>
    cases h
    exact ⟨[], rfl⟩
  | get next ih =>
    cases h with
    | here => exact ⟨[], rfl⟩
    | get t h => exact ih _ h
  | set s next ih =>
    cases h with
    | here => exact ⟨[], rfl⟩
    | get t h =>
      cases h with
      | here => exact ⟨[], rfl⟩
      | set h => exact ih h
  | emit o next ih =>
    cases h with
    | here => exact ⟨[], rfl⟩
    | emit h =>
      obtain ⟨own, rfl⟩ := ih h
      exact ⟨o :: own, rfl⟩
  | fire signal next ih =>
    cases h with
    | here => exact ⟨[], rfl⟩
    | fire h => exact ih h
  | poll signal next ih =>
    cases h with
    | here => exact ⟨[], rfl⟩
    | poll fired h => exact ih fired h
  | wait ms signal next ih =>
    cases h with
    | here => exact ⟨[], rfl⟩
    | wait cut h => exact ih cut h

end Partway

/-- Whatever others do to the state when it makes room for them, an activity
changes it only as `R` allows. -/
def Changes (R : σ → σ → Prop) : Activity σ ω α → σ → Prop
  | done _, _ | crash, _ => True
  | get next, s => (next s).Changes R s
  | set s' next, s => R s s' ∧ next.Changes R s'
  | emit _ next, _ | fire _ next, _ => ∀ s, next.Changes R s
  | poll _ next, _ | wait _ _ next, _ => ∀ b s, (next b).Changes R s

namespace Changes

variable {R : σ → σ → Prop} {s : σ}

theorem bind {a : Activity σ ω α} {f : α → Activity σ ω β} (ha : a.Changes R s)
    (hf : ∀ x s, (f x).Changes R s) : (a >>= f).Changes R s := by
  change (a.bind f).Changes R s
  induction a generalizing s with
  | done x => exact hf x s
  | crash => exact True.intro
  | get next ih => exact ih _ ha
  | set s' next ih => exact ⟨ha.1, ih ha.2⟩
  | emit o next ih => exact fun s => ih (ha s)
  | fire signal next ih => exact fun s => ih (ha s)
  | poll signal next ih => exact fun b s => ih b (ha b s)
  | wait ms signal next ih => exact fun b s => ih b (ha b s)

theorem pure (x : α) : (Pure.pure x : Activity σ ω α).Changes R s := True.intro

theorem hasFired (signal : Signal) : (Activity.hasFired signal : Activity σ ω Bool).Changes R s :=
  fun _ _ => True.intro

theorem tell (o : ω) : (Activity.tell o : Activity σ ω Unit).Changes R s := fun _ => True.intro

theorem embed {view : τ → σ} {update : σ → τ → τ} {item : ω → ψ} {R : τ → τ → Prop}
    (hR : ∀ s t, R t (update s t)) (a : Activity σ ω α) (t : τ) :
    (a.embed view update item).Changes R t := by
  induction a generalizing t with
  | done x => exact True.intro
  | crash => exact True.intro
  | get next ih => exact ih _ t
  | set s next ih => exact ⟨hR s t, ih _⟩
  | emit o next ih => exact ih
  | fire signal next ih => exact ih
  | poll signal next ih => exact ih
  | wait ms signal next ih => exact ih

end Changes

theorem Stretch.changes {R : σ → σ → Prop} (hrefl : ∀ s, R s s)
    (htrans : ∀ s t u, R s t → R t u → R s u) {a rest : Activity σ ω α} {stage stage' : Stage σ ω}
    {items : List ω} (h : Stretch a stage items rest stage') (ha : a.Changes R stage.state) :
    R stage.state stage'.state ∧ ∀ s, rest.Changes R s := by
  induction h with
  | @stop a stage hstop =>
    refine ⟨hrefl _, ?_⟩
    cases a with
    | get | set => cases hstop
    | done | crash => exact fun _ => True.intro
    | emit | fire => exact fun _ => ha
    | poll | wait => exact fun _ => ha
  | get _ ih => exact ih ha
  | set _ ih =>
    obtain ⟨hrest, hkept⟩ := ih ha.2
    exact ⟨htrans _ _ _ ha.1 hrest, hkept⟩
  | emit _ ih => exact ih (ha _)
  | fire _ ih => exact ih (ha _)
  | poll _ ih => exact ih (ha _ _)
  | wait _ ih => exact ih (ha _ _)

end Flowchart.Activity
