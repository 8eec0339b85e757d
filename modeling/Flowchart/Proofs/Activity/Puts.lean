import Flowchart.Proofs.Activity.Play

/-! What an activity can put out on its way to a result. -/
namespace Flowchart

def Deed.item? {ω : Type} : Deed ω → Option ω
  | put item => some item
  | waited .. => none

namespace Activity

variable {σ τ ω ψ α β : Type}

/-- An activity can put out these items and end with `x`, if it finds the
right states and the right signals fired. -/
inductive Puts : Activity σ ω α → List ω → α → Prop
  | done {x : α} : Puts (.done x) [] x
  | get {next : σ → Activity σ ω α} {items : List ω} {x : α} (s : σ) (h : Puts (next s) items x) :
      Puts (.get next) items x
  | set {s : σ} {next : Activity σ ω α} {items : List ω} {x : α} (h : Puts next items x) :
      Puts (.set s next) items x
  | emit {o : ω} {next : Activity σ ω α} {items : List ω} {x : α} (h : Puts next items x) :
      Puts (.emit o next) (o :: items) x
  | fire {signal : Signal} {next : Activity σ ω α} {items : List ω} {x : α} (h : Puts next items x) :
      Puts (.fire signal next) items x
  | poll {signal : Signal} {next : Bool → Activity σ ω α} {items : List ω} {x : α} (fired : Bool)
      (h : Puts (next fired) items x) : Puts (.poll signal next) items x
  | wait {ms : Nat} {signal : Option Signal} {next : Bool → Activity σ ω α} {items : List ω} {x : α}
      (cut : Bool) (h : Puts (next cut) items x) : Puts (.wait ms signal next) items x

namespace Puts

variable {x : α} {y : β} {items : List ω}

theorem of_bind {a : Activity σ ω α} {f : α → Activity σ ω β} (h : Puts (a >>= f) items y) :
    ∃ x first rest, Puts a first x ∧ Puts (f x) rest y ∧ items = first ++ rest := by
  change Puts (a.bind f) items y at h
  induction a generalizing items with
  | done x => exact ⟨x, [], items, .done, h, rfl⟩
  | crash => cases h
  | get next ih =>
    cases h with
    | get s h =>
      obtain ⟨x, first, rest, ha, hf, rfl⟩ := ih s h
      exact ⟨x, first, rest, .get s ha, hf, rfl⟩
  | set s next ih =>
    cases h with
    | set h =>
      obtain ⟨x, first, rest, ha, hf, rfl⟩ := ih h
      exact ⟨x, first, rest, .set ha, hf, rfl⟩
  | emit o next ih =>
    cases h with
    | emit h =>
      obtain ⟨x, first, rest, ha, hf, rfl⟩ := ih h
      exact ⟨x, o :: first, rest, .emit ha, hf, rfl⟩
  | fire signal next ih =>
    cases h with
    | fire h =>
      obtain ⟨x, first, rest, ha, hf, rfl⟩ := ih h
      exact ⟨x, first, rest, .fire ha, hf, rfl⟩
  | poll signal next ih =>
    cases h with
    | poll fired h =>
      obtain ⟨x, first, rest, ha, hf, rfl⟩ := ih fired h
      exact ⟨x, first, rest, .poll fired ha, hf, rfl⟩
  | wait ms signal next ih =>
    cases h with
    | wait cut h =>
      obtain ⟨x, first, rest, ha, hf, rfl⟩ := ih cut h
      exact ⟨x, first, rest, .wait cut ha, hf, rfl⟩

theorem of_pure {x' : α} (h : Puts (Pure.pure x : Activity σ ω α) items x') :
    x' = x ∧ items = [] := by
  cases h
  exact ⟨rfl, rfl⟩

theorem of_read_bind {f : σ → Activity σ ω β} (h : Puts (.read >>= f) items y) :
    ∃ s, Puts (f s) items y := by
  obtain ⟨s, _, rest, hread, hrest, rfl⟩ := of_bind h
  cases hread with
  | get _ hdone =>
    cases hdone
    exact ⟨s, hrest⟩

theorem of_set_bind {s : σ} {f : Unit → Activity σ ω β} (h : Puts (.set s (.done ()) >>= f) items y) :
    Puts (f ()) items y := by
  obtain ⟨_, _, rest, hset, hrest, rfl⟩ := of_bind h
  cases hset with
  | set hdone =>
    cases hdone
    exact hrest

theorem of_hasFired_bind {signal : Signal} {f : Bool → Activity σ ω β}
    (h : Puts (.hasFired signal >>= f) items y) : ∃ fired, Puts (f fired) items y := by
  obtain ⟨fired, _, rest, hpoll, hrest, rfl⟩ := of_bind h
  cases hpoll with
  | poll _ hdone =>
    cases hdone
    exact ⟨fired, hrest⟩

theorem of_tell_bind {o : ω} {f : Unit → Activity σ ω β} (h : Puts (.tell o >>= f) items y) :
    ∃ rest, Puts (f ()) rest y ∧ items = o :: rest := by
  obtain ⟨_, _, rest, htell, hrest, rfl⟩ := of_bind h
  cases htell with
  | emit hdone =>
    cases hdone
    exact ⟨rest, hrest, rfl⟩

theorem of_embed {view : τ → σ} {update : σ → τ → τ} {item : ω → ψ} {a : Activity σ ω α}
    {items : List ψ} (h : Puts (a.embed view update item) items x) :
    ∃ own, Puts a own x ∧ items = own.map item := by
  induction a generalizing items with
  | done x =>
    cases h
    exact ⟨[], .done, rfl⟩
  | crash => cases h
  | get next ih =>
    cases h with
    | get t h =>
      obtain ⟨own, ha, rfl⟩ := ih _ h
      exact ⟨own, .get _ ha, rfl⟩
  | set s next ih =>
    cases h with
    | get t h =>
      cases h with
      | set h =>
        obtain ⟨own, ha, rfl⟩ := ih h
        exact ⟨own, .set ha, rfl⟩
  | emit o next ih =>
    cases h with
    | emit h =>
      obtain ⟨own, ha, rfl⟩ := ih h
      exact ⟨o :: own, .emit ha, rfl⟩
  | fire signal next ih =>
    cases h with
    | fire h =>
      obtain ⟨own, ha, rfl⟩ := ih h
      exact ⟨own, .fire ha, rfl⟩
  | poll signal next ih =>
    cases h with
    | poll fired h =>
      obtain ⟨own, ha, rfl⟩ := ih fired h
      exact ⟨own, .poll fired ha, rfl⟩
  | wait ms signal next ih =>
    cases h with
    | wait cut h =>
      obtain ⟨own, ha, rfl⟩ := ih cut h
      exact ⟨own, .wait cut ha, rfl⟩

theorem of_play {a : Activity σ ω α} {others : Company σ ω} {sc sc' : Scene σ ω}
    (h : a.play others sc = (some x, sc')) : ∃ items, Puts a items x ∧
      sc'.deeds.filterMap Deed.item? = sc.deeds.filterMap Deed.item? ++ items := by
  induction a generalizing sc with
  | done x =>
    cases h
    exact ⟨[], .done, (List.append_nil _).symm⟩
  | crash => cases h
  | get next ih =>
    obtain ⟨items, ha, hitems⟩ := ih _ h
    exact ⟨items, .get _ ha, hitems⟩
  | set s next ih =>
    obtain ⟨items, ha, hitems⟩ := ih h
    exact ⟨items, .set ha, hitems⟩
  | emit o next ih =>
    obtain ⟨items, ha, hitems⟩ := ih h
    refine ⟨o :: items, .emit ha, ?_⟩
    rw [hitems, List.filterMap_append, List.append_assoc]
    rfl
  | fire signal next ih =>
    obtain ⟨items, ha, hitems⟩ := ih h
    exact ⟨items, .fire ha, hitems⟩
  | poll signal next ih =>
    obtain ⟨items, ha, hitems⟩ := ih _ h
    exact ⟨items, .poll _ ha, hitems⟩
  | wait ms signal next ih =>
    obtain ⟨items, ha, hitems⟩ := ih _ h
    refine ⟨items, .wait _ ha, ?_⟩
    rw [hitems, List.filterMap_append]
    simp [Deed.item?]

end Puts

end Activity

end Flowchart
