import Flowchart.Proofs.Activity.Play

/-! Views of a stage, and activities that cannot tell apart two stages that look the same. -/
namespace Flowchart

/-- What somebody sees of a stage: something of its state, and of an item something or nothing. -/
structure View (σ ω υ ψ : Type) where
  state : σ → υ
  item : ω → Option ψ

def Deed.seen? {ω ψ : Type} (item : ω → Option ψ) : Deed ω → Option (Deed ψ)
  | put o => (item o).map put
  | waited ms cut => some (waited ms cut)

variable {σ ω υ ψ τ α β : Type}

namespace View

def stage (v : View σ ω υ ψ) (s : Stage σ ω) : υ × Signals × List ψ :=
  (v.state s.state, s.signals, s.items.toList.filterMap v.item)

def scene (v : View σ ω υ ψ) (sc : Scene σ ω) : (υ × Signals × List ψ) × List (Deed ψ) :=
  (v.stage sc.stage, sc.deeds.filterMap (Deed.seen? v.item))

variable {v : View σ ω υ ψ} {a b : Scene σ ω}

theorem scene_eq_iff : v.scene a = v.scene b ↔
    v.state a.stage.state = v.state b.stage.state ∧ a.stage.signals = b.stage.signals ∧
      a.stage.items.toList.filterMap v.item = b.stage.items.toList.filterMap v.item ∧
      a.deeds.filterMap (Deed.seen? v.item) = b.deeds.filterMap (Deed.seen? v.item) := by
  simp only [scene, stage, Prod.mk.injEq, and_assoc]

theorem scene_put (sc : Scene σ ω) (o : ω) :
    v.scene { stage := { sc.stage with items := sc.stage.items.push o }
              deeds := sc.deeds ++ [.put o] } =
      ((v.state sc.stage.state, sc.stage.signals,
        sc.stage.items.toList.filterMap v.item ++ (v.item o).toList),
        sc.deeds.filterMap (Deed.seen? v.item) ++ ((v.item o).map Deed.put).toList) := by
  cases h : v.item o <;> simp [scene, stage, Deed.seen?, h]

theorem scene_put_unseen (sc : Scene σ ω) {o : ω} (h : v.item o = none) :
    v.scene { stage := { sc.stage with items := sc.stage.items.push o }
              deeds := sc.deeds ++ [.put o] } = v.scene sc := by
  rw [scene_put, h]
  simp [scene, stage]

end View

/-- On scenes that look the same, the others do what looks the same. -/
def Company.Respects (others : Company σ ω) (v : View σ ω υ ψ) : Prop :=
  ∀ a b : Scene σ ω, v.scene a = v.scene b →
    v.stage (others a.deeds a.stage) = v.stage (others b.deeds b.stage)

/-- The others leave alone a part of the state. -/
def Company.Keeps (others : Company σ ω) (part : σ → τ) : Prop :=
  ∀ deeds stage, part (others deeds stage).state = part stage.state

namespace Activity

/-- Two activities that, from states that look alike, do what looks alike
and leave alone a part of the state. -/
inductive Twin (v : View σ ω υ ψ) (part : σ → τ) :
    Activity σ ω α → σ → Activity σ ω α → σ → Prop
  | done {x : α} {s t : σ} : Twin v part (.done x) s (.done x) t
  | crash {s t : σ} : Twin v part .crash s .crash t
  | get {f g : σ → Activity σ ω α} {s t : σ} (h : Twin v part (f s) s (g t) t) :
      Twin v part (.get f) s (.get g) t
  | set {a b : Activity σ ω α} {s s' t t' : σ} (same : v.state s' = v.state t')
      (kept : part s' = part s ∧ part t' = part t) (h : Twin v part a s' b t') :
      Twin v part (.set s' a) s (.set t' b) t
  | emit {a b : Activity σ ω α} {o o' : ω} {s t : σ} (same : v.item o = v.item o')
      (h : Twin v part a s b t) : Twin v part (.emit o a) s (.emit o' b) t
  | fire {a b : Activity σ ω α} {signal : Signal} {s t : σ} (h : Twin v part a s b t) :
      Twin v part (.fire signal a) s (.fire signal b) t
  | poll {f g : Bool → Activity σ ω α} {signal : Signal} {s t : σ}
      (h : ∀ fired, Twin v part (f fired) s (g fired) t) :
      Twin v part (.poll signal f) s (.poll signal g) t
  | wait {f g : Bool → Activity σ ω α} {ms : Nat} {signal : Option Signal} {s t : σ}
      (h : ∀ cut s' t', v.state s' = v.state t' → Twin v part (f cut) s' (g cut) t') :
      Twin v part (.wait ms signal f) s (.wait ms signal g) t

namespace Twin

variable {v : View σ ω υ ψ} {part : σ → τ}

/-- An activity is its own twin for whoever sees all of the state. -/
theorem refl (hv : Function.Injective v.state) (a : Activity σ ω α) (s : σ) :
    Twin v (fun _ => ()) a s a s := by
  induction a generalizing s with
  | done x => exact .done
  | crash => exact .crash
  | get next ih => exact .get (ih s s)
  | set s' next ih => exact .set rfl ⟨rfl, rfl⟩ (ih s')
  | emit o next ih => exact .emit rfl (ih s)
  | fire signal next ih => exact .fire (ih s)
  | poll signal next ih => exact .poll fun fired => ih fired s
  | wait ms signal next ih =>
    refine .wait fun cut s' t' same => ?_
    obtain rfl := hv same
    exact ih cut s'

theorem mono {ρ : Type} (f : τ → ρ) {a b : Activity σ ω α} {s t : σ} (h : Twin v part a s b t) :
    Twin v (f ∘ part) a s b t := by
  induction h with
  | done => exact .done
  | crash => exact .crash
  | get _ ih => exact .get ih
  | set same kept _ ih => exact .set same ⟨congrArg f kept.1, congrArg f kept.2⟩ ih
  | emit same _ ih => exact .emit same ih
  | fire _ ih => exact .fire ih
  | poll _ ih => exact .poll ih
  | wait _ ih => exact .wait ih

theorem bind {a b : Activity σ ω α} {f g : α → Activity σ ω β} {s t : σ} (h : Twin v part a s b t)
    (same : v.state s = v.state t)
    (hf : ∀ x s' t', v.state s' = v.state t' → Twin v part (f x) s' (g x) t') :
    Twin v part (a >>= f) s (b >>= g) t := by
  change Twin v part (a.bind f) s (b.bind g) t
  induction h with
  | done => exact hf _ _ _ same
  | crash => exact .crash
  | get _ ih => exact .get (ih same)
  | set same' kept _ ih => exact .set same' kept (ih same')
  | emit hitem _ ih => exact .emit hitem (ih same)
  | fire _ ih => exact .fire (ih same)
  | poll _ ih => exact .poll fun fired => ih fired same
  | wait _ ih => exact .wait fun cut s' t' same' => ih cut s' t' same' same'

theorem hasFired (signal : Signal) (s t : σ) :
    Twin v part (.hasFired signal : Activity σ ω Bool) s (.hasFired signal) t :=
  .poll fun _ => .done

theorem tell {o o' : ω} (same : v.item o = v.item o') (s t : σ) :
    Twin v part (.tell o : Activity σ ω Unit) s (.tell o') t := .emit same .done

/-- Twins that play on scenes that look the same end in the same way, on
scenes that look the same again. -/
theorem play_eq {a b : Activity σ ω α} {s t : σ} (h : Twin v part a s b t)
    {others : Company σ ω} (hothers : others.Respects v) (hpart : others.Keeps part)
    (sc sc' : Scene σ ω) (hs : sc.stage.state = s) (ht : sc'.stage.state = t)
    (hsame : v.scene sc = v.scene sc') :
    (a.play others sc).1 = (b.play others sc').1 ∧
      v.scene (a.play others sc).2 = v.scene (b.play others sc').2 ∧
      part (a.play others sc).2.stage.state = part s ∧
      part (b.play others sc').2.stage.state = part t := by
  induction h generalizing sc sc' with
  | done => exact ⟨rfl, hsame, congrArg part hs, congrArg part ht⟩
  | crash => exact ⟨rfl, hsame, congrArg part hs, congrArg part ht⟩
  | get _ ih =>
    subst hs ht
    exact ih sc sc' rfl rfl hsame
  | @set a b s s' t t' same kept _ ih =>
    rw [← kept.1, ← kept.2]
    refine ih { sc with stage := { sc.stage with state := s' } }
      { sc' with stage := { sc'.stage with state := t' } } rfl rfl ?_
    rw [View.scene_eq_iff] at hsame ⊢
    exact ⟨same, hsame.2⟩
  | @emit a b o o' s t same _ ih =>
    refine ih ⟨{ sc.stage with items := sc.stage.items.push o }, sc.deeds ++ [.put o]⟩
      ⟨{ sc'.stage with items := sc'.stage.items.push o' }, sc'.deeds ++ [.put o']⟩ hs ht ?_
    obtain ⟨hstate, hsignals, hitems, hdeeds⟩ := View.scene_eq_iff.mp hsame
    rw [View.scene_put, View.scene_put, same, hstate, hsignals, hitems, hdeeds]
  | @fire a b signal s t _ ih =>
    refine ih { sc with stage := { sc.stage with signals := sc.stage.signals.fire signal } }
      { sc' with stage := { sc'.stage with signals := sc'.stage.signals.fire signal } } hs ht ?_
    rw [View.scene_eq_iff] at hsame ⊢
    exact ⟨hsame.1, congrArg (·.fire signal) hsame.2.1, hsame.2.2⟩
  | @poll f g signal s t _ ih =>
    rw [play, play, (View.scene_eq_iff.mp hsame).2.1]
    exact ih _ sc sc' hs ht hsame
  | @wait f g ms signal s t _ ih =>
    have hstage := hothers sc sc' hsame
    obtain ⟨hstate, hsignals, hitems⟩ : v.state _ = v.state _ ∧ _ = _ ∧ _ = _ := by
      simpa only [View.stage, Prod.mk.injEq] using hstage
    rw [play, play, ← hs, ← ht, ← hpart sc.deeds sc.stage, ← hpart sc'.deeds sc'.stage]
    rw [hsignals]
    refine ih _ _ _ hstate _ _ rfl rfl ?_
    rw [View.scene_eq_iff]
    refine ⟨hstate, hsignals, hitems, ?_⟩
    rw [List.filterMap_append, List.filterMap_append, (View.scene_eq_iff.mp hsame).2.2.2]

end Twin

/-- From a state on, and whatever others do while it waits, an activity
leaves a part of the state alone. -/
def Leaves (part : σ → τ) : Activity σ ω α → σ → Prop
  | done _, _ => True
  | crash, _ => True
  | get next, s => (next s).Leaves part s
  | set s' next, s => part s' = part s ∧ next.Leaves part s'
  | emit _ next, s => next.Leaves part s
  | fire _ next, s => next.Leaves part s
  | poll _ next, s => ∀ fired, (next fired).Leaves part s
  | wait _ _ next, _ => ∀ cut s', (next cut).Leaves part s'

theorem Twin.leaves {v : View σ ω υ ψ} {part : σ → τ} {a b : Activity σ ω α} {s t : σ}
    (h : Twin v part a s b t) : a.Leaves part s := by
  induction h with
  | done => exact True.intro
  | crash => exact True.intro
  | get _ ih => exact ih
  | set _ kept _ ih => exact ⟨kept.1, ih⟩
  | emit _ _ ih => exact ih
  | fire _ ih => exact ih
  | poll _ ih => exact ih
  | wait _ ih => exact fun cut s' => ih cut s' s' rfl

/-- What an activity leaves alone stays, if the others leave it too after such deeds as there were. -/
theorem Leaves.play_eq {part : σ → τ} {others : Company σ ω} {P : List (Deed ω) → Prop}
    (onward : ∀ deeds d, P deeds → P (deeds ++ [d]))
    (hothers : ∀ deeds stage, P deeds → part (others deeds stage).state = part stage.state)
    {a : Activity σ ω α} {sc : Scene σ ω} (h : a.Leaves part sc.stage.state) (hsc : P sc.deeds) :
    part (a.play others sc).2.stage.state = part sc.stage.state := by
  induction a generalizing sc with
  | done | crash => rfl
  | get next ih => exact ih _ h hsc
  | set s next ih =>
    let set : Scene σ ω := { sc with stage := { sc.stage with state := s } }
    have hnext : part (next.play others set).2.stage.state = part s := ih h.2 hsc
    exact hnext.trans h.1
  | emit o next ih =>
    let put : Scene σ ω := ⟨{ sc.stage with items := sc.stage.items.push o }, sc.deeds ++ [.put o]⟩
    have hput : P put.deeds := onward _ _ hsc
    exact ih h hput
  | fire signal next ih =>
    let fired : Scene σ ω :=
      { sc with stage := { sc.stage with signals := sc.stage.signals.fire signal } }
    have hfired : P fired.deeds := hsc
    exact ih h hfired
  | poll signal next ih => exact ih _ (h _) hsc
  | wait ms signal next ih =>
    let cut := signal.any (others sc.deeds sc.stage).signals.has
    let woken : Scene σ ω := ⟨others sc.deeds sc.stage, sc.deeds ++ [.waited ms cut]⟩
    have hwoken : P woken.deeds := onward _ _ hsc
    have hnext := ih cut (h cut woken.stage.state) hwoken
    exact hnext.trans (hothers _ _ hsc)

end Activity

end Flowchart
