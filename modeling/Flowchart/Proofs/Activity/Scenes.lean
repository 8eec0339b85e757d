import Flowchart.Proofs.Activity.Play

/-! The scenes that an activity passes through while it is played. -/
namespace Flowchart

variable {σ ω α β γ : Type}

def Company.KeepsFirings (others : Company σ ω) : Prop :=
  ∀ deeds (stage : Stage σ ω) signal, stage.signals.has signal = true →
    (others deeds stage).signals.has signal = true

namespace Activity

def scenes (others : Company σ ω) : Activity σ ω α → Scene σ ω → List (Scene σ ω)
  | done _, sc | crash, sc => [sc]
  | get next, sc => (next sc.stage.state).scenes others sc
  | set s next, sc => sc :: next.scenes others { sc with stage := { sc.stage with state := s } }
  | emit o next, sc =>
    sc :: next.scenes others { stage := { sc.stage with items := sc.stage.items.push o }
                               deeds := sc.deeds ++ [.put o] }
  | fire signal next, sc =>
    sc :: next.scenes others
      { sc with stage := { sc.stage with signals := sc.stage.signals.fire signal } }
  | poll signal next, sc => (next (sc.stage.signals.has signal)).scenes others sc
  | wait ms signal next, sc =>
    let stage := others sc.deeds sc.stage
    let cut := signal.any stage.signals.has
    sc :: (next cut).scenes others { stage, deeds := sc.deeds ++ [.waited ms cut] }

variable {others : Company σ ω} {sc s : Scene σ ω}

theorem first_mem_scenes (a : Activity σ ω α) (sc : Scene σ ω) : sc ∈ a.scenes others sc := by
  induction a with
  | done | crash => exact List.mem_singleton_self sc
  | get next ih => exact ih _
  | poll signal next ih => exact ih _
  | set | emit | fire | wait => exact List.mem_cons_self

theorem last_mem_scenes (a : Activity σ ω α) (sc : Scene σ ω) :
    (a.play others sc).2 ∈ a.scenes others sc := by
  induction a generalizing sc with
  | done | crash => exact List.mem_singleton_self sc
  | get next ih => exact ih _ sc
  | poll signal next ih => exact ih _ sc
  | set s next ih => exact List.mem_cons_of_mem _ (ih _)
  | emit o next ih => exact List.mem_cons_of_mem _ (ih _)
  | fire signal next ih => exact List.mem_cons_of_mem _ (ih _)
  | wait ms signal next ih => exact List.mem_cons_of_mem _ (ih _ _)

theorem mem_scenes_bind {a : Activity σ ω α} {f : α → Activity σ ω β}
    (h : s ∈ (a >>= f).scenes others sc) : s ∈ a.scenes others sc ∨
      ∃ x sc₁, a.play others sc = (some x, sc₁) ∧ s ∈ (f x).scenes others sc₁ := by
  change s ∈ (a.bind f).scenes others sc at h
  induction a generalizing sc with
  | done x => exact .inr ⟨x, sc, rfl, h⟩
  | crash => exact .inl h
  | get next ih => exact ih _ h
  | poll signal next ih => exact ih _ h
  | set s' next ih =>
    rcases List.mem_cons.mp h with rfl | h
    · exact .inl List.mem_cons_self
    · exact (ih h).imp_left (List.mem_cons_of_mem _)
  | emit o next ih =>
    rcases List.mem_cons.mp h with rfl | h
    · exact .inl List.mem_cons_self
    · exact (ih h).imp_left (List.mem_cons_of_mem _)
  | fire signal next ih =>
    rcases List.mem_cons.mp h with rfl | h
    · exact .inl List.mem_cons_self
    · exact (ih h).imp_left (List.mem_cons_of_mem _)
  | wait ms signal next ih =>
    rcases List.mem_cons.mp h with rfl | h
    · exact .inl List.mem_cons_self
    · exact (ih _ h).imp_left (List.mem_cons_of_mem _)

theorem deeds_prefix_play (a : Activity σ ω α) (sc : Scene σ ω) :
    sc.deeds <+: (a.play others sc).2.deeds := by
  induction a generalizing sc with
  | done | crash => exact List.prefix_refl _
  | get next ih => exact ih _ sc
  | poll signal next ih => exact ih _ sc
  | set s next ih => exact ih { sc with stage := { sc.stage with state := s } }
  | emit o next ih =>
    exact (List.prefix_append ..).trans
      (ih { stage := { sc.stage with items := sc.stage.items.push o }, deeds := sc.deeds ++ [.put o] })
  | fire signal next ih =>
    exact ih { sc with stage := { sc.stage with signals := sc.stage.signals.fire signal } }
  | wait ms signal next ih =>
    exact (List.prefix_append ..).trans (ih _ { stage := _, deeds := sc.deeds ++ [.waited ms _] })

theorem deeds_prefix_of_mem {a : Activity σ ω α} (h : s ∈ a.scenes others sc) :
    sc.deeds <+: s.deeds ∧ s.deeds <+: (a.play others sc).2.deeds := by
  induction a generalizing sc with
  | done | crash =>
    obtain rfl := List.mem_singleton.mp h
    exact ⟨List.prefix_refl _, List.prefix_refl _⟩
  | get next ih => exact ih _ h
  | poll signal next ih => exact ih _ h
  | set s' next ih =>
    rcases List.mem_cons.mp h with rfl | h
    · exact ⟨List.prefix_refl _, deeds_prefix_play (.set s' next) s⟩
    · exact ih h
  | emit o next ih =>
    rcases List.mem_cons.mp h with rfl | h
    · exact ⟨List.prefix_refl _, deeds_prefix_play (.emit o next) s⟩
    · exact ⟨(List.prefix_append ..).trans (ih h).1, (ih h).2⟩
  | fire signal next ih =>
    rcases List.mem_cons.mp h with rfl | h
    · exact ⟨List.prefix_refl _, deeds_prefix_play (.fire signal next) s⟩
    · exact ih h
  | wait ms signal next ih =>
    rcases List.mem_cons.mp h with rfl | h
    · exact ⟨List.prefix_refl _, deeds_prefix_play (.wait ms signal next) s⟩
    · exact ⟨(List.prefix_append ..).trans (ih _ h).1, (ih _ h).2⟩

theorem fired_play (hothers : others.KeepsFirings) (a : Activity σ ω α) {signal : Signal}
    (h : sc.stage.signals.has signal = true) :
    (a.play others sc).2.stage.signals.has signal = true := by
  induction a generalizing sc with
  | done | crash => exact h
  | get next ih => exact ih _ h
  | poll signal next ih => exact ih _ h
  | set s next ih => exact ih h
  | emit o next ih => exact ih h
  | fire fired next ih =>
    apply ih
    rw [Signals.has_fire, h]
    rfl
  | wait ms signal next ih => exact ih _ (hothers _ _ _ h)

theorem fired_of_mem (hothers : others.KeepsFirings) {a : Activity σ ω α} {signal : Signal}
    (h : s ∈ a.scenes others sc) (hs : s.stage.signals.has signal = true) :
    (a.play others sc).2.stage.signals.has signal = true := by
  induction a generalizing sc with
  | done | crash =>
    obtain rfl := List.mem_singleton.mp h
    exact hs
  | get next ih => exact ih _ h
  | poll signal next ih => exact ih _ h
  | set s' next ih =>
    rcases List.mem_cons.mp h with rfl | h
    · exact fired_play hothers (.set s' next) hs
    · exact ih h
  | emit o next ih =>
    rcases List.mem_cons.mp h with rfl | h
    · exact fired_play hothers (.emit o next) hs
    · exact ih h
  | fire fired next ih =>
    rcases List.mem_cons.mp h with rfl | h
    · exact fired_play hothers (.fire fired next) hs
    · exact ih h
  | wait ms signal next ih =>
    rcases List.mem_cons.mp h with rfl | h
    · exact fired_play hothers (.wait ms signal next) hs
    · exact ih _ h

/-- From a scene on, nothing that shows in a view of its deeds is done once a signal has fired. -/
def StopsShowing (view : Deed ω → Option γ) (signal : Signal) (others : Company σ ω)
    (a : Activity σ ω α) (sc : Scene σ ω) : Prop :=
  ∀ s ∈ a.scenes others sc, s.stage.signals.has signal = true →
    s.deeds.filterMap view = (a.play others sc).2.deeds.filterMap view

namespace StopsShowing

variable {view : Deed ω → Option γ} {signal : Signal}

theorem of_hides {a : Activity σ ω α} (h : Hides view a) (sc : Scene σ ω) :
    StopsShowing view signal others a sc := by
  intro s hs _
  obtain ⟨hbefore, hafter⟩ := deeds_prefix_of_mem hs
  have hsame := h others sc
  have hle := (hbefore.filterMap view).length_le
  have hge := (hafter.filterMap view)
  refine hge.eq_of_length_le ?_
  rw [hsame]
  exact hle

theorem bind (hothers : others.KeepsFirings) {a : Activity σ ω α} {f : α → Activity σ ω β}
    (ha : StopsShowing view signal others a sc)
    (hf : ∀ x sc₁, a.play others sc = (some x, sc₁) → StopsShowing view signal others (f x) sc₁) :
    StopsShowing view signal others (a >>= f) sc := by
  intro s hs hfired
  rcases mem_scenes_bind hs with hs | ⟨x, sc₁, hx, hs⟩
  · have hshown := ha s hs hfired
    have hlast := fired_of_mem hothers hs hfired
    rw [play_bind]
    cases hplay : a.play others sc with
    | mk result sc₁ =>
      rw [hplay] at hshown hlast
      cases result with
      | none => exact hshown
      | some x => exact hshown.trans (hf x sc₁ hplay sc₁ (first_mem_scenes _ _) hlast)
  · rw [play_bind, hx]
    exact hf x sc₁ hx s hs hfired

theorem tell {o : ω} (h : sc.stage.signals.has signal = false) :
    StopsShowing view signal others (.tell o) sc := by
  intro s hs hfired
  rcases List.mem_cons.mp hs with rfl | hs
  · rw [h] at hfired
    cases hfired
  · rw [List.mem_singleton.mp hs]
    rfl

end StopsShowing

end Activity

end Flowchart
