import Flowchart.Proofs.Activity.View
import Flowchart.Proofs.Run.Beginning

/-! Plans that differ in the name of their strategy alone, and what comes of executing them. -/
namespace Flowchart

variable {σ : Type}

/-- The same report, but for the name of the strategy by which a run is announced. -/
def Report.nameless : Report → Report
  | .event sink (.runStarted run _) => .event sink (.runStarted run "")
  | report => report

def View.nameless (σ : Type) : View (World σ) Report (World σ) Report :=
  ⟨id, some ∘ Report.nameless⟩

/-- A plan is executed just like another, but for the strategy's name in its announcement. -/
structure Plan.ExecutesLike (p q : Plan σ) : Prop where
  entries : p.entries = q.entries
  fresh : ∀ signal others sc sc', others.Respects (View.nameless σ) →
    (View.nameless σ).scene sc = (View.nameless σ).scene sc' → p.id ∉ sc.stage.state.spent →
    ((p.execute signal).play others sc).1 = ((q.execute signal).play others sc').1 ∧
      (View.nameless σ).scene ((p.execute signal).play others sc).2 =
        (View.nameless σ).scene ((q.execute signal).play others sc').2
  spent : ∀ signal others sc sc', (View.nameless σ).scene sc = (View.nameless σ).scene sc' →
    p.id ∈ sc.stage.state.spent → ∀ plan ∈ [(p, sc), (q, sc')],
      ((plan.1.execute signal).play others plan.2).1 =
          some (.error (.planConsumed plan.1.label)) ∧
        ((plan.1.execute signal).play others plan.2).2.deeds = plan.2.deeds ++
          [.put (.log ⟨.warn, s!"Plan '{plan.1.label}' was already executed"⟩)]

theorem View.scene_announced {sc sc' : Scene (World σ) Report}
    (h : (nameless σ).scene sc = (nameless σ).scene sc') (strategy strategy' : Strategy) (sink : Sink) :
    (nameless σ).scene (sc.announced strategy sink) =
      (nameless σ).scene (sc'.announced strategy' sink) := by
  obtain ⟨hstate, hsignals, hitems, hdeeds⟩ := View.scene_eq_iff.mp h
  have hworld : sc.stage.state = sc'.stage.state := hstate
  rw [View.scene_eq_iff]
  refine ⟨congrArg (fun w : World σ => { w with runsBegun := w.runsBegun + 1 }) hworld, hsignals,
    ?_, ?_⟩
  · simp only [Scene.announced, Array.toList_push, List.filterMap_append, hitems, hworld]
    rfl
  · simp only [Scene.announced, List.filterMap_append, hdeeds, hworld]
    rfl

theorem Plan.executesLike {p q : Plan σ} (strategy : Strategy) (h : p = { q with strategy }) :
    p.ExecutesLike q := by
  subst h
  constructor
  case entries => rfl
  case fresh =>
    intro signal others sc sc' hothers hsame hfresh
    have hworld : sc.stage.state = sc'.stage.state := (View.scene_eq_iff.mp hsame).1
    have hspending : (View.nameless σ).scene (sc.spending q.id) =
        (View.nameless σ).scene (sc'.spending q.id) := by
      rw [View.scene_eq_iff] at hsame ⊢
      exact ⟨congrArg (fun w : World σ => { w with spent := q.id :: w.spent }) hworld, hsame.2⟩
    rw [Plan.play_execute hfresh, Plan.play_execute (p := q) (hworld ▸ hfresh)]
    dsimp only
    rw [hworld]
    have hbegun := View.scene_announced hspending strategy q.strategy q.sink
    obtain ⟨hresult, hscene, _⟩ := (Activity.Twin.refl Function.injective_id _ _).play_eq hothers
      (fun _ _ => rfl) _ _ rfl (View.scene_eq_iff.mp hbegun).1.symm hbegun
    exact ⟨hresult, hscene⟩
  case spent =>
    intro signal others sc sc' hsame hspent plan hplan
    have hworld : sc.stage.state = sc'.stage.state := (View.scene_eq_iff.mp hsame).1
    have hin : plan.1.id ∈ plan.2.stage.state.spent := by
      rw [List.mem_cons, List.mem_singleton] at hplan
      rcases hplan with rfl | rfl
      · exact hspent
      · exact hworld ▸ hspent
    rw [Plan.play_execute_spent hin]
    exact ⟨rfl, rfl⟩

end Flowchart
