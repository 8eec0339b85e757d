import Mathlib.Logic.Relation
import Flowchart.Graph.Reach

/-! Searches along connections are exact: they meet a node just when a path leads to it. -/
namespace Flowchart.Graph
open Relation

def Leads (edges : List Connection) (a b : String) : Prop :=
  ∃ e ∈ edges, e.sourceNode = a ∧ e.targetNode = b

theorem mem_targetsFrom {n m : String} {edges : List Connection} :
    m ∈ targetsFrom n edges ↔ Leads edges n m := by
  simp only [targetsFrom, List.mem_map, List.mem_filter, decide_eq_true_eq, Leads]
  constructor
  · rintro ⟨e, ⟨he, hn⟩, hm⟩
    exact ⟨e, he, hn, hm⟩
  · rintro ⟨e, he, hn, hm⟩
    exact ⟨e, ⟨he, hn⟩, hm⟩

theorem leads_edgesBeside {n a b : String} {edges : List Connection} :
    Leads (edgesBeside n edges) a b ↔ a ≠ n ∧ Leads edges a b := by
  simp only [edgesBeside, Leads, List.mem_filter, decide_not, Bool.not_eq_eq_eq_not, Bool.not_true,
    decide_eq_false_iff_not]
  constructor
  · rintro ⟨e, ⟨he, hn⟩, rfl, hb⟩
    exact ⟨hn, e, he, rfl, hb⟩
  · rintro ⟨hn, e, he, rfl, hb⟩
    exact ⟨e, ⟨he, hn⟩, rfl, hb⟩

/-- A path need not leave `n` at all, or it can start where an edge from `n` leads. -/
theorem path_beside {n a goal : String} {edges : List Connection}
    (h : ReflTransGen (Leads edges) a goal) :
    ReflTransGen (Leads (edgesBeside n edges)) a goal ∨
      ∃ m ∈ targetsFrom n edges, ReflTransGen (Leads (edgesBeside n edges)) m goal := by
  induction h using ReflTransGen.head_induction_on with
  | refl => exact .inl .refl
  | @head a b hab _ ih =>
    rcases ih with hb | hm
    · by_cases ha : a = n
      · subst ha
        exact .inr ⟨b, mem_targetsFrom.mpr hab, hb⟩
      · exact .inl (.head (leads_edgesBeside.mpr ⟨ha, hab⟩) hb)
    · exact .inr hm

theorem path_of_beside {n a goal : String} {edges : List Connection}
    (h : ReflTransGen (Leads (edgesBeside n edges)) a goal) : ReflTransGen (Leads edges) a goal := by
  have hs : Leads (edgesBeside n edges) ≤ Leads edges :=
    fun _ _ he => (leads_edgesBeside.mp he).2
  exact ReflTransGen.mono hs _ _ h

theorem meets_iff (goal : String) (stack : List String) (edges : List Connection) :
    meets goal stack edges = true ↔ ∃ n ∈ stack, ReflTransGen (Leads edges) n goal := by
  fun_induction meets goal stack edges with
  | case1 => simp
  | case2 edges stack =>
    simp only [true_iff]
    exact ⟨goal, List.mem_cons_self, .refl⟩
  | case3 edges n stack hn ih =>
    rw [ih]
    constructor
    · rintro ⟨m, hm, hp⟩
      have hp' := path_of_beside hp
      rcases List.mem_append.mp hm with ht | hs
      · exact ⟨n, List.mem_cons_self, .head (mem_targetsFrom.mp ht) hp'⟩
      · exact ⟨m, List.mem_cons_of_mem _ hs, hp'⟩
    · rintro ⟨m, hm, hp⟩
      rcases path_beside (n := n) hp with hb | ⟨k, hk, hb⟩
      · rcases List.mem_cons.mp hm with rfl | hs
        · -- The path starts at `n` without leaving it, so it would have to end there.
          rcases ReflTransGen.cases_head hb with he | ⟨k, hk, _⟩
          · exact absurd he hn
          · exact absurd rfl (leads_edgesBeside.mp hk).1
        · exact ⟨m, List.mem_append_right _ hs, hb⟩
      · exact ⟨k, List.mem_append_left _ hk, hb⟩

theorem meets_perm {goal : String} {stack stack' : List String} {edges : List Connection}
    (h : stack.Perm stack') : meets goal stack edges = meets goal stack' edges := by
  rw [Bool.eq_iff_iff, meets_iff, meets_iff]
  simp only [h.mem_iff]

def DataStep (g : Graph) : String → String → Prop := Leads g.dataConnections

theorem dataPath_iff (g : Graph) (source target : String) :
    g.dataPath source target = true ↔ ReflTransGen g.DataStep source target := by
  unfold dataPath
  rw [meets_iff]
  simp [DataStep]

end Flowchart.Graph
