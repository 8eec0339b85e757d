import Flowchart.Library
import Flowchart.Model.Basic
import Flowchart.Proofs.Graph.WellFormed

/-! Models of library nodes, and the flow outputs that the library gives its nodes. -/
namespace Flowchart

inductive Library.Declares : Behaviour → Node → Prop
  | constant (id : String) (t : DataType) (value : Json) :
      Declares (.constant value) (Library.constant id t)
  | add (id : String) : Declares .add (Library.add id)
  | getVariable (id name : String) : Declares (.getVariable name) (Library.getVariable id)
  | setVariable (id name : String) : Declares (.setVariable name) (Library.setVariable id)
  | print (id : String) : Declares .print (Library.print id)
  | delay (id : String) (ms : Nat) : Declares (.delay ms) (Library.delay id)
  | fail (id message : String) : Declares (.fail message) (Library.fail id)
  | branch (id : String) : Declares .branch (Library.branch id)

/-- Every node is one of the library's and has a behaviour of its kind. -/
def Model.OfLibrary (m : Model) : Prop :=
  ∀ n ∈ m.graph.nodes, ∃ b, m.behaviour? n.id = some b ∧ Library.Declares b n

theorem Model.OfLibrary.declares {m : Model} (hlib : m.OfLibrary) {id : String} {n : Node}
    {b : Behaviour} (hn : m.graph.node? id = some n) (hb : m.behaviour? id = some b) :
    Library.Declares b n := by
  have hid : n.id = id := by simpa using List.find?_some hn
  obtain ⟨b', hb', hd⟩ := hlib n (List.mem_of_find?_eq_some hn)
  rw [hid, hb] at hb'
  cases hb'
  exact hd

def Behaviour.isCustom : Behaviour → Bool
  | custom _ => true
  | _ => false

/-- Every node that has a behaviour has one of the library's, whatever its ports are. -/
def Model.UsesLibrary (m : Model) : Prop :=
  ∀ node n b, m.graph.node? node = some n → m.behaviour? node = some b → b.isCustom = false

namespace Library.Declares

variable {b : Behaviour} {n : Node}

theorem isCustom_eq (h : Declares b n) : b.isCustom = false := by
  cases h <;> rfl

theorem flowOutputs_eq (h : Declares b n) : ∃ names : List String, names.Nodup ∧
    n.flowOutputs = names.map fun name => output n.id name .flow := by
  cases h with
  | constant id t value =>
    by_cases ht : t = .flow
    · subst ht
      exact ⟨["value"], by simp, rfl⟩
    · refine ⟨[], List.nodup_nil, ?_⟩
      simp [Node.flowOutputs, Library.constant, output, Port.output, Port.isFlow, ht]
  | add id => exact ⟨[], List.nodup_nil, rfl⟩
  | getVariable id name => exact ⟨[], List.nodup_nil, rfl⟩
  | setVariable id name => exact ⟨[nextName], by simp, rfl⟩
  | print id => exact ⟨[nextName], by simp, rfl⟩
  | delay id ms => exact ⟨[nextName], by simp, rfl⟩
  | fail id message => exact ⟨[nextName], by simp, rfl⟩
  | branch id => exact ⟨["true", "false", nextName], by simp [nextName], rfl⟩

theorem single_of_flowOutput (h : Declares b n) {p : Port} (hp : p ∈ n.flowOutputs) :
    p.capacity = .single := by
  obtain ⟨names, _, heq⟩ := h.flowOutputs_eq
  rw [heq, List.mem_map] at hp
  obtain ⟨name, _, rfl⟩ := hp
  rfl

theorem length_onward_le (h : Declares b n) :
    (n.flowOutputs.filter (·.name = nextName)).length ≤ 1 := by
  obtain ⟨names, hnodup, heq⟩ := h.flowOutputs_eq
  have hfilter : n.flowOutputs.filter (·.name = nextName) =
      (names.filter (· = nextName)).map fun name => output n.id name .flow := by
    rw [heq, List.filter_map]
    rfl
  rw [hfilter, List.length_map]
  have := List.nodup_iff_count_le_one.mp hnodup nextName
  rwa [List.count_eq_length_filter] at this

end Library.Declares

theorem Model.OfLibrary.usesLibrary {m : Model} (hlib : m.OfLibrary) : m.UsesLibrary :=
  fun _ _ _ hn hb => (hlib.declares hn hb).isCustom_eq

end Flowchart
