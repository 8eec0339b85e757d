import Flowchart.Proofs.Model.Deciding

/-! The conditions of branches: which variables they read, and that pulling them changes nothing. -/
namespace Flowchart

/-- A pull gives the same at two desks, and leaves both as they are. -/
def Pull.SameAt {α : Type} (d d' : Desk) (p : Pull α) : Prop :=
  ∃ result, p.run d = (result, d) ∧ p.run d' = (result, d')

theorem Pull.SameAt.closed (d d' : Desk) : Closed fun _ p => p.SameAt d d' where
  pure a := ⟨.ok a, rfl, rfl⟩
  throw _ := ⟨_, rfl, rfl⟩
  bind {_ _ p f} hp hf := by
    obtain ⟨result, hd, hd'⟩ := hp
    cases result with
    | error e =>
      refine ⟨.error e, ?_, ?_⟩
      · rw [run_bind, hd]
      · rw [run_bind, hd']
    | ok a =>
      obtain ⟨result, hf, hf'⟩ := hf a
      refine ⟨result, ?_, ?_⟩
      · rw [run_bind, hd]
        exact hf
      · rw [run_bind, hd']
        exact hf'

/-- A truth value comes from a constant or a variable: the other outputs of library nodes are for
numbers and for control. -/
theorem Library.Declares.of_fits_boolean {b : Behaviour} {n : Node} (h : Declares b n) {p : Port}
    (hp : p ∈ n.ports) (hout : p.direction = .output)
    (hfits : p.dataType.compatible .boolean = true) :
    (∃ v, b = .constant v) ∨ ∃ name, b = .getVariable name := by
  have hkind : ∀ q ∈ n.ports, q.direction = .input ∨ q.dataType = .number ∨ q.dataType = .flow ∨
      (∃ v, b = .constant v) ∨ ∃ name, b = .getVariable name := by
    cases h <;> simp [Library.add, Library.setVariable, Library.print, Library.delay, Library.fail,
      Library.passage, Library.branch, Library.input, Library.output, Port.input, Port.output,
      Port.demanded]
  rcases hkind p hp with hin | hnumber | hflow | hsource
  · cases hout.symm.trans hin
  · rw [hnumber] at hfits
    cases hfits
  · rw [hflow] at hfits
    cases hfits
  · exact hsource

namespace Model

variable {m : Model}

/-- Pulling the value that arrives at a port may read a variable, itself or through sums. -/
inductive Reads (m : Model) (name : String) : String → Prop
  | ofVariable {port : String} {c : Connection} (arrives : m.graph.arriving? port = some c)
      (behaviour : m.behaviour? c.sourceNode = some (.getVariable name)) : Reads m name port
  | ofSum {port input : String} {c : Connection} {n : Node} {p : Port}
      (arrives : m.graph.arriving? port = some c) (node : m.graph.node? c.sourceNode = some n)
      (behaviour : m.behaviour? c.sourceNode = some .add) (side : input = "a" ∨ input = "b")
      (named : n.portNamed? input = some p) (reads : Reads m name p.id) : Reads m name port

def Asks (m : Model) (node name : String) : Prop :=
  m.behaviour? node = some .branch ∧ ∃ n p, m.graph.node? node = some n ∧
    n.portNamed? "condition" = some p ∧ m.Reads name p.id

section

variable (hwf : m.graph.WellFormed) (hlib : m.OfLibrary)
include hwf hlib

theorem source_of_boolean {n : Node} {p : Port} (hn : n ∈ m.graph.nodes) (hp : p ∈ n.ports)
    (hboolean : p.dataType = .boolean) {c : Connection}
    (hc : m.graph.arriving? p.id = some c) : ∃ k, m.graph.node? c.sourceNode = some k ∧
      ((∃ v, m.behaviour? c.sourceNode = some (.constant v)) ∨
        ∃ name, m.behaviour? c.sourceNode = some (.getVariable name)) := by
  have hmem : c ∈ m.graph.connections := List.mem_of_mem_filter (List.mem_of_find?_eq_some hc)
  have htarget : c.targetPort = p.id := by simpa using List.find?_some hc
  obtain ⟨-, s, q, ⟨⟨k, hk, hkid, hs⟩, -, hout⟩, ⟨⟨l, hl, -, hq⟩, hqid, -⟩, hfits⟩ := hwf.fits c hmem
  obtain ⟨-, rfl⟩ := Graph.declared_unique hwf.ports_nodup hl hn hq hp (hqid.trans htarget)
  rw [hboolean] at hfits
  obtain ⟨b, hb, hdeclares⟩ := hlib k hk
  rw [hkid] at hb
  refine ⟨k, (Graph.node?_eq_some_iff hwf.nodes_nodup).mpr ⟨hk, hkid⟩, ?_⟩
  rcases hdeclares.of_fits_boolean hs hout hfits with ⟨v, rfl⟩ | ⟨name, rfl⟩
  · exact .inl ⟨v, hb⟩
  · exact .inr ⟨name, hb⟩

theorem sameAt_inputValue {n : Node} {p : Port} (hn : n ∈ m.graph.nodes) (hp : p ∈ n.ports)
    (hboolean : p.dataType = .boolean) {d d' : Desk}
    (hagree : ∀ name, m.Reads name p.id → d.board.get? name = d'.board.get? name) :
    (m.inputValue p.id).SameAt d d' := by
  unfold inputValue depth read
  cases hc : m.graph.arriving? p.id with
  | none => exact ⟨_, rfl, rfl⟩
  | some c =>
    refine (Pull.SameAt.closed d d').bind ?_ fun v => (Pull.SameAt.closed d d').pure (some v)
    obtain ⟨k, hk, ⟨v, hb⟩ | ⟨name, hb⟩⟩ := source_of_boolean hwf hlib hn hp hboolean hc
    · unfold value
      rw [hk, hb]
      exact ⟨_, rfl, rfl⟩
    · unfold value
      rw [hk, hb]
      have hname := hagree name (.ofVariable hc hb)
      refine ⟨.ok ((d.board.get? name).getD .null), rfl, ?_⟩
      rw [hname]
      rfl

/-- Branches pull the same condition wherever the variables agree that it reads. -/
theorem sameAt_condition {id : String} (hn : Library.branch id ∈ m.graph.nodes)
    (hb : m.behaviour? id = some .branch) {d d' : Desk}
    (hagree : ∀ name, m.Asks id name → d.board.get? name = d'.board.get? name) :
    ((Library.branch id).requireBool m.inputValue "condition").SameAt d d' := by
  refine (Pull.SameAt.closed d d').requireBool fun p hp => ?_
  have hnode : m.graph.node? id = some (Library.branch id) :=
    (Graph.node?_eq_some_iff hwf.nodes_nodup).mpr ⟨hn, rfl⟩
  obtain rfl : p = (Library.input id "condition" .boolean).demanded := (Option.some.inj hp).symm
  refine sameAt_inputValue hwf hlib hn (by simp [Library.branch]) rfl fun name hreads => ?_
  exact hagree name ⟨hb, _, _, hnode, hp, hreads⟩

end

end Model

end Flowchart
