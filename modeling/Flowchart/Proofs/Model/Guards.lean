import Flowchart.Model.Tree
import Flowchart.Proofs.Graph.Control
import Flowchart.Proofs.Model.Direct
import Flowchart.Proofs.Model.Library

/-! Guards of tokens, and the nodes that control comes to from a node whose guards are open. -/
namespace Flowchart

namespace Model

variable {m : Model} {d d' : Desk} {guards : List (String × String)}

def opens (m : Model) (d : Desk) (guards : List (String × String)) : Bool :=
  match m.allOpen d guards with
  | .ok b => b
  | .error _ => false

def Knows (m : Model) (guard : String × String) : Prop :=
  ∃ n p, m.graph.node? guard.1 = some n ∧ n.port? guard.2 = some p

theorem Knows.isOpen_eq {guard : String × String} (h : m.Knows guard) (d : Desk) :
    ∃ b, m.isOpen d guard.1 guard.2 = .ok b := by
  obtain ⟨n, p, hn, hp⟩ := h
  unfold isOpen
  simp only [hn, hp]
  exact ⟨_, rfl⟩

theorem allOpen_eq (h : ∀ guard ∈ guards, m.Knows guard) (d : Desk) :
    m.allOpen d guards = .ok (m.opens d guards) := by
  unfold opens
  induction guards with
  | nil => rfl
  | cons guard guards ih =>
    obtain ⟨b, hb⟩ := (h guard List.mem_cons_self).isOpen_eq d
    unfold allOpen
    simp only [hb]
    cases b with
    | false => rfl
    | true => exact ih fun x hx => h x (List.mem_cons_of_mem _ hx)

theorem opens_append (h : ∀ guard ∈ guards, m.Knows guard) {node port : String} {b : Bool}
    (hb : m.isOpen d node port = .ok b) :
    m.opens d (guards ++ [(node, port)]) = (m.opens d guards && b) := by
  unfold opens
  induction guards with
  | nil =>
    simp only [List.nil_append, allOpen, hb]
    cases b <;> rfl
  | cons guard guards ih =>
    obtain ⟨c, hc⟩ := (h guard List.mem_cons_self).isOpen_eq d
    have hrest := ih fun x hx => h x (List.mem_cons_of_mem _ hx)
    rw [List.cons_append]
    simp only [allOpen, hc]
    cases c with
    | false => rfl
    | true => exact hrest

theorem isOpen_congr {node : String} (h : d'.decision? node = d.decision? node) (port : String) :
    m.isOpen d' node port = m.isOpen d node port := by
  unfold isOpen
  cases m.graph.node? node with
  | none => rfl
  | some n =>
    dsimp only
    cases n.port? port with
    | none => rfl
    | some p =>
      have hb : Behaviour.isOpen d' node p = Behaviour.isOpen d node p := by
        funext b
        cases b <;> simp [Behaviour.isOpen, h]
      dsimp only
      rw [hb]

theorem opens_congr (h : ∀ guard ∈ guards, d'.decision? guard.1 = d.decision? guard.1) :
    m.opens d' guards = m.opens d guards := by
  have hall : m.allOpen d' guards = m.allOpen d guards := by
    induction guards with
    | nil => rfl
    | cons guard guards ih =>
      rw [allOpen, allOpen, isOpen_congr (h guard List.mem_cons_self),
        ih fun x hx => h x (List.mem_cons_of_mem _ hx)]
  rw [opens, opens, hall]

/-- In a graph that obeys every rule, one connection at most leaves a flow output. -/
theorem beyond_eq (hwf : m.graph.WellFormed) {n : Node} {b : Behaviour} (hn : n ∈ m.graph.nodes)
    (hdeclares : Library.Declares b n) {p : Port} (hp : p ∈ n.flowOutputs) :
    m.beyond n p = (m.graph.leaving? p.id).toList.map (·.targetNode) := by
  have hpn : p ∈ n.ports := List.mem_of_mem_filter hp
  -- A port has one id in the whole graph, so connections from it come from its node.
  have hfilter : (m.graph.connections.filter fun c => c.sourceNode = n.id ∧ c.sourcePort = p.id) =
      m.graph.connections.filter (·.sourcePort = p.id) := by
    apply List.filter_congr
    intro c hc
    by_cases hcp : c.sourcePort = p.id
    · simp [hcp, hwf.sourceNode_eq hn hpn hc hcp]
    · simp [hcp]
  rw [beyond, hfilter, hwf.leaving?_toList hn hpn (hdeclares.single_of_flowOutput hp)]

section Departures

variable (hwf : m.graph.WellFormed) {n : Node} {b : Behaviour} (hn : n ∈ m.graph.nodes)
  (hdeclares : Library.Declares b n)
include hwf hn hdeclares

theorem map_children {choice : Option Bool} (hknows : ∀ guard ∈ guards, m.Knows guard)
    (hopens : m.opens d guards = true) {id : TokenId} {ports : List Port}
    (hports : ∀ p ∈ ports, p ∈ n.flowOutputs)
    (hways : ∀ p ∈ n.flowOutputs, m.isOpen d n.id p.id = .ok (p.isTaken choice)) :
    ((ports.filterMap fun p => (m.graph.leaving? p.id).map fun c =>
        { node := c.targetNode, guards := guards ++ [(n.id, p.id)], link := .childOf id : Arrival }).filter
      fun a => m.opens d a.guards).map (·.node) =
      (ports.filter (·.isTaken choice)).flatMap (m.beyond n) := by
  induction ports with
  | nil => rfl
  | cons p ports ih =>
    have hp := hports p List.mem_cons_self
    have hrest := ih fun q hq => hports q (List.mem_cons_of_mem _ hq)
    have hbeyond := beyond_eq hwf hn hdeclares hp
    have hopen := opens_append hknows (hways p hp)
    rw [hopens, Bool.true_and] at hopen
    cases hc : m.graph.leaving? p.id with
    | none =>
      rw [hc] at hbeyond
      rw [List.filterMap_cons_none (by rw [hc]; rfl), hrest]
      cases ht : p.isTaken choice <;> simp [ht, hbeyond]
    | some c =>
      rw [hc] at hbeyond
      rw [List.filterMap_cons_some (by rw [hc]; rfl)]
      cases ht : p.isTaken choice <;> simp [ht, hbeyond, hopen, hrest]

theorem map_successors {id : TokenId} {ports : List Port} (hports : ∀ p ∈ ports, p ∈ n.flowOutputs) :
    (ports.filterMap fun p => (m.graph.leaving? p.id).map fun c =>
        { node := c.targetNode, guards, link := .successorOf id : Arrival }).map (·.node) =
      ports.flatMap (m.beyond n) := by
  induction ports with
  | nil => rfl
  | cons p ports ih =>
    have hrest := ih fun q hq => hports q (List.mem_cons_of_mem _ hq)
    rw [List.flatMap_cons, beyond_eq hwf hn hdeclares (hports p List.mem_cons_self), ← hrest]
    cases hc : m.graph.leaving? p.id <;> simp [hc]

/-- A node whose guards are open leads, through the ports that are open, to
the nodes that follow it directly. -/
theorem map_departures {choice : Option Bool} (hknows : ∀ guard ∈ guards, m.Knows guard)
    (hopens : m.opens d guards = true)
    (hways : ∀ p ∈ n.flowOutputs, m.isOpen d n.id p.id = .ok (p.isTaken choice)) (id : TokenId) :
    ((m.graph.departures n guards id).filter fun a => m.opens d a.guards).map (·.node) =
      m.followed n choice := by
  unfold Graph.departures followed
  rw [List.partition_eq_filter_filter]
  dsimp only
  rw [List.filter_append, List.map_append]
  congr 1
  · rw [map_children hwf hn hdeclares hknows hopens (fun p hp => List.mem_of_mem_filter hp) hways,
      List.filter_filter]
    congr 1
    apply List.filter_congr
    intro p _
    simp [Bool.and_comm]
  · have hlength := hdeclares.length_onward_le
    rw [getLast?_toList ((List.length_filterMap_le _ _).trans hlength)]
    rw [List.filter_eq_self.mpr]
    · exact map_successors hwf hn hdeclares fun p hp => List.mem_of_mem_filter hp
    · intro a ha
      obtain ⟨p, _, hp⟩ := List.mem_filterMap.mp ha
      obtain ⟨c, _, rfl⟩ := Option.map_eq_some_iff.mp hp
      exact hopens

end Departures

end Model

end Flowchart
