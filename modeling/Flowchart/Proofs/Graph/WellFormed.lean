import Mathlib.Data.List.Pairwise
import Flowchart.Graph.Review
import Flowchart.Proofs.Graph.Peeling

/-! Graphs that obey every rule, and what is found in them by an id. -/
namespace Flowchart

/-- Where keys are distinct, looking for a key finds just the item that has it. -/
theorem find?_key_iff {α : Type} (key : α → String) {l : List α} (hn : (l.map key).Nodup)
    {k : String} {a : α} : l.find? (key · = k) = some a ↔ a ∈ l ∧ key a = k := by
  constructor
  · intro h
    have hk := List.find?_some h
    exact ⟨List.mem_of_find?_eq_some h, by simpa using hk⟩
  · rintro ⟨ha, rfl⟩
    have hsome : (l.find? (key · = key a)).isSome := List.find?_isSome.mpr ⟨a, ha, by simp⟩
    obtain ⟨b, hb⟩ := Option.isSome_iff_exists.mp hsome
    have hk : key b = key a := by simpa using List.find?_some hb
    rw [hb, List.inj_on_of_nodup_map hn (List.mem_of_find?_eq_some hb) ha hk]

namespace Graph
open Relation

def Declares (g : Graph) (node : String) (p : Port) : Prop :=
  ∃ n ∈ g.nodes, n.id = node ∧ p ∈ n.ports

/-- A connection goes from an output of its source to an input of another
node, and the types go together. -/
def Fits (g : Graph) (c : Connection) : Prop :=
  c.sourceNode ≠ c.targetNode ∧
    ∃ p q, (g.Declares c.sourceNode p ∧ p.id = c.sourcePort ∧ p.direction = .output) ∧
      (g.Declares c.targetNode q ∧ q.id = c.targetPort ∧ q.direction = .input) ∧
        p.dataType.compatible q.dataType = true

/-- A connection whose source port is not for control leads from a node to another. -/
def ValueStep (g : Graph) (a b : String) : Prop :=
  ∃ c ∈ g.connections, c.sourceNode = a ∧ c.targetNode = b ∧
    ∃ p, g.Declares a p ∧ p.id = c.sourcePort ∧ p.dataType ≠ .flow

/-- The graph obeys every rule, apart from required inputs that are not connected yet. -/
structure WellFormed (g : Graph) : Prop where
  nodes_nodup : (g.nodes.map (·.id)).Nodup
  ports_nodup : (g.nodes.flatMap fun n => n.ports.map (·.id)).Nodup
  connections_nodup : g.connections.Nodup
  fits : ∀ c ∈ g.connections, g.Fits c
  single : ∀ n ∈ g.nodes, ∀ p ∈ n.ports, p.capacity = .single →
    ∀ c ∈ g.connections, ∀ d ∈ g.connections, c.touchesPort p.id → d.touchesPort p.id → c = d
  acyclic : ∀ n, ¬ TransGen g.ValueStep n n

variable {g : Graph}

theorem mem_portsByNode {n : Node} {p : Port} :
    (n, p) ∈ g.portsByNode ↔ n ∈ g.nodes ∧ p ∈ n.ports := by
  simp only [portsByNode, List.mem_flatMap, List.mem_map, Prod.mk.injEq]
  constructor
  · rintro ⟨m, hm, q, hq, rfl, rfl⟩
    exact ⟨hm, hq⟩
  · rintro ⟨hn, hp⟩
    exact ⟨n, hn, p, hp, rfl, rfl⟩

section Lookup

/-- The end of a connection that is found is declared, whatever rules the graph breaks. -/
theorem declares_of_endpoint {node port : String} {p : Port} (h : g.endpoint node port = .ok p) :
    g.Declares node p ∧ p.id = port := by
  unfold endpoint at h
  split at h
  · cases h
  · next n hnode =>
    split at h
    · cases h
    · next hport =>
      cases h
      have hid : n.id = node := by simpa using List.find?_some hnode
      have hid' : p.id = port := by simpa using List.find?_some hport
      have hn : n ∈ g.nodes := List.mem_of_find?_eq_some hnode
      exact ⟨⟨n, hn, hid, List.mem_of_find?_eq_some hport⟩, hid'⟩

theorem node?_eq_some_iff (hn : (g.nodes.map (·.id)).Nodup) {id : String} {n : Node} :
    g.node? id = some n ↔ n ∈ g.nodes ∧ n.id = id := find?_key_iff Node.id hn

variable (hp : (g.nodes.flatMap fun n => n.ports.map (·.id)).Nodup)
include hp

theorem declared_unique {n m : Node} {p q : Port} (hn : n ∈ g.nodes) (hm : m ∈ g.nodes)
    (hpn : p ∈ n.ports) (hqm : q ∈ m.ports) (h : p.id = q.id) : n = m ∧ p = q := by
  rw [List.nodup_flatMap] at hp
  have hnm : n = m := by
    by_contra hne
    have : Std.Symm (Function.onFun List.Disjoint fun n : Node => n.ports.map (·.id)) :=
      ⟨fun _ _ hd => List.Disjoint.symm hd⟩
    have hd := hp.2.forall hn hm hne
    exact hd (List.mem_map_of_mem hpn) (h ▸ List.mem_map_of_mem hqm)
  subst hnm
  exact ⟨rfl, List.inj_on_of_nodup_map (hp.1 n hn) hpn hqm h⟩

theorem Declares.unique {a b : String} {p q : Port} (hap : g.Declares a p) (hbq : g.Declares b q)
    (h : p.id = q.id) : a = b ∧ p = q := by
  obtain ⟨n, hn, rfl, hpn⟩ := hap
  obtain ⟨m, hm, rfl, hqm⟩ := hbq
  obtain ⟨rfl, hpq⟩ := declared_unique hp hn hm hpn hqm h
  exact ⟨rfl, hpq⟩

theorem port?_eq_some_iff {n : Node} (hn : n ∈ g.nodes) {id : String} {p : Port} :
    n.port? id = some p ↔ p ∈ n.ports ∧ p.id = id :=
  find?_key_iff Port.id ((List.nodup_flatMap.mp hp).1 n hn)

theorem find_port_of_mem {n : Node} {p : Port} (hn : n ∈ g.nodes) (hpn : p ∈ n.ports) :
    g.port? p.id = some (n, p) := by
  have hport := (port?_eq_some_iff hp hn).mpr ⟨hpn, rfl⟩
  have hsome : (g.port? p.id).isSome := by
    unfold port?
    rw [List.findSome?_isSome_iff]
    exact ⟨n, hn, by simp [hport]⟩
  obtain ⟨⟨m, q⟩, hmq⟩ := Option.isSome_iff_exists.mp hsome
  unfold port? at hmq
  obtain ⟨k, hk, hkq⟩ := List.exists_of_findSome?_eq_some hmq
  simp only [Option.map_eq_some_iff, Prod.mk.injEq] at hkq
  obtain ⟨q', hq', rfl, rfl⟩ := hkq
  have hq := (port?_eq_some_iff hp hk).mp hq'
  obtain ⟨rfl, rfl⟩ := declared_unique hp hk hn hq.1 hpn hq.2
  exact hmq

theorem endpoint_eq_ok_iff (hn : (g.nodes.map (·.id)).Nodup) {node port : String} {p : Port} :
    g.endpoint node port = .ok p ↔ g.Declares node p ∧ p.id = port := by
  refine ⟨declares_of_endpoint, ?_⟩
  rintro ⟨⟨n, hmem, rfl, hpn⟩, rfl⟩
  simp only [endpoint, (node?_eq_some_iff hn).mpr ⟨hmem, rfl⟩,
    (port?_eq_some_iff hp hmem).mpr ⟨hpn, rfl⟩]
  rfl

theorem carriesData_iff {c : Connection} {p : Port} (h : g.Declares c.sourceNode p)
    (hid : p.id = c.sourcePort) : g.carriesData c = true ↔ p.dataType ≠ .flow := by
  obtain ⟨n, hn, _, hpn⟩ := h
  unfold carriesData
  rw [← hid, find_port_of_mem hp hn hpn]
  simp [Port.isFlow]

end Lookup

namespace WellFormed

variable (h : g.WellFormed)
include h

/-- The ports of a connection are the only ones of their ids. -/
theorem dataStep_iff {a b : String} : g.DataStep a b ↔ g.ValueStep a b := by
  unfold DataStep Leads dataConnections
  constructor
  · rintro ⟨c, hc, rfl, rfl⟩
    rw [List.mem_filter] at hc
    obtain ⟨_, p, q, ⟨hd, hid, _⟩, _⟩ := h.fits c hc.1
    exact ⟨c, hc.1, rfl, rfl, p, hd, hid, (carriesData_iff h.ports_nodup hd hid).mp hc.2⟩
  · rintro ⟨c, hc, rfl, rfl, p, hd, hid, hflow⟩
    exact ⟨c, List.mem_filter.mpr ⟨hc, (carriesData_iff h.ports_nodup hd hid).mpr hflow⟩, rfl, rfl⟩

theorem dataStep_eq : g.DataStep = g.ValueStep := by
  funext a b
  exact propext h.dataStep_iff

theorem endpointDefect?_source {c : Connection} (hc : c ∈ g.connections) :
    g.endpointDefect? c.sourceNode c.sourcePort = none := by
  obtain ⟨_, p, _, ⟨hd, hid, _⟩, _⟩ := h.fits c hc
  unfold endpointDefect?
  rw [(endpoint_eq_ok_iff h.ports_nodup h.nodes_nodup).mpr ⟨hd, hid⟩]

theorem endpointDefect?_target {c : Connection} (hc : c ∈ g.connections) :
    g.endpointDefect? c.targetNode c.targetPort = none := by
  obtain ⟨_, _, q, _, ⟨hd, hid, _⟩, _⟩ := h.fits c hc
  unfold endpointDefect?
  rw [(endpoint_eq_ok_iff h.ports_nodup h.nodes_nodup).mpr ⟨hd, hid⟩]

theorem danglingEnds_eq_nil : g.danglingEnds = [] := by
  unfold danglingEnds
  rw [List.flatMap_eq_nil_iff]
  intro c hc
  simp [h.endpointDefect?_source hc, h.endpointDefect?_target hc]

theorem degree_le_one {n : Node} {p : Port} (hn : n ∈ g.nodes) (hp : p ∈ n.ports)
    (hs : p.capacity = .single) : g.degree p.id ≤ 1 := by
  unfold degree connectionsOf
  by_contra hlt
  have hnd := h.connections_nodup.filter (·.touchesPort p.id)
  have hall : ∀ c ∈ g.connections.filter (·.touchesPort p.id), ∀ d ∈ g.connections.filter
      (·.touchesPort p.id), c = d := by
    intro c hc d hd
    rw [List.mem_filter] at hc hd
    exact h.single n hn p hp hs c hc.1 d hd.1 hc.2 hd.2
  match hl : g.connections.filter (·.touchesPort p.id) with
  | [] => simp [hl] at hlt
  | [_] => simp [hl] at hlt
  | c :: d :: rest =>
    rw [hl] at hall hnd
    have hcd := hall c List.mem_cons_self d (by simp)
    rw [hcd] at hnd
    simp at hnd

theorem overfullPorts_eq_nil : g.overfullPorts = [] := by
  unfold overfullPorts
  rw [List.filter_eq_nil_iff.mpr]
  · rfl
  · rintro ⟨n, p⟩ hnp hfull
    obtain ⟨hn, hp⟩ := mem_portsByNode.mp hnp
    simp only [Bool.and_eq_true, decide_eq_true_eq] at hfull
    have := h.degree_le_one hn hp hfull.1
    omega

theorem hasDataCycle_eq_false : g.hasDataCycle = false := by
  refine Graph.hasDataCycle_eq_false ?_ ?_
  · intro e he
    obtain ⟨_, _, _, ⟨⟨n, hn, hid, _⟩, _⟩, _⟩ := h.fits e (List.mem_of_mem_filter he)
    exact mem_peelable.mpr (.inl ⟨n, hn, hid⟩)
  · rw [h.dataStep_eq]
    exact h.acyclic

end WellFormed

end Graph

end Flowchart
