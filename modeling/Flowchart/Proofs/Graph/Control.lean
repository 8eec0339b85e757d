import Flowchart.Library
import Flowchart.Proofs.Graph.WellFormed

/-! The paths that control takes through a graph, and how often it enters a node. -/
namespace Flowchart

section Lists

variable {α : Type} {l : List α}

theorem head?_toList (h : l.length ≤ 1) : l.head?.toList = l := by
  match l with
  | [] => rfl
  | [_] => rfl
  | _ :: _ :: _ => simp at h

theorem getLast?_toList (h : l.length ≤ 1) : l.getLast?.toList = l := by
  match l with
  | [] => rfl
  | [_] => rfl
  | _ :: _ :: _ => simp at h

end Lists

def Node.onward (n : Node) : List Port := n.flowOutputs.filter (·.name = Library.nextName)

def Node.aside (n : Node) : List Port := n.flowOutputs.filter (·.name ≠ Library.nextName)

namespace Graph

/-- Whether control passes along a connection: its source port is known and is one for control. -/
def carriesControl (g : Graph) (c : Connection) : Bool :=
  match g.port? c.sourcePort with
  | some (_, p) => p.isFlow
  | none => false

def goesOn (g : Graph) (c : Connection) : Bool :=
  match g.port? c.sourcePort with
  | some (_, p) => p.name = Library.nextName
  | none => false

/-- The node and the port that control leaves along a connection, unless it goes on. -/
def guardsOf (g : Graph) (c : Connection) : List (String × String) :=
  if g.goesOn c then [] else [(c.sourceNode, c.sourcePort)]

/-- The connections that control passes along on a way from a node. -/
inductive ControlPath (g : Graph) (start : String) : List Connection → String → Prop
  | nil : ControlPath g start [] start
  | snoc {path : List Connection} {c : Connection} (before : ControlPath g start path c.sourceNode)
      (mem : c ∈ g.connections) (carries : g.carriesControl c = true) :
      ControlPath g start (path ++ [c]) c.targetNode

/-- The guards that control meets on its way, outermost first. -/
def guardsAlong (g : Graph) (path : List Connection) : List (String × String) :=
  path.flatMap g.guardsOf

def Reached (g : Graph) (start id : String) : Prop := ∃ path, g.ControlPath start path id

/-- Control that starts at a node enters another along the connection. -/
structure Enters (g : Graph) (start id : String) (c : Connection) : Prop where
  mem : c ∈ g.connections
  carries : g.carriesControl c = true
  source : g.Reached start c.sourceNode
  target : c.targetNode = id

/-- Control never comes back to its start, and enters another node along one connection. -/
def EnteredOnce (g : Graph) (start id : String) : Prop :=
  if id = start then ∀ c, ¬ g.Enters start id c else ∃! c, g.Enters start id c

def targets (g : Graph) (p : Port) : List String :=
  (g.connections.filter (·.sourcePort = p.id)).map (·.targetNode)

variable {g : Graph} {start : String}

namespace ControlPath

theorem enters {path : List Connection} {c : Connection} (h : g.ControlPath start path c.sourceNode)
    (hc : c ∈ g.connections) (hcarries : g.carriesControl c = true) :
    g.Enters start c.targetNode c := ⟨hc, hcarries, ⟨path, h⟩, rfl⟩

/-- The last connection of a path, which enters the node where the path ends. -/
theorem eq_nil_or_snoc {path : List Connection} {id : String} (h : g.ControlPath start path id) :
    (path = [] ∧ id = start) ∨ ∃ before c, path = before ++ [c] ∧ g.Enters start id c ∧
      g.ControlPath start before c.sourceNode := by
  cases h with
  | nil => exact .inl ⟨rfl, rfl⟩
  | snoc hbefore hc hcarries => exact .inr ⟨_, _, rfl, hbefore.enters hc hcarries, hbefore⟩

/-- Where control enters every node as it should, there is one path to each. -/
theorem unique (h : ∀ id, g.Reached start id → g.EnteredOnce start id) {path path' : List Connection}
    {id : String} (hpath : g.ControlPath start path id) (hpath' : g.ControlPath start path' id) :
    path = path' := by
  induction hpath generalizing path' with
  | nil =>
    have hstart := h start ⟨[], .nil⟩
    rw [EnteredOnce, if_pos rfl] at hstart
    rcases hpath'.eq_nil_or_snoc with ⟨rfl, _⟩ | ⟨_, c, _, hc, _⟩
    · rfl
    · exact absurd hc (hstart c)
  | @snoc path c hbefore hc hcarries ih =>
    have henters := hbefore.enters hc hcarries
    have honce := h c.targetNode ⟨_, .snoc hbefore hc hcarries⟩
    unfold EnteredOnce at honce
    split at honce
    · exact absurd henters (honce c)
    · next hne =>
      rcases hpath'.eq_nil_or_snoc with ⟨_, heq⟩ | ⟨before', c', rfl, hc', hbefore'⟩
      · exact absurd heq hne
      · have hcc : c = c' := honce.unique henters hc'
        subst hcc
        rw [ih hbefore']

end ControlPath

theorem guardsAlong_snoc (path : List Connection) (c : Connection) :
    g.guardsAlong (path ++ [c]) = g.guardsAlong path ++ g.guardsOf c := by
  simp [guardsAlong]

namespace WellFormed

variable (h : g.WellFormed)
include h

/-- Every connection that leaves a node's port has that node as its source. -/
theorem sourceNode_eq {n : Node} {p : Port} (hn : n ∈ g.nodes) (hp : p ∈ n.ports) {c : Connection}
    (hc : c ∈ g.connections) (hid : c.sourcePort = p.id) : c.sourceNode = n.id := by
  obtain ⟨_, q, _, ⟨hd, hq, _⟩, _⟩ := h.fits c hc
  exact (Declares.unique h.ports_nodup hd ⟨n, hn, rfl, hp⟩ (hq.trans hid)).1

/-- Control passes along just the connections that leave a flow output of their source. -/
theorem carriesControl_iff {c : Connection} (hc : c ∈ g.connections) {n : Node} (hn : n ∈ g.nodes)
    (hid : c.sourceNode = n.id) :
    g.carriesControl c = true ↔ ∃ p ∈ n.flowOutputs, c.sourcePort = p.id := by
  obtain ⟨_, p, _, ⟨⟨m, hm, hmid, hpm⟩, hpid, hout⟩, _⟩ := h.fits c hc
  obtain rfl : m = n := List.inj_on_of_nodup_map h.nodes_nodup hm hn (hmid.trans hid)
  have hport := find_port_of_mem h.ports_nodup hm hpm
  unfold carriesControl
  rw [← hpid, hport]
  constructor
  · intro hflow
    exact ⟨p, List.mem_filter.mpr ⟨hpm, by simpa [hout] using hflow⟩, rfl⟩
  · rintro ⟨q, hq, hqid⟩
    obtain ⟨hqm, hqflow⟩ := List.mem_filter.mp hq
    obtain ⟨_, rfl⟩ := declared_unique h.ports_nodup hm hm hpm hqm hqid
    simp only [Bool.and_eq_true] at hqflow
    exact hqflow.1

theorem goesOn_eq {n : Node} {p : Port} (hn : n ∈ g.nodes) (hp : p ∈ n.ports) {c : Connection}
    (hid : c.sourcePort = p.id) : g.goesOn c = decide (p.name = Library.nextName) := by
  rw [goesOn, hid, find_port_of_mem h.ports_nodup hn hp]

theorem isSome_target {c : Connection} (hc : c ∈ g.connections) :
    (g.node? c.targetNode).isSome := by
  obtain ⟨_, _, q, _, ⟨⟨n, hn, hid, _⟩, _⟩, _⟩ := h.fits c hc
  rw [(node?_eq_some_iff h.nodes_nodup).mpr ⟨hn, hid⟩]
  rfl

theorem isSome_of_reached {id : String} (hstart : (g.node? start).isSome) (hid : g.Reached start id) :
    (g.node? id).isSome := by
  obtain ⟨path, hpath⟩ := hid
  cases hpath with
  | nil => exact hstart
  | snoc _ hc _ => exact h.isSome_target hc

/-- One connection at most leaves a port that is limited to one, and it is found. -/
theorem leaving?_toList {n : Node} {p : Port} (hn : n ∈ g.nodes) (hp : p ∈ n.ports)
    (hs : p.capacity = .single) :
    (g.leaving? p.id).toList = g.connections.filter (·.sourcePort = p.id) := by
  have hle := h.degree_le_one hn hp hs
  have hleaving : g.connections.filter (·.sourcePort = p.id) =
      (g.connectionsOf p.id).filter (·.sourcePort = p.id) := by
    rw [connectionsOf, List.filter_filter]
    refine List.filter_congr fun c _ => ?_
    by_cases hc : c.sourcePort = p.id <;> simp [Connection.touchesPort, hc]
  rw [hleaving, leaving?, ← List.head?_filter]
  exact head?_toList ((List.length_filter_le _ _).trans hle)

end WellFormed

end Graph

end Flowchart
