import Flowchart.Proofs.Graph.Editing
import Flowchart.Proofs.Model.Library

/-! The ids that the library gives its ports. An id is cut at its last point into a node and a name,
so nodes of different ids share no port, whatever is written in their ids. -/
namespace Flowchart

def Library.Offers (n : Node) : Prop := ∃ b, Library.Declares b n

namespace Library

theorem portId_toList (node name : String) :
    (portId node name).toList = node.toList ++ '.' :: name.toList := by
  simp [portId]

theorem append_point_inj {xs ys xs' ys' : List Char} (hys : '.' ∉ ys) (hys' : '.' ∉ ys')
    (h : xs ++ '.' :: ys = xs' ++ '.' :: ys') : xs = xs' ∧ ys = ys' := by
  rcases List.append_eq_append_iff.mp h with ⟨zs, hxs, hzs⟩ | ⟨zs, hxs, hzs⟩
  · cases zs with
    | nil => simpa [eq_comm] using And.intro hxs hzs
    | cons z zs =>
      have hmem : '.' ∈ ys := by simp [(List.cons.inj hzs).2]
      exact absurd hmem hys
  · cases zs with
    | nil => simpa [eq_comm] using And.intro hxs hzs
    | cons z zs =>
      have hmem : '.' ∈ ys' := by simp [(List.cons.inj hzs).2]
      exact absurd hmem hys'

/-- The id of a port tells its node and its name, if there is no point in the name. -/
theorem portId_inj {node node' name name' : String} (hname : '.' ∉ name.toList)
    (hname' : '.' ∉ name'.toList) (h : portId node name = portId node' name') :
    node = node' ∧ name = name' := by
  have hlist := congrArg String.toList h
  rw [portId_toList, portId_toList] at hlist
  obtain ⟨hnode, hname⟩ := append_point_inj hname hname' hlist
  exact ⟨String.toList_inj.mp hnode, String.toList_inj.mp hname⟩

variable {n m : Node}

/-- The library names the ports of a node apart, and without a point. -/
theorem Declares.portIds_eq {b : Behaviour} (h : Declares b n) : ∃ names : List String,
    names.Nodup ∧ (∀ name ∈ names, '.' ∉ name.toList) ∧
      n.ports.map (·.id) = names.map (portId n.id) := by
  cases h with
  | constant id t value => exact ⟨["value"], by decide, by decide, rfl⟩
  | add id => exact ⟨["a", "b", "sum"], by decide, by decide, rfl⟩
  | getVariable id name => exact ⟨["value"], by decide, by decide, rfl⟩
  | setVariable id name => exact ⟨["exec", "value", "next"], by decide, by decide, rfl⟩
  | print id => exact ⟨["exec", "value", "next"], by decide, by decide, rfl⟩
  | delay id ms => exact ⟨["exec", "next"], by decide, by decide, rfl⟩
  | fail id message => exact ⟨["exec", "next"], by decide, by decide, rfl⟩
  | branch id =>
    exact ⟨["exec", "condition", "true", "false", "next"], by decide, by decide, rfl⟩

theorem Offers.nodup_portIds (h : Offers n) : (n.ports.map (·.id)).Nodup := by
  obtain ⟨b, hb⟩ := h
  obtain ⟨names, hnodup, hpoint, heq⟩ := hb.portIds_eq
  rw [heq]
  refine hnodup.map_on fun name hname name' hname' h => ?_
  exact (portId_inj (hpoint name hname) (hpoint name' hname') h).2

theorem Offers.exists_name (h : Offers n) {p : Port} (hp : p ∈ n.ports) :
    ∃ name : String, '.' ∉ name.toList ∧ p.id = portId n.id name := by
  obtain ⟨b, hb⟩ := h
  obtain ⟨names, _, hpoint, heq⟩ := hb.portIds_eq
  have hmem : p.id ∈ names.map (portId n.id) := heq ▸ List.mem_map_of_mem hp
  obtain ⟨name, hname, hid⟩ := List.mem_map.mp hmem
  exact ⟨name, hpoint name hname, hid.symm⟩

/-- Two nodes of the library that share the id of a port have one id. -/
theorem Offers.id_eq (hn : Offers n) (hm : Offers m) {p q : Port} (hp : p ∈ n.ports)
    (hq : q ∈ m.ports) (h : q.id = p.id) : m.id = n.id := by
  obtain ⟨name, hname, hpid⟩ := hn.exists_name hp
  obtain ⟨name', hname', hqid⟩ := hm.exists_name hq
  rw [hpid, hqid] at h
  exact (portId_inj hname' hname h).1

end Library

namespace Graph

/-- All nodes of a graph are the library's. Their ids may be repeated, and
the connections may be any. -/
def Stocked (g : Graph) : Prop := ∀ n ∈ g.nodes, Library.Offers n

structure TakesFromLibrary (g : Graph) : Prop where
  /-- A node is refused just when its id is taken, and that is the reason given. -/
  refuses_iff : ∀ n, Library.Offers n → ∀ d,
    g.addNode n = .error d ↔ d = .duplicateNode n.id ∧ ∃ m ∈ g.nodes, m.id = n.id
  accepts_iff : ∀ n, Library.Offers n → ∀ g',
    g.addNode n = .ok g' ↔ g' = { g with nodes := g.nodes ++ [n] } ∧ ∀ m ∈ g.nodes, m.id ≠ n.id
  blames_no_port : ∀ n, Library.Offers n → ∀ port, g.addNode n ≠ .error (.duplicatePort port)
  /-- Nodes of distinct new ids are taken in whatever order they come. -/
  takes_any_order : ∀ nodes : List Node, (∀ n ∈ nodes, Library.Offers n) →
    (nodes.map (·.id)).Nodup → (∀ n ∈ nodes, ∀ m ∈ g.nodes, m.id ≠ n.id) →
      ∀ nodes', nodes.Perm nodes' →
        nodes'.foldlM addNode g = .ok { g with nodes := g.nodes ++ nodes' }

variable {g : Graph} {n : Node}

theorem Stocked.withNode (h : g.Stocked) (hn : Library.Offers n) :
    ({ g with nodes := g.nodes ++ [n] } : Graph).Stocked := by
  intro m hm
  rcases List.mem_append.mp hm with hm | hm
  · exact h m hm
  · cases List.mem_singleton.mp hm
    exact hn

theorem Stocked.addNode_eq_ok (h : g.Stocked) (hn : Library.Offers n)
    (hid : ∀ m ∈ g.nodes, m.id ≠ n.id) :
    g.addNode n = .ok { g with nodes := g.nodes ++ [n] } := by
  refine addNode_eq_ok_iff.mpr ⟨⟨hid, hn.nodup_portIds, ?_⟩, rfl⟩
  intro p hp m hm q hq heq
  exact hid m hm (hn.id_eq (h m hm) hp hq heq)

theorem addNode_eq_duplicate (hid : ∃ m ∈ g.nodes, m.id = n.id) :
    g.addNode n = .error (.duplicateNode n.id) := by
  have hnode : (g.node? n.id).isSome := by simpa [node?] using hid
  simp only [addNode, hnode, if_true]
  rfl

/-- Nodes are taken one after the other, each of an id that no node before it has. -/
theorem Stocked.foldlM_addNode_eq (h : g.Stocked) {nodes : List Node}
    (hoff : ∀ n ∈ nodes, Library.Offers n) (hnodup : (nodes.map (·.id)).Nodup)
    (hid : ∀ n ∈ nodes, ∀ m ∈ g.nodes, m.id ≠ n.id) :
    nodes.foldlM addNode g = .ok { g with nodes := g.nodes ++ nodes } := by
  induction nodes generalizing g with
  | nil => simp [pure, Except.pure]
  | cons n nodes ih =>
    have hn := hoff n List.mem_cons_self
    have hfirst := h.addNode_eq_ok hn (hid n List.mem_cons_self)
    obtain ⟨hnew, hrest⟩ := List.nodup_cons.mp hnodup
    have hbeyond : ∀ m ∈ nodes, ∀ m' ∈ g.nodes ++ [n], m'.id ≠ m.id := by
      intro m hm m' hm' heq
      rcases List.mem_append.mp hm' with hm' | hm'
      · exact hid m (List.mem_cons_of_mem _ hm) m' hm' heq
      · cases List.mem_singleton.mp hm'
        exact hnew (List.mem_map.mpr ⟨m, hm, heq.symm⟩)
    have hlater := ih (h.withNode hn) (fun m hm => hoff m (List.mem_cons_of_mem _ hm)) hrest hbeyond
    rw [List.foldlM_cons, bind_eq_ok_iff]
    exact ⟨_, hfirst, by simpa using hlater⟩

/-- A graph of library nodes takes every library node of a new id, and refuses no other. -/
theorem takes_from_library (h : g.Stocked) : g.TakesFromLibrary := by
  have hcases : ∀ n : Node, (∃ m ∈ g.nodes, m.id = n.id) ∨ ∀ m ∈ g.nodes, m.id ≠ n.id := by
    intro n
    by_cases hid : ∃ m ∈ g.nodes, m.id = n.id
    · exact .inl hid
    · exact .inr (by simpa using hid)
  constructor
  case refuses_iff =>
    intro n hn d
    rcases hcases n with hid | hid
    · rw [addNode_eq_duplicate hid, Except.error.injEq, eq_comm, iff_self_and]
      exact fun _ => hid
    · simpa [h.addNode_eq_ok hn hid] using fun _ => hid
  case accepts_iff =>
    intro n hn g'
    rcases hcases n with hid | hid
    · simpa [addNode_eq_duplicate hid] using fun _ => hid
    · rw [h.addNode_eq_ok hn hid, Except.ok.injEq, eq_comm, iff_self_and]
      exact fun _ => hid
  case blames_no_port =>
    intro n hn port
    rcases hcases n with hid | hid
    · simp [addNode_eq_duplicate hid]
    · simp [h.addNode_eq_ok hn hid]
  case takes_any_order =>
    intro nodes hoff hnodup hid nodes' hperm
    have hnodup' : (nodes'.map (·.id)).Nodup := (hperm.map _).nodup_iff.mp hnodup
    exact h.foldlM_addNode_eq (fun n hn => hoff n (hperm.mem_iff.mpr hn)) hnodup'
      fun n hn => hid n (hperm.mem_iff.mpr hn)

/-- Library nodes whose ids look like ports of each other, one id twice, and a connection between
nodes that are not there. -/
def dotted : Graph :=
  { nodes := [Library.constant "", Library.add "a", Library.getVariable "a.value", Library.add "a"]
    connections := [⟨"x", "x.next", "y", "y.exec"⟩] }

theorem stocked_dotted : dotted.Stocked := by
  simp only [Stocked, dotted, List.forall_mem_cons]
  exact ⟨⟨_, .constant "" .any .null⟩, ⟨_, .add "a"⟩, ⟨_, .getVariable "a.value" ""⟩, ⟨_, .add "a"⟩,
    by simp⟩

/-- The ids of ports do not hinder the ids of nodes: a branch is taken under the id of a port. -/
theorem dotted_takes_from_library :
    dotted.Stocked ∧ dotted.TakesFromLibrary ∧
      dotted.addNode (Library.print "a") = .error (.duplicateNode "a") ∧
      dotted.addNode (Library.branch ".value") =
        .ok { dotted with nodes := dotted.nodes ++ [Library.branch ".value"] } := by
  have htakes := takes_from_library stocked_dotted
  refine ⟨stocked_dotted, htakes, ?_, ?_⟩
  · exact (htakes.refuses_iff _ ⟨_, .print "a"⟩ _).mpr ⟨rfl, by decide⟩
  · exact (htakes.accepts_iff _ ⟨_, .branch ".value"⟩ _).mpr ⟨rfl, by decide⟩

end Graph

end Flowchart
