import Mathlib.Data.List.Duplicate
import Flowchart.Graph.Draft
import Flowchart.Proofs.Graph.History

/-! Replaying a graph: its nodes and connections are accepted once more just when it obeys every
rule. A graph without defects can break those rules only that a review does not look at. -/
namespace Flowchart.Graph
open Relation

/-- The graph built from scratch: its nodes one after the other, then its connections. -/
def replay (g : Graph) : Except Defect Graph := Draft.build { g with }

/-- No two nodes have one id, and no two ports of the graph. -/
def DistinctIds (g : Graph) : Prop :=
  (g.nodes.map (·.id)).Nodup ∧ (g.nodes.flatMap fun n => n.ports.map (·.id)).Nodup

/-- What a defect says is true of the graph, and it is about a rule that a review passes over. -/
inductive PassesOver (g : Graph) : Defect → Prop
  | duplicateNode {id : String} : List.Duplicate id (g.nodes.map (·.id)) →
      PassesOver g (.duplicateNode id)
  | duplicatePort {id : String} : List.Duplicate id (g.nodes.flatMap fun n => n.ports.map (·.id)) →
      PassesOver g (.duplicatePort id)
  | duplicateConnection {c : Connection} : List.Duplicate c g.connections →
      PassesOver g (.duplicateConnection c)
  | selfConnection {c : Connection} : c ∈ g.connections → c.sourceNode = c.targetNode →
      PassesOver g (.selfConnection c.sourceNode)
  | sourceDirection {c : Connection} {p : Port} : c ∈ g.connections →
      g.endpoint c.sourceNode c.sourcePort = .ok p → p.direction ≠ .output →
        PassesOver g (.directionMismatch p.id)
  | targetDirection {c : Connection} {q : Port} : c ∈ g.connections →
      g.endpoint c.targetNode c.targetPort = .ok q → q.direction ≠ .input →
        PassesOver g (.directionMismatch q.id)
  | incompatiblePorts {c : Connection} {p q : Port} : c ∈ g.connections →
      g.endpoint c.sourceNode c.sourcePort = .ok p → g.endpoint c.targetNode c.targetPort = .ok q →
        p.dataType.compatible q.dataType = false →
          PassesOver g (.incompatiblePorts p.id q.id p.dataType.title q.dataType.title)

variable {g : Graph}

section Build

theorem distinctIds_withNode_iff (h : g.DistinctIds) {n : Node} :
    ({ g with nodes := g.nodes ++ [n] } : Graph).DistinctIds ↔
      (∀ m ∈ g.nodes, m.id ≠ n.id) ∧ (n.ports.map (·.id)).Nodup ∧
        ∀ p ∈ n.ports, ∀ m ∈ g.nodes, ∀ q ∈ m.ports, q.id ≠ p.id := by
  unfold DistinctIds at h ⊢
  simp only [List.map_append, List.map_cons, List.map_nil, List.flatMap_append, List.flatMap_cons,
    List.flatMap_nil, List.append_nil, List.nodup_append, h.1, h.2, true_and, List.mem_map,
    List.mem_singleton, List.mem_flatMap]
  constructor
  · rintro ⟨⟨_, hid⟩, hnd, hports⟩
    refine ⟨fun m hm => hid _ ⟨m, hm, rfl⟩ _ rfl, hnd, fun p hp m hm q hq => ?_⟩
    exact hports _ ⟨m, hm, q, hq, rfl⟩ _ ⟨p, hp, rfl⟩
  · rintro ⟨hid, hnd, hports⟩
    refine ⟨⟨by simp, ?_⟩, hnd, ?_⟩
    · rintro _ ⟨m, hm, rfl⟩ _ rfl
      exact hid m hm
    · rintro _ ⟨m, hm, q, hq, rfl⟩ _ ⟨p, hp, rfl⟩
      exact hports p hp m hm q hq

/-- Nodes are accepted one after the other just when the ids stay distinct. -/
theorem foldlM_addNode_eq_ok_iff {nodes : List Node} {g' : Graph} (h : g.DistinctIds) :
    nodes.foldlM Graph.addNode g = .ok g' ↔
      g' = { g with nodes := g.nodes ++ nodes } ∧
        ({ g with nodes := g.nodes ++ nodes } : Graph).DistinctIds := by
  refine foldlM_eq_ok_iff (fun g nodes => { g with nodes := g.nodes ++ nodes }) DistinctIds
    ?hnil ?hcons ?hpart ?hstep h
  case hnil => simp
  case hcons => simp
  case hpart =>
    rintro g nodes ⟨hnodes, hports⟩
    have hsub : g.nodes.Sublist (g.nodes ++ nodes) := List.sublist_append_left _ _
    exact ⟨hnodes.sublist (hsub.map _), hports.sublist (hsub.flatMap fun n => n.ports.map (·.id))⟩
  case hstep =>
    intro g n g' hg
    rw [addNode_eq_ok_iff, and_comm]
    exact and_congr_right fun _ => (distinctIds_withNode_iff hg).symm

/-- Connections are accepted one after the other just when the graph stays well-formed. -/
theorem foldlM_connect_eq_ok_iff {cs : List Connection} {g' : Graph} (h : g.WellFormed) :
    cs.foldlM Graph.connect g = .ok g' ↔
      g' = { g with connections := g.connections ++ cs } ∧
        ({ g with connections := g.connections ++ cs } : Graph).WellFormed := by
  refine foldlM_eq_ok_iff (fun g cs => { g with connections := g.connections ++ cs }) WellFormed
    ?hnil ?hcons ?hpart ?hstep h
  case hnil => simp
  case hcons => simp
  case hpart =>
    intro g cs hg
    exact hg.of_sublist (List.Sublist.refl _) (List.sublist_append_left _ _) fun c hc =>
      hg.fits c (List.mem_append_left _ hc)
  case hstep =>
    intro g c g' hg
    exact hg.connect_eq_ok_iff

theorem WellFormed.of_distinctIds (h : g.DistinctIds) :
    ({ g with connections := [] } : Graph).WellFormed where
  nodes_nodup := h.1
  ports_nodup := h.2
  connections_nodup := .nil
  fits := by simp
  single := by simp
  acyclic n hc := by
    obtain ⟨_, ⟨c, hmem, _⟩, _⟩ := TransGen.head'_iff.mp hc
    cases hmem

theorem addNodes_eq_ok_iff {g' : Graph} :
    g.nodes.foldlM Graph.addNode { id := g.id, name := g.name } = .ok g' ↔
      g' = { g with connections := [] } ∧ g.DistinctIds :=
  foldlM_addNode_eq_ok_iff ⟨.nil, .nil⟩

/-- A replay succeeds just on graphs that obey every rule, and builds the graph it was given. -/
theorem replay_eq_ok_iff {g' : Graph} : g.replay = .ok g' ↔ g' = g ∧ g.WellFormed := by
  unfold replay Draft.build
  simp only [bind_eq_ok_iff, addNodes_eq_ok_iff]
  constructor
  · rintro ⟨_, ⟨rfl, hids⟩, h⟩
    exact (foldlM_connect_eq_ok_iff (.of_distinctIds hids)).mp h
  · rintro ⟨rfl, hw⟩
    have hids : g'.DistinctIds := ⟨hw.nodes_nodup, hw.ports_nodup⟩
    exact ⟨_, ⟨rfl, hids⟩, (foldlM_connect_eq_ok_iff (.of_distinctIds hids)).mpr ⟨rfl, hw⟩⟩

end Build

section Review

theorem endpointDefect?_eq_none_iff {node port : String} :
    g.endpointDefect? node port = none ↔ ∃ p, g.endpoint node port = .ok p := by
  unfold endpointDefect?
  cases g.endpoint node port with
  | error d => simp
  | ok p => simp

/-- In a graph without defects every connection has both its ends. -/
theorem endpoints_of_review (h : g.defects = []) {c : Connection} (hc : c ∈ g.connections) :
    (∃ p, g.endpoint c.sourceNode c.sourcePort = .ok p) ∧
      ∃ q, g.endpoint c.targetNode c.targetPort = .ok q := by
  simp only [defects, List.append_eq_nil_iff, danglingEnds, List.flatMap_eq_nil_iff,
    Option.toList_eq_nil_iff, endpointDefect?_eq_none_iff] at h
  exact h.1.1.1 c hc

theorem acyclic_of_review (h : g.defects = []) (n : String) : ¬ TransGen g.DataStep n n := by
  simp only [defects, List.append_eq_nil_iff, ite_eq_right_iff, List.cons_ne_nil, imp_false,
    Bool.not_eq_true] at h
  exact acyclic_of_hasDataCycle_eq_false h.2 n

/-- In a graph without defects no port for one connection carries two. -/
theorem degree_of_review (h : g.defects = []) {n : Node} {p : Port} (hn : n ∈ g.nodes)
    (hp : p ∈ n.ports) (hs : p.capacity = .single) : g.degree p.id ≤ 1 := by
  simp only [defects, List.append_eq_nil_iff] at h
  have hfull := h.1.1.2
  unfold overfullPorts at hfull
  by_contra hlt
  -- The port is among those with too many connections, of which there are none.
  refine List.eq_nil_iff_forall_not_mem.mp (List.map_eq_nil_iff.mp hfull) p.id ?_
  rw [List.mem_eraseDups]
  refine List.mem_map.mpr ⟨(n, p), List.mem_filter.mpr ⟨mem_portsByNode.mpr ⟨hn, hp⟩, ?_⟩, rfl⟩
  simp only [hs, decide_true, Bool.true_and, decide_eq_true_eq]
  omega

theorem single_of_review (h : g.defects = []) {n : Node} {p : Port} (hn : n ∈ g.nodes)
    (hp : p ∈ n.ports) (hs : p.capacity = .single) {c d : Connection} (hc : c ∈ g.connections)
    (hd : d ∈ g.connections) (hct : c.touchesPort p.id) (hdt : d.touchesPort p.id) : c = d := by
  have hle := degree_of_review h hn hp hs
  unfold degree connectionsOf at hle
  have hc' : c ∈ g.connections.filter (·.touchesPort p.id) := List.mem_filter.mpr ⟨hc, hct⟩
  have hd' : d ∈ g.connections.filter (·.touchesPort p.id) := List.mem_filter.mpr ⟨hd, hdt⟩
  match hl : g.connections.filter (·.touchesPort p.id) with
  | [] => simp [hl] at hc'
  | [_] => simp_all
  | _ :: _ :: _ => simp [hl] at hle

/-- What is left to ask of a graph without defects for it to obey every rule. -/
theorem wellFormed_iff_of_review (h : g.defects = []) :
    g.WellFormed ↔ g.DistinctIds ∧ g.connections.Nodup ∧ ∀ c ∈ g.connections, g.Fits c := by
  constructor
  · intro hw
    exact ⟨⟨hw.nodes_nodup, hw.ports_nodup⟩, hw.connections_nodup, hw.fits⟩
  · rintro ⟨hids, hnodup, hfits⟩
    constructor
    case nodes_nodup => exact hids.1
    case ports_nodup => exact hids.2
    case connections_nodup => exact hnodup
    case fits => exact hfits
    case single =>
      intro n hn p hp hs c hc d hd hct hdt
      exact single_of_review h hn hp hs hc hd hct hdt
    case acyclic =>
      refine acyclic_of_le ?_ (acyclic_of_review h)
      rintro a b ⟨c, hc, rfl, rfl, p, hd, hid, hflow⟩
      exact ⟨c, List.mem_filter.mpr ⟨hc, (carriesData_iff hids.2 hd hid).mpr hflow⟩, rfl, rfl⟩

end Review

section Refusal

theorem duplicate_append_of_mem {α : Type} {a : α} {l m : List α} (hl : a ∈ l) (hm : a ∈ m) :
    List.Duplicate a (l ++ m) := by
  rw [List.duplicate_iff_sublist]
  exact (List.singleton_sublist.mpr hl).append (List.singleton_sublist.mpr hm)

theorem repeatedPort?_eq_some {before ports : List Port} {p : Port}
    (h : g.repeatedPort? before ports = some p) :
    ∃ l r, ports = l ++ p :: r ∧
      ((∃ q ∈ before ++ l, q.id = p.id) ∨ ∃ n ∈ g.nodes, ∃ q ∈ n.ports, q.id = p.id) := by
  induction ports generalizing before with
  | nil => cases h
  | cons q ports ih =>
    rw [repeatedPort?] at h
    split at h
    · next hrep =>
      cases h
      refine ⟨[], ports, rfl, ?_⟩
      simp only [Bool.or_eq_true, List.any_eq_true, decide_eq_true_eq] at hrep
      rcases hrep with ⟨r, hr, hid⟩ | hsome
      · exact .inl ⟨r, by simpa using hr, hid⟩
      · by_contra hno
        push Not at hno
        rw [port?_eq_none_iff.mpr hno.2] at hsome
        cases hsome
    · obtain ⟨l, r, rfl, hsame⟩ := ih h
      exact ⟨q :: l, r, rfl, by simpa using hsame⟩

/-- A node of the graph that is refused after the nodes before it repeats an id. -/
theorem passesOver_of_addNode {before after : List Node} {n : Node} {d : Defect}
    (hn : g.nodes = before ++ n :: after)
    (h : ({ g with nodes := before, connections := [] } : Graph).addNode n = .error d) :
    g.PassesOver d := by
  unfold addNode at h
  split at h
  · next hsome =>
    cases h
    simp only [node?, List.find?_isSome, decide_eq_true_eq] at hsome
    obtain ⟨m, hm, hid⟩ := hsome
    apply PassesOver.duplicateNode
    rw [hn, List.map_append]
    exact duplicate_append_of_mem (hid ▸ List.mem_map_of_mem hm) (by simp)
  · split at h
    · next p hrep =>
      cases h
      obtain ⟨l, r, hports, hsame⟩ := repeatedPort?_eq_some hrep
      apply PassesOver.duplicatePort
      rw [hn, List.flatMap_append, List.flatMap_cons, hports]
      rcases hsame with ⟨q, hq, hid⟩ | ⟨m, hm, q, hq, hid⟩
      · -- The id comes twice in the node itself.
        have hown : List.Duplicate p.id ((l ++ p :: r).map (·.id)) := by
          rw [List.map_append]
          exact duplicate_append_of_mem (hid ▸ List.mem_map_of_mem (by simpa using hq)) (by simp)
        refine hown.mono_sublist (.trans ?_ (List.sublist_append_right _ _))
        exact List.sublist_append_left _ _
      · refine duplicate_append_of_mem ?_ (by simp)
        exact List.mem_flatMap.mpr ⟨m, hm, hid ▸ List.mem_map_of_mem hq⟩
    · cases h

/-- A port that was touched before a connection of the graph touches it carries two. -/
theorem not_isFull_of_review (h : g.defects = []) {before after : List Connection} {c : Connection}
    (hc : g.connections = before ++ c :: after) {node : String} {p : Port}
    (hp : g.Declares node p) (ht : c.touchesPort p.id) :
    ({ g with connections := before } : Graph).isFull p = false := by
  obtain ⟨n, hn, _, hpn⟩ := hp
  rw [isFull_eq_false_iff]
  intro hs d hd hdt
  have hle := degree_of_review h hn hpn hs
  unfold degree connectionsOf at hle
  have hpos : 0 < (before.filter (·.touchesPort p.id)).length :=
    List.length_pos_of_mem (List.mem_filter.mpr ⟨hd, hdt⟩)
  rw [hc, List.filter_append, List.length_append, List.filter_cons_of_pos (by simpa using ht),
    List.length_cons] at hle
  omega

/-- A connection of a graph without defects closes no circle with those before it. -/
theorem not_closes_of_review (h : g.defects = []) {before after : List Connection} {c : Connection}
    (hc : g.connections = before ++ c :: after) (hdata : g.carriesData c = true) :
    ({ g with connections := before } : Graph).dataPath c.targetNode c.sourceNode = false := by
  by_contra hpath
  rw [Bool.not_eq_false, dataPath_iff] at hpath
  have hsub : before ⊆ g.connections := hc ▸ List.subset_append_left _ _
  have hle : ({ g with connections := before } : Graph).DataStep ≤ g.DataStep := by
    rintro a b ⟨e, he, hends⟩
    exact ⟨e, List.mem_filter.mpr ⟨hsub (List.mem_of_mem_filter he), (List.mem_filter.mp he).2⟩,
      hends⟩
  have hstep : g.DataStep c.sourceNode c.targetNode :=
    ⟨c, List.mem_filter.mpr ⟨by simp [hc], hdata⟩, rfl, rfl⟩
  exact acyclic_of_review h _ (.head' hstep (ReflTransGen.mono hle _ _ hpath))

/-- A connection of the graph that is refused breaks a rule that a review
passes over, or more is wrong. -/
theorem passesOver_of_vet (h : g.defects = []) (hids : g.DistinctIds)
    {before after : List Connection} {c : Connection} {d : Defect}
    (hc : g.connections = before ++ c :: after)
    (hv : ({ g with connections := before } : Graph).vet c = .error d) : g.PassesOver d := by
  have hmem : c ∈ g.connections := by simp [hc]
  obtain ⟨⟨p, hp⟩, q, hq⟩ := endpoints_of_review h hmem
  obtain ⟨hdp, hidp⟩ := (endpoint_eq_ok_iff hids.2 hids.1).mp hp
  obtain ⟨hdq, hidq⟩ := (endpoint_eq_ok_iff hids.2 hids.1).mp hq
  have hp' : ({ g with connections := before } : Graph).endpoint c.sourceNode c.sourcePort = .ok p := hp
  have hq' : ({ g with connections := before } : Graph).endpoint c.targetNode c.targetPort = .ok q := hq
  unfold vet at hv
  simp only [hp', hq', bind_eq_error_iff, refuseIf_eq_error_iff, refuseIf_eq_ok_iff, exists_const,
    decide_eq_false_iff_not, decide_eq_true_eq, ne_eq, not_not, Bool.not_eq_false',
    Bool.not_eq_true', reduceCtorEq, false_or, Except.ok.injEq, exists_eq_left'] at hv
  rcases hv with ⟨hdup, rfl⟩ | ⟨_, hv⟩
  · apply PassesOver.duplicateConnection
    rw [hc]
    exact duplicate_append_of_mem hdup (by simp)
  rcases hv with ⟨hself, rfl⟩ | ⟨hother, hv⟩
  · exact .selfConnection hmem hself
  rcases hv with ⟨hsame, rfl⟩ | ⟨_, hv⟩
  · -- One port belongs to one node.
    exact absurd (Declares.unique hids.2 hdp hdq (by rw [hidp, hidq, hsame])).1 hother
  rcases hv with ⟨hout, rfl⟩ | ⟨_, hv⟩
  · exact .sourceDirection hmem hp hout
  rcases hv with ⟨hin, rfl⟩ | ⟨_, hv⟩
  · exact .targetDirection hmem hq hin
  rcases hv with ⟨htype, rfl⟩ | ⟨_, hv⟩
  · exact .incompatiblePorts hmem hp hq htype
  rcases hv with ⟨hfull, rfl⟩ | ⟨_, hv⟩
  · rw [not_isFull_of_review h hc hdp (by simp [Connection.touchesPort, hidp])] at hfull
    cases hfull
  rcases hv with ⟨hfull, rfl⟩ | ⟨_, hcycle, rfl⟩
  · rw [not_isFull_of_review h hc hdq (by simp [Connection.touchesPort, hidq])] at hfull
    cases hfull
  · simp only [Bool.and_eq_true, Bool.not_eq_eq_eq_not, Bool.not_true] at hcycle
    have hdata : g.carriesData c = true := by
      rw [carriesData_iff hids.2 hdp hidp]
      simpa [Port.isFlow] using hcycle.1
    rw [not_closes_of_review h hc hdata] at hcycle
    cases hcycle.2

/-- What a replay of a graph without defects fails at is a rule that a review passes over. -/
theorem passesOver_of_replay (h : g.defects = []) {d : Defect} (hd : g.replay = .error d) :
    g.PassesOver d := by
  unfold replay Draft.build at hd
  simp only [bind_eq_error_iff, addNodes_eq_ok_iff] at hd
  rcases hd with hnode | ⟨_, ⟨rfl, hids⟩, hconn⟩
  · obtain ⟨before, n, after, g', hn, hbefore, hn'⟩ := exists_of_foldlM_eq_error hnode
    have hempty : ({ id := g.id, name := g.name } : Graph).DistinctIds := ⟨.nil, .nil⟩
    obtain ⟨rfl, _⟩ := (foldlM_addNode_eq_ok_iff hempty).mp hbefore
    exact passesOver_of_addNode hn hn'
  · obtain ⟨before, c, after, g', hc, hbefore, hc'⟩ := exists_of_foldlM_eq_error hconn
    obtain ⟨rfl, _⟩ := (foldlM_connect_eq_ok_iff (.of_distinctIds hids)).mp hbefore
    exact passesOver_of_vet h hids hc (connect_eq_error_iff.mp hc')

end Refusal

/-- A graph without defects is accepted piece by piece just when it is distinct and fits; else a
refusal says why. -/
theorem replay_of_review (h : g.defects = []) :
    (g.replay = .ok g ↔ (g.nodes.map (·.id)).Nodup ∧
      (g.nodes.flatMap fun n => n.ports.map (·.id)).Nodup ∧ g.connections.Nodup ∧
        ∀ c ∈ g.connections, g.Fits c) ∧
      (∀ g', g.replay = .ok g' → g' = g) ∧ ∀ d, g.replay = .error d → g.PassesOver d := by
  refine ⟨?_, fun g' hg' => (replay_eq_ok_iff.mp hg').1, fun d hd => passesOver_of_replay h hd⟩
  rw [replay_eq_ok_iff, wellFormed_iff_of_review h]
  simp only [true_and, DistinctIds, and_assoc]

def mistyped : Graph where
  id := "mistyped"
  name := "Mistyped"
  nodes := [⟨"words", "words", [.output "words.text" "text" .string]⟩,
    ⟨"sum", "sum", [.input "sum.term" "term" .number]⟩]
  connections := [⟨"words", "words.text", "sum", "sum.term"⟩]

/-- A review finds nothing wrong with a connection between types that do not go together. -/
theorem review_overlooks_types : mistyped.defects = [] ∧
    (mistyped.nodes.map (·.id)).Nodup ∧
      (mistyped.nodes.flatMap fun n => n.ports.map (·.id)).Nodup ∧ mistyped.connections.Nodup ∧
        mistyped.replay = .error (.incompatiblePorts "words.text" "sum.term" "String" "Number") := by
  decide +kernel

def matching : Graph where
  id := "matching"
  name := "Matching"
  nodes := [⟨"five", "five", [.output "five.value" "value" .number]⟩,
    ⟨"sum", "sum", [.input "sum.term" "term" .number]⟩]
  connections := [⟨"five", "five.value", "sum", "sum.term"⟩]

theorem replay_matching : matching.defects = [] ∧ matching.replay = .ok matching ∧
    mistyped.defects = [] ∧
      mistyped.PassesOver (.incompatiblePorts "words.text" "sum.term" "String" "Number") := by
  have hmatching : matching.defects = [] := by decide +kernel
  have hmistyped : mistyped.defects = [] := by decide +kernel
  have hsource : matching.Declares "five" (.output "five.value" "value" .number) :=
    ⟨_, List.mem_cons_self, rfl, List.mem_cons_self⟩
  have htarget : matching.Declares "sum" (.input "sum.term" "term" .number) :=
    ⟨_, List.mem_cons_of_mem _ List.mem_cons_self, rfl, List.mem_cons_self⟩
  have hfits : ∀ c ∈ matching.connections, matching.Fits c := by
    intro c hc
    rw [List.mem_singleton.mp hc]
    exact ⟨by decide, _, _, ⟨hsource, rfl, rfl⟩, ⟨htarget, rfl, rfl⟩, rfl⟩
  have hok := (replay_of_review hmatching).1.mpr ⟨by decide, by decide, by decide, hfits⟩
  exact ⟨hmatching, hok, hmistyped, (replay_of_review hmistyped).2.2 _ (by decide +kernel)⟩

end Flowchart.Graph
