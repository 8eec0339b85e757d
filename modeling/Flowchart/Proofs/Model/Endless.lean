import Flowchart.Proofs.Graph.Control
import Flowchart.Proofs.Graph.History
import Flowchart.Proofs.Model.Nesting

/-! Pulls that never end: they come round through connections for control, which a graph may have in a
circle. -/
namespace Flowchart

open Relation

/-- A connection that control does not pass along leads values from a node to another. -/
theorem Graph.WellFormed.valueStep {g : Graph} (h : g.WellFormed) {c : Connection}
    (hc : c ∈ g.connections) (hcontrol : g.carriesControl c = false) :
    g.ValueStep c.sourceNode c.targetNode := by
  obtain ⟨-, p, -, ⟨⟨n, hn, hid, hpn⟩, hpid, hout⟩, -⟩ := h.fits c hc
  refine ⟨c, hc, rfl, rfl, p, ⟨n, hn, hid, hpn⟩, hpid, fun hflow => ?_⟩
  have hleaves : p ∈ n.flowOutputs := List.mem_filter.mpr ⟨hpn, by simp [Port.isFlow, hflow, hout]⟩
  have hcarries := (h.carriesControl_iff hc hn hid.symm).mpr ⟨p, hleaves, hpid.symm⟩
  cases hcontrol.symm.trans hcarries

theorem Graph.WellFormed.isFlow_of_carriesControl {g : Graph} (h : g.WellFormed) {c : Connection}
    (hc : c ∈ g.connections) (hcontrol : g.carriesControl c = true) {n : Node} {p : Port}
    (hn : n ∈ g.nodes) (hp : p ∈ n.ports) (hid : c.targetPort = p.id) : p.isFlow = true := by
  obtain ⟨-, s, q, ⟨⟨k, hk, hkid, hsk⟩, hsid, -⟩, ⟨hq, hqid, -⟩, hfits⟩ := h.fits c hc
  obtain ⟨-, rfl⟩ := Graph.Declares.unique h.ports_nodup hq ⟨n, hn, rfl, hp⟩ (hqid.trans hid)
  obtain ⟨s', hs', hsid'⟩ := (h.carriesControl_iff hc hk hkid.symm).mp hcontrol
  obtain ⟨hmem, hflow⟩ := List.mem_filter.mp hs'
  obtain ⟨-, rfl⟩ := Graph.declared_unique h.ports_nodup hk hk hsk hmem (hsid.trans hsid')
  have hsflow : s.dataType = .flow := by
    simp only [Port.isFlow, Bool.and_eq_true, decide_eq_true_eq] at hflow
    exact hflow.1
  rw [hsflow] at hfits
  simpa [DataType.compatible, Port.isFlow, eq_comm] using hfits

namespace Model

variable {m : Model} {d : Desk}

theorem Draws.exists_port {node q : String} (h : m.Draws d node q) : ∃ n p,
    m.graph.node? node = some n ∧ m.behaviour? node = some .add ∧ p ∈ n.ports ∧
      (n.portNamed? "a" = some p ∨ n.portNamed? "b" = some p) ∧ q = p.id := by
  cases h with
  | first known sum named =>
    exact ⟨_, _, known, sum, List.mem_of_find?_eq_some named, .inl named, rfl⟩
  | second known sum _ named =>
    exact ⟨_, _, known, sum, List.mem_of_find?_eq_some named, .inr named, rfl⟩

theorem mem_of_arriving {c : Connection} {q : String} (h : m.graph.arriving? q = some c) :
    c ∈ m.graph.connections ∧ c.targetPort = q :=
  ⟨List.mem_of_mem_filter (List.mem_of_find?_eq_some h), by simpa using List.find?_some h⟩

section WellFormed

variable (hwf : m.graph.WellFormed)
include hwf

theorem Draws.targetNode_eq {node q : String} (h : m.Draws d node q) {c : Connection}
    (hc : m.graph.arriving? q = some c) : c.targetNode = node := by
  obtain ⟨n, p, hn, -, hp, -, rfl⟩ := h.exists_port
  obtain ⟨hmem, htarget⟩ := mem_of_arriving hc
  obtain ⟨hnode, rfl⟩ := (Graph.node?_eq_some_iff hwf.nodes_nodup).mp hn
  obtain ⟨-, -, t, -, ⟨ht, htid, -⟩, -⟩ := hwf.fits c hmem
  exact (Graph.Declares.unique hwf.ports_nodup ht ⟨n, hnode, rfl, hp⟩ (htid.trans htarget)).1

/-- On the way from one pull to another, one follows a connection for
control, or values can get through. -/
theorem control_or_values {a b : String} (h : TransGen (m.Nests d) a b) :
    (∃ q c, ReflTransGen (m.Nests d) a q ∧ TransGen (m.Nests d) q b ∧
      m.graph.arriving? q = some c ∧ m.graph.carriesControl c = true) ∨
    ∃ c, m.graph.arriving? a = some c ∧ ∀ c', m.graph.arriving? b = some c' →
      TransGen m.graph.ValueStep c'.targetNode c.targetNode := by
  induction h using TransGen.head_induction_on with
  | @single a hnests =>
    obtain ⟨c, hc, hdraws⟩ := hnests
    cases hcontrol : m.graph.carriesControl c with
    | true => exact .inl ⟨a, c, .refl, .single ⟨c, hc, hdraws⟩, hc, hcontrol⟩
    | false =>
      refine .inr ⟨c, hc, fun c' hc' => ?_⟩
      rw [hdraws.targetNode_eq hwf hc']
      exact .single (hwf.valueStep (mem_of_arriving hc).1 hcontrol)
  | @head a x hnests hrest ih =>
    obtain ⟨c, hc, hdraws⟩ := hnests
    cases hcontrol : m.graph.carriesControl c with
    | true => exact .inl ⟨a, c, .refl, .head ⟨c, hc, hdraws⟩ hrest, hc, hcontrol⟩
    | false =>
      rcases ih with ⟨q, c', hto, hfrom, hc', hcontrol'⟩ | ⟨cx, hcx, hvalues⟩
      · exact .inl ⟨q, c', .head ⟨c, hc, hdraws⟩ hto, hfrom, hc', hcontrol'⟩
      · refine .inr ⟨c, hc, fun c' hc' => (hvalues c' hc').tail ?_⟩
        rw [hdraws.targetNode_eq hwf hcx]
        exact hwf.valueStep (mem_of_arriving hc).1 hcontrol

/-- A pull that comes round does so through a connection for control. -/
theorem ComesRound.control {port : String} (h : m.ComesRound d port) :
    ∃ q c, ReflTransGen (m.Nests d) port q ∧ TransGen (m.Nests d) q q ∧
      m.graph.arriving? q = some c ∧ m.graph.carriesControl c = true := by
  obtain ⟨q, hto, hround⟩ := h
  rcases control_or_values hwf hround with ⟨r, c, hthere, hback, hc, hcontrol⟩ | ⟨c, hc, hvalues⟩
  · exact ⟨r, c, hto.trans hthere, hback.trans_left hthere, hc, hcontrol⟩
  · exact absurd (hvalues c hc) (hwf.acyclic _)

end WellFormed

def AddsValues (m : Model) : Prop :=
  ∀ node n p, m.graph.node? node = some n → m.behaviour? node = some .add →
    (n.portNamed? "a" = some p ∨ n.portNamed? "b" = some p) → p.isFlow = false

/-- Which pulls at a desk come to an end. -/
structure Ending (m : Model) (d : Desk) : Prop where
  /-- A pull comes to an end unless it leads to a pull that leads to itself. -/
  ends : ∀ port, m.PullEnds d port ↔ ¬ m.ComesRound d port
  /-- Just those that do not are given up, at the depth of the model. -/
  input : ∀ port, m.PullEnds d port ↔ ¬ (m.inputValue port).Exhausted d
  output : ∀ node port, m.ValueEnds d node ↔ ¬ (m.portValue node port).Exhausted d
  control : ∀ port, m.ComesRound d port → ∃ q c, ReflTransGen (m.Nests d) port q ∧
    TransGen (m.Nests d) q q ∧ m.graph.arriving? q = some c ∧ m.graph.carriesControl c = true
  /-- If sums add values only, every pull comes to an end. -/
  values : m.AddsValues → (∀ port, m.PullEnds d port) ∧ ∀ node, m.ValueEnds d node

/-- A pull comes to an end unless it goes round through connections for control. -/
theorem ending_of_edits (hgraph : ∃ id name edits, Graph.ofEdits id name edits = m.graph)
    (huses : m.UsesLibrary) (d : Desk) : m.Ending d := by
  have hwf : m.graph.WellFormed := .of_edited hgraph
  constructor
  case ends => exact fun port => pullEnds_iff_not_comesRound huses
  case input => exact fun port => pullEnds_iff huses
  case output => exact fun node port => valueEnds_iff huses port
  case control => exact fun port => ComesRound.control hwf
  case values =>
    intro hadds
    have hends : ∀ port, m.PullEnds d port := by
      refine fun port => (pullEnds_iff_not_comesRound huses).mpr fun hround => ?_
      obtain ⟨q, c, -, hround, hc, hcontrol⟩ := hround.control hwf
      obtain ⟨r, -, c', -, hdraws⟩ := TransGen.tail'_iff.mp hround
      obtain ⟨n, p, hn, hadd, hp, hnamed, rfl⟩ := hdraws.exists_port
      obtain ⟨hmem, htarget⟩ := mem_of_arriving hc
      have hnode := ((Graph.node?_eq_some_iff hwf.nodes_nodup).mp hn).1
      cases (hadds _ n p hn hadd hnamed).symm.trans
        (hwf.isFlow_of_carriesControl hmem hcontrol hnode hp htarget)
    exact ⟨hends, fun node port _ => hends port⟩

theorem usesLibrary_of_behaviours (h : ∀ b ∈ m.behaviours.map (·.2), b.isCustom = false) :
    m.UsesLibrary := by
  intro node n b _ hb
  obtain ⟨before, after, hsplit, -⟩ := List.lookup_eq_some_iff.mp hb
  exact h b (List.mem_map.mpr ⟨(node, b), by simp [hsplit], rfl⟩)

/-- A node that has a sum and passes control on, through ports that are named like a sum's. -/
def ringNode (id : String) : Node where
  id
  kind := "ring"
  ports := [Library.input id "a" .flow, Library.output id "out" .flow]

def ring : Model where
  graph :=
    { id := "ring", name := "Ring"
      nodes := [ringNode "x", ringNode "y"]
      connections := [⟨"x", "x.out", "y", "y.a"⟩, ⟨"y", "y.out", "x", "x.a"⟩] }
  behaviours := [("x", .add), ("y", .add)]

theorem ring_draws (d : Desk) {id : String} (known : ring.graph.node? id = some (ringNode id))
    (sum : ring.behaviour? id = some .add) : ring.Draws d id (Library.portId id "a") :=
  .first (p := Library.input id "a" .flow) known sum rfl

theorem ring_comesRound (d : Desk) : ring.ComesRound d "x.a" := by
  have hx : ring.Nests d "y.a" "x.a" := ⟨⟨"x", "x.out", "y", "y.a"⟩, rfl, ring_draws d rfl rfl⟩
  have hy : ring.Nests d "x.a" "y.a" := ⟨⟨"y", "y.out", "x", "x.a"⟩, rfl, ring_draws d rfl rfl⟩
  exact ⟨"x.a", .refl, .head hy (.single hx)⟩

/-- No edit that leads to the ring is refused, and its sums are pulled without an end. -/
theorem ring_never_ends : Graph.ofEdits "ring" "Ring"
      [.addNode (ringNode "x"), .addNode (ringNode "y"), .connect ⟨"x", "x.out", "y", "y.a"⟩,
        .connect ⟨"y", "y.out", "x", "x.a"⟩] = ring.graph ∧
    ring.UsesLibrary ∧ ∀ d, ¬ ring.PullEnds d "x.a" ∧ ¬ ring.ValueEnds d "x" ∧
      (ring.portValue "x" "x.out").Exhausted d := by
  have huses : ring.UsesLibrary := usesLibrary_of_behaviours (by simp [ring, Behaviour.isCustom])
  refine ⟨by decide +kernel, huses, fun d => ?_⟩
  have hpull : ¬ ring.PullEnds d "x.a" := fun h => h.not_comesRound (ring_comesRound d)
  have hvalue : ¬ ring.ValueEnds d "x" := fun h => hpull (h "x.a" (ring_draws d rfl rfl))
  refine ⟨hpull, hvalue, ?_⟩
  by_contra hexhausted
  exact hvalue ((valueEnds_iff huses "x.out").mpr hexhausted)

def doubled : Model where
  graph :=
    { id := "doubled", name := "Doubled"
      nodes := [Library.constant "x" .number, Library.add "sum"]
      connections := [⟨"x", "x.value", "sum", "sum.a"⟩, ⟨"x", "x.value", "sum", "sum.b"⟩] }
  behaviours := [("x", .constant (.ofFloat 2)), ("sum", .add)]

theorem doubled_addsValues : doubled.AddsValues := by
  intro node n p hn _ hnamed
  have hports : ∀ k ∈ doubled.graph.nodes, ∀ q ∈ k.ports, q.isFlow = false := by decide
  refine hports n (List.mem_of_find?_eq_some hn) p ?_
  rcases hnamed with h | h
  · exact List.mem_of_find?_eq_some h
  · exact List.mem_of_find?_eq_some h

theorem ending_doubled : (∃ id name edits, Graph.ofEdits id name edits = doubled.graph) ∧
    doubled.UsesLibrary ∧ doubled.Ending {} ∧ ∀ node, doubled.ValueEnds {} node := by
  have hedits : Graph.ofEdits "doubled" "Doubled" [.addNode (Library.constant "x" .number),
      .addNode (Library.add "sum"), .connect ⟨"x", "x.value", "sum", "sum.a"⟩,
      .connect ⟨"x", "x.value", "sum", "sum.b"⟩] = doubled.graph := by decide +kernel
  have huses : doubled.UsesLibrary :=
    usesLibrary_of_behaviours (by simp [doubled, Behaviour.isCustom])
  have hending : doubled.Ending {} := ending_of_edits ⟨_, _, _, hedits⟩ huses {}
  exact ⟨⟨_, _, _, hedits⟩, huses, hending, (hending.values doubled_addsValues).2⟩

end Model

end Flowchart
