import Flowchart.Proofs.Graph.Editing

/-! Connecting accepts just what keeps a graph well-formed, and every history of edits leaves a
well-formed graph, whose only defects are required inputs that are not connected. -/
namespace Flowchart

inductive Edit
  | addNode (n : Node)
  | removeNode (id : String)
  | connect (c : Connection)
  | disconnect (c : Connection)
deriving DecidableEq, Repr

namespace Graph
open Relation

/-- The graph after an edit. One that is refused leaves it as it was. -/
def edit (g : Graph) : Edit → Graph
  | .addNode n => (g.addNode n).toOption.getD g
  | .removeNode id => (g.removeNode id).2
  | .connect c => (g.connect c).toOption.getD g
  | .disconnect c => (g.disconnect c).2

def ofEdits (id name : String) (edits : List Edit) : Graph := edits.foldl edit { id, name }

def withConnection (g : Graph) (c : Connection) : Graph :=
  { g with connections := g.connections ++ [c] }

/-- A defect for each required input that no connection touches. -/
def unmetInputs (g : Graph) : List Defect :=
  g.nodes.flatMap fun n =>
    (n.ports.filter fun p => p.required ∧ p.direction = .input ∧
      ∀ c ∈ g.connections, ¬ c.touchesPort p.id).map fun p => .missingRequired n.id p.id

variable {g : Graph}

theorem degree_eq_zero_iff {port : String} :
    g.degree port = 0 ↔ ∀ c ∈ g.connections, ¬ c.touchesPort port := by
  simp [degree, connectionsOf]

theorem isFull_eq_false_iff {p : Port} :
    g.isFull p = false ↔ (p.capacity = .single → ∀ c ∈ g.connections, ¬ c.touchesPort p.id) := by
  rw [← degree_eq_zero_iff]
  simp [isFull]

theorem missingInputs_eq : g.missingInputs = g.unmetInputs := by
  unfold missingInputs portsByNode unmetInputs
  rw [List.filter_flatMap, List.map_flatMap]
  refine congrArg (List.flatMap · g.nodes) (funext fun n => ?_)
  rw [List.filter_map, List.map_map]
  refine congrArg _ (List.filter_congr fun p _ => ?_)
  simp [degree_eq_zero_iff, Bool.and_assoc]

namespace WellFormed

theorem defects_eq (h : g.WellFormed) : g.defects = g.unmetInputs := by
  unfold defects
  rw [h.danglingEnds_eq_nil, h.overfullPorts_eq_nil, h.hasDataCycle_eq_false, missingInputs_eq]
  simp

/-- A port for one connection whose node an accepted connection names was free before. -/
theorem free_of_touches (h : g.WellFormed) {node : String} {p r : Port} {n : Node}
    (hp : g.Declares node p) (hfull : g.isFull p = false) (hn : n ∈ g.nodes) (hr : r ∈ n.ports)
    (hs : r.capacity = .single) (hid : p.id = r.id) : ∀ d ∈ g.connections, ¬ d.touchesPort r.id := by
  obtain ⟨_, rfl⟩ := Declares.unique h.ports_nodup hp ⟨n, hn, rfl, hr⟩ hid
  exact isFull_eq_false_iff.mp hfull hs

/-- An accepted connection adds at most the step from its source to its
target, which closes no cycle. -/
theorem acyclic_withConnection (h : g.WellFormed) {c : Connection} {p : Port}
    (hp : g.Declares c.sourceNode p) (hid : p.id = c.sourcePort)
    (hpath : p.isFlow = false → g.dataPath c.targetNode c.sourceNode = false) (a : String) :
    ¬ TransGen (g.withConnection c).ValueStep a a := by
  by_cases hflow : p.isFlow = true
  · refine acyclic_of_le ?_ h.acyclic a
    rintro x y ⟨d, hd, rfl, rfl, r, hdr, hidr, hr⟩
    rcases List.mem_append.mp hd with hd | hd
    · exact ⟨d, hd, rfl, rfl, r, hdr, hidr, hr⟩
    · rw [List.mem_singleton.mp hd] at hdr hidr
      obtain ⟨_, rfl⟩ := Declares.unique h.ports_nodup hp hdr (hid.trans hidr.symm)
      exact absurd (by simpa [Port.isFlow] using hflow) hr
  · refine acyclic_insert (r := g.ValueStep) (a := c.sourceNode) (b := c.targetNode) ?_ h.acyclic ?_ a
    · rintro x y ⟨d, hd, rfl, rfl, hr⟩
      rcases List.mem_append.mp hd with hd | hd
      · exact .inl ⟨d, hd, rfl, rfl, hr⟩
      · rw [List.mem_singleton.mp hd]
        exact .inr ⟨rfl, rfl⟩
    · rw [← h.dataStep_eq, ← dataPath_iff]
      simp [hpath (by simpa using hflow)]

/-- A connection that passes every check keeps a graph well-formed. -/
theorem of_vet (h : g.WellFormed) {c : Connection} (hv : g.vet c = .ok ()) :
    (g.withConnection c).WellFormed := by
  obtain ⟨p, hp, q, hq, hnew, hne, _, hout, hin, htype, hfullp, hfullq, hpath⟩ :=
    vet_eq_ok_iff.mp hv
  obtain ⟨hdp, hidp⟩ := (endpoint_eq_ok_iff h.ports_nodup h.nodes_nodup).mp hp
  obtain ⟨hdq, hidq⟩ := (endpoint_eq_ok_iff h.ports_nodup h.nodes_nodup).mp hq
  have hfit : g.Fits c := ⟨hne, p, q, ⟨hdp, hidp, hout⟩, ⟨hdq, hidq, hin⟩, htype⟩
  -- A port for one connection that the new one touches was free.
  have hfree : ∀ n ∈ g.nodes, ∀ r ∈ n.ports, r.capacity = .single → c.touchesPort r.id →
      ∀ d ∈ g.connections, ¬ d.touchesPort r.id := by
    intro n hn r hr hs ht
    simp only [Connection.touchesPort, Bool.or_eq_true, decide_eq_true_eq] at ht
    rcases ht with ht | ht
    · exact h.free_of_touches hdp hfullp hn hr hs (hidp.trans ht)
    · exact h.free_of_touches hdq hfullq hn hr hs (hidq.trans ht)
  constructor
  case nodes_nodup => exact h.nodes_nodup
  case ports_nodup => exact h.ports_nodup
  case connections_nodup =>
    exact List.nodup_append.mpr ⟨h.connections_nodup, by simp, fun x hx y hy hxy =>
      hnew (List.mem_singleton.mp hy ▸ hxy ▸ hx)⟩
  case acyclic => exact h.acyclic_withConnection hdp hidp hpath
  case fits =>
    intro d hd
    rcases List.mem_append.mp hd with hd | hd
    · exact h.fits d hd
    · exact List.mem_singleton.mp hd ▸ hfit
  case single =>
    intro n hn r hr hs d hd e he hdt het
    rcases List.mem_append.mp hd with hd | hd <;> rcases List.mem_append.mp he with he | he
    · exact h.single n hn r hr hs d hd e he hdt het
    · rw [List.mem_singleton.mp he] at het
      exact absurd hdt (hfree n hn r hr hs het d hd)
    · rw [List.mem_singleton.mp hd] at hdt
      exact absurd het (hfree n hn r hr hs hdt e he)
    · rw [List.mem_singleton.mp hd, List.mem_singleton.mp he]

/-- A connection that keeps a graph well-formed passes every check. -/
theorem vet_of {c : Connection} (h : (g.withConnection c).WellFormed) : g.vet c = .ok () := by
  have hc : c ∈ (g.withConnection c).connections := by simp [withConnection]
  have hold : g.connections ⊆ (g.withConnection c).connections := List.subset_append_left _ _
  have hg : g.WellFormed := h.of_sublist (List.Sublist.refl _) (List.sublist_append_left _ _)
    fun d hd => h.fits d (hold hd)
  have hnew : c ∉ g.connections := by
    intro hmem
    exact (List.nodup_append.mp h.connections_nodup).2.2 c hmem c (by simp) rfl
  obtain ⟨hne, p, q, ⟨hdp, hidp, hout⟩, ⟨hdq, hidq, hin⟩, htype⟩ : g.Fits c := h.fits c hc
  have hports : c.sourcePort ≠ c.targetPort := by
    intro heq
    have hid : p.id = q.id := by rw [hidp, hidq, heq]
    exact hne (Declares.unique h.ports_nodup hdp hdq hid).1
  have hfree : ∀ (node : String) (r : Port), g.Declares node r → c.touchesPort r.id →
      g.isFull r = false := by
    rintro node r ⟨n, hn, _, hr⟩ ht
    rw [isFull_eq_false_iff]
    intro hs d hd hdt
    have hdc := h.single n hn r hr hs d (hold hd) c hc hdt ht
    exact hnew (hdc ▸ hd)
  refine vet_eq_ok_iff.mpr ⟨p, (endpoint_eq_ok_iff h.ports_nodup h.nodes_nodup).mpr ⟨hdp, hidp⟩, q,
    (endpoint_eq_ok_iff h.ports_nodup h.nodes_nodup).mpr ⟨hdq, hidq⟩, hnew, hne, hports, hout, hin,
    htype, hfree _ p hdp (by simp [Connection.touchesPort, hidp]),
    hfree _ q hdq (by simp [Connection.touchesPort, hidq]), ?_⟩
  intro hflow
  by_contra hpath
  rw [Bool.not_eq_false, dataPath_iff, hg.dataStep_eq] at hpath
  have hsub : g.ValueStep ≤ (g.withConnection c).ValueStep := by
    rintro a b ⟨d, hd, hr⟩
    exact ⟨d, hold hd, hr⟩
  have hback : ReflTransGen (g.withConnection c).ValueStep c.targetNode c.sourceNode :=
    ReflTransGen.mono hsub _ _ hpath
  have hstep : (g.withConnection c).ValueStep c.sourceNode c.targetNode :=
    ⟨c, hc, rfl, rfl, p, hdp, hidp, by simpa [Port.isFlow] using hflow⟩
  exact h.acyclic c.sourceNode (.head' hstep hback)

theorem connect_eq_ok_iff (h : g.WellFormed) {c : Connection} {g' : Graph} :
    g.connect c = .ok g' ↔ g' = g.withConnection c ∧ (g.withConnection c).WellFormed := by
  rw [Graph.connect_eq_ok_iff, and_comm]
  exact and_congr_right fun _ => ⟨h.of_vet, vet_of⟩

theorem edit (h : g.WellFormed) (e : Edit) : (g.edit e).WellFormed := by
  cases e with
  | addNode n => exact getD_toOption h fun _ ha => h.addNode ha
  | removeNode id => exact h.removeNode id
  | connect c =>
    apply getD_toOption h
    intro g' hc
    obtain ⟨rfl, hw⟩ := h.connect_eq_ok_iff.mp hc
    exact hw
  | disconnect c => exact h.disconnect c

theorem edits (h : g.WellFormed) (es : List Edit) : (es.foldl Graph.edit g).WellFormed := by
  induction es generalizing g with
  | nil => exact h
  | cons e es ih => exact ih (h.edit e)

theorem ofEdits (id name : String) (es : List Edit) : (Graph.ofEdits id name es).WellFormed :=
  (WellFormed.empty id name).edits es

theorem of_edited {g : Graph} (h : ∃ id name es, Graph.ofEdits id name es = g) : g.WellFormed := by
  obtain ⟨id, name, es, rfl⟩ := h
  exact ofEdits id name es

end WellFormed

/-- Whatever edits are asked for, the graph stays well-formed, and its defects are the required
inputs that nothing is connected to. -/
theorem ofEdits_sound (id name : String) (edits : List Edit) :
    (ofEdits id name edits).WellFormed ∧
      (ofEdits id name edits).defects = (ofEdits id name edits).unmetInputs :=
  ⟨.ofEdits id name edits, (WellFormed.ofEdits id name edits).defects_eq⟩

/-- A connection is accepted just when the graph with it is well-formed; it is then the last one,
and otherwise nothing changes. -/
theorem connect_accepts_iff (id name : String) (edits : List Edit) (c : Connection) :
    let g := ofEdits id name edits
    ((∃ g', g.connect c = .ok g') ↔ (g.withConnection c).WellFormed) ∧
      (∀ g', g.connect c = .ok g' → g' = g.withConnection c ∧ g.edit (.connect c) = g') ∧
        ∀ d, g.connect c = .error d → g.edit (.connect c) = g := by
  intro g
  have h : g.WellFormed := .ofEdits id name edits
  refine ⟨⟨fun ⟨_, hg'⟩ => (h.connect_eq_ok_iff.mp hg').2, fun hw => ?_⟩, fun g' hg' => ?_,
    fun d hd => ?_⟩
  · exact ⟨_, h.connect_eq_ok_iff.mpr ⟨rfl, hw⟩⟩
  · refine ⟨(h.connect_eq_ok_iff.mp hg').1, ?_⟩
    simp [edit, hg', Except.toOption]
  · simp [edit, hd, Except.toOption]

end Graph

end Flowchart
