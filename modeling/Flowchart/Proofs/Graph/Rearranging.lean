import Flowchart.Proofs.Graph.Replay

/-! The order in which connections are made does not matter, and connections and nodes that were
taken away can be put back: what is accepted depends only on the graph that it leads to. -/
namespace Flowchart

namespace Draft

/-- A call that writes a piece of a draft down. -/
inductive Call
  | node (n : Node)
  | bareNode (id kind : String)
  | port (p : Port)
  | input (id name : String) (t : DataType)
  | requiredInput (id name : String) (t : DataType)
  | output (id name : String) (t : DataType)
  | flowInput (id name : String)
  | flowOutput (id name : String)
  | connect (c : Connection)
deriving DecidableEq, Repr

def call (d : Draft) : Call → Draft
  | .node n => d.node n
  | .bareNode id kind => d.bareNode id kind
  | .port p => d.port p
  | .input id name t => d.input id name t
  | .requiredInput id name t => d.requiredInput id name t
  | .output id name t => d.output id name t
  | .flowInput id name => d.flowInput id name
  | .flowOutput id name => d.flowOutput id name
  | .connect c => d.connect c

def ofCalls (id name : String) (calls : List Call) : Draft := calls.foldl call { id, name }

/-- The connection that a call writes down. The others are for nodes and ports. -/
def Call.connection? : Call → Option Connection
  | .connect c => some c
  | _ => none

/-- The calls for nodes and ports are the same in the same order, those for
connections in whatever order. -/
structure SameCalls (calls calls' : List Call) : Prop where
  pieces : calls.filter (·.connection?.isNone) = calls'.filter (·.connection?.isNone)
  connections : (calls.filterMap Call.connection?).Perm (calls'.filterMap Call.connection?)

theorem SameCalls.symm {calls calls' : List Call} (h : SameCalls calls calls') :
    SameCalls calls' calls := ⟨h.pieces.symm, h.connections.symm⟩

variable {d : Draft}

/-- What is written down of nodes and ports has nothing to do with the connections. -/
theorem call_of_piece {x : Call} (hx : x.connection? = none) (cs : List Connection) :
    ({ d with connections := cs } : Draft).call x = { d.call x with connections := cs } := by
  have hport : ∀ p, ({ d with connections := cs } : Draft).port p =
      { d.port p with connections := cs } := by
    intro p
    unfold port
    dsimp only
    cases d.nodes.getLast? <;> rfl
  cases x with
  | node n => rfl
  | bareNode id kind => rfl
  | port p => exact hport p
  | input id name t => exact hport _
  | requiredInput id name t => exact hport _
  | output id name t => exact hport _
  | flowInput id name => exact hport _
  | flowOutput id name => exact hport _
  | connect c => cases hx

theorem foldl_call (calls : List Call) (cs : List Connection) :
    calls.foldl call { d with connections := cs } =
      { (calls.filter (·.connection?.isNone)).foldl call d with
          connections := cs ++ calls.filterMap Call.connection? } := by
  induction calls generalizing d cs with
  | nil => simp
  | cons x calls ih =>
    cases hx : x.connection? with
    | none =>
      rw [List.foldl_cons, call_of_piece hx, ih]
      simp [hx]
    | some c =>
      obtain rfl : x = .connect c := by
        cases x <;> cases hx
        rfl
      have hcall : ({ d with connections := cs } : Draft).call (.connect c) =
          { d with connections := cs ++ [c] } := rfl
      rw [List.foldl_cons, hcall, ih]
      simp [Call.connection?]

/-- A draft can be built just when the graph it writes down obeys every rule. -/
theorem build_eq_ok_iff {g : Graph} : d.build = .ok g ↔ g = { d with } ∧ g.WellFormed := by
  have hreplay : d.build = Graph.replay { d with } := rfl
  rw [hreplay, Graph.replay_eq_ok_iff]
  constructor
  · rintro ⟨rfl, hw⟩
    exact ⟨rfl, hw⟩
  · rintro ⟨rfl, hw⟩
    exact ⟨rfl, hw⟩

end Draft

namespace Graph
open Relation

/-- The same graph, apart from the order of its connections. -/
structure Reordered (g g' : Graph) : Prop where
  same : g' = { g with connections := g'.connections }
  connections : g'.connections.Perm g.connections

/-- What is done to a graph can be done in another order, and undone. -/
structure OrderFree (g : Graph) : Prop where
  /-- Connections that can be made in one order can be made in every order. -/
  connect {cs cs' : List Connection} {g₁ : Graph} : cs.Perm cs' → cs.foldlM Graph.connect g = .ok g₁ →
    ∃ g₂, cs'.foldlM Graph.connect g = .ok g₂ ∧ g₁.Reordered g₂
  disconnect {c : Connection} : c ∈ g.connections →
    (g.disconnect c).1 = true ∧ ∃ g', (g.disconnect c).2.connect c = .ok g' ∧ g.Reordered g'
  /-- A node that was removed can be added again, and then its connections in any order. -/
  removeNode {id : String} {n : Node} {g₀ : Graph} {cs : List Connection} :
    g.removeNode id = (some n, g₀) → cs.Perm (g.connections.filter (·.touchesNode id)) →
      ∃ g₁ g', g₀.addNode n = .ok g₁ ∧ cs.foldlM Graph.connect g₁ = .ok g' ∧ g'.id = g.id ∧
        g'.name = g.name ∧ g'.nodes.Perm g.nodes ∧ g'.connections.Perm g.connections

variable {g : Graph}

/-- Whether a graph obeys the rules does not depend on the order of its nodes and connections. -/
theorem WellFormed.of_perm {g' : Graph} (h : g.WellFormed) (hn : g'.nodes.Perm g.nodes)
    (hc : g'.connections.Perm g.connections) : g'.WellFormed where
  nodes_nodup := (hn.map _).nodup_iff.mpr h.nodes_nodup
  ports_nodup := (hn.flatMap_right _).nodup_iff.mpr h.ports_nodup
  connections_nodup := hc.nodup_iff.mpr h.connections_nodup
  fits c hmem := (h.fits c (hc.subset hmem)).mono hn.symm.subset
  single n hmem p hp hs c hcm d hdm :=
    h.single n (hn.subset hmem) p hp hs c (hc.subset hcm) d (hc.subset hdm)
  acyclic := by
    refine acyclic_of_le ?_ h.acyclic
    rintro a b ⟨c, hcm, rfl, rfl, p, hd, hp⟩
    exact ⟨c, hc.subset hcm, rfl, rfl, p, hd.mono hn.subset, hp⟩

theorem WellFormed.reorder (h : g.WellFormed) {cs : List Connection}
    (hc : cs.Perm g.connections) : ({ g with connections := cs } : Graph).WellFormed :=
  h.of_perm (List.Perm.refl _) hc

/-- Beside the node that is removed the others stay, and the connections that do not touch it. -/
theorem parts_of_removeNode {id : String} {n : Node} {g₀ : Graph}
    (h : g.removeNode id = (some n, g₀)) : (g₀.nodes ++ [n]).Perm g.nodes ∧
      g₀.connections = g.connections.filter (!·.touchesNode id) ∧ g₀.id = g.id ∧
        g₀.name = g.name := by
  unfold removeNode at h
  cases hnode : g.node? id with
  | none =>
    rw [hnode] at h
    cases h
  | some m =>
    rw [hnode] at h
    cases h
    obtain ⟨hid, before, after, hnodes, hbefore⟩ := List.find?_eq_some_iff_append.mp hnode
    have hfirst : (n :: after).eraseP (·.id = id) = after := List.eraseP_cons_of_pos hid
    have herase : g.nodes.eraseP (·.id = id) = before ++ after := by
      rw [hnodes, List.eraseP_append_right _ (by simpa using hbefore), hfirst]
    refine ⟨?_, rfl, rfl, rfl⟩
    rw [herase, hnodes]
    have hmove : (before ++ after ++ [n]).Perm (n :: (before ++ after)) :=
      List.perm_append_singleton _ _
    exact hmove.trans List.perm_middle.symm

theorem WellFormed.orderFree (h : g.WellFormed) : g.OrderFree := by
  constructor
  case connect =>
    intro cs cs' g₁ hperm hok
    obtain ⟨rfl, hw⟩ := (foldlM_connect_eq_ok_iff h).mp hok
    have hconn : (g.connections ++ cs').Perm (g.connections ++ cs) := hperm.symm.append_left _
    exact ⟨_, (foldlM_connect_eq_ok_iff h).mpr ⟨rfl, hw.reorder hconn⟩, rfl, hconn⟩
  case disconnect =>
    intro c hc
    have hconn : (g.connections.erase c ++ [c]).Perm g.connections :=
      (List.perm_append_singleton _ _).trans (List.perm_cons_erase hc).symm
    refine ⟨by simpa [Graph.disconnect] using hc, (g.disconnect c).2.withConnection c, ?_, rfl, hconn⟩
    exact (h.disconnect c).connect_eq_ok_iff.mpr ⟨rfl, h.reorder hconn⟩
  case removeNode =>
    intro id n g₀ cs hremove hperm
    obtain ⟨hnodes, hkept, hid, hname⟩ := parts_of_removeNode hremove
    have hw₀ : g₀.WellFormed := by
      have := h.removeNode id
      rwa [hremove] at this
    let g₁ : Graph := { g₀ with nodes := g₀.nodes ++ [n] }
    have hids : g₁.DistinctIds :=
      ⟨(hnodes.map _).nodup_iff.mpr h.nodes_nodup, (hnodes.flatMap_right _).nodup_iff.mpr h.ports_nodup⟩
    have hadd : g₀.addNode n = .ok g₁ := addNode_eq_ok_iff.mpr
      ⟨(distinctIds_withNode_iff ⟨hw₀.nodes_nodup, hw₀.ports_nodup⟩).mp hids, rfl⟩
    -- What was kept and what was put back are all the connections there were.
    have hconn : (g₀.connections ++ cs).Perm g.connections := by
      rw [hkept]
      have hback := hperm.append_left (g.connections.filter (!·.touchesNode id))
      exact hback.trans (List.perm_append_comm.trans (List.filter_append_perm _ _))
    have hw : ({ g₁ with connections := g₁.connections ++ cs } : Graph).WellFormed :=
      h.of_perm hnodes hconn
    exact ⟨g₁, _, hadd, (foldlM_connect_eq_ok_iff (hw₀.addNode hadd)).mpr ⟨rfl, hw⟩, hid, hname,
      hnodes, hconn⟩

section Calls

variable {id name : String} {calls calls' : List Draft.Call}

/-- Drafts that differ only in where their connections stand lead to graphs
that differ only in their order. -/
theorem build_reordered (h : Draft.SameCalls calls calls')
    (hg : (Draft.ofCalls id name calls).build = .ok g) :
    ∃ g', (Draft.ofCalls id name calls').build = .ok g' ∧ g.Reordered g' := by
  obtain ⟨rfl, hw⟩ := Draft.build_eq_ok_iff.mp hg
  have hcalls : ∀ calls, Draft.ofCalls id name calls =
      { Draft.ofCalls id name (calls.filter (·.connection?.isNone)) with
          connections := calls.filterMap Draft.Call.connection? } := fun calls =>
    Draft.foldl_call (d := { id, name }) calls []
  rw [hcalls calls, h.pieces] at hw ⊢
  rw [hcalls calls']
  have hconn := h.connections.symm
  exact ⟨_, Draft.build_eq_ok_iff.mpr ⟨rfl, hw.reorder hconn⟩, rfl, hconn⟩

end Calls

/-- Connections can be made in any order, and what is taken away can be put back. -/
theorem edits_orderFree (id name : String) (edits : List Edit) :
    (ofEdits id name edits).OrderFree ∧ ∀ calls calls', Draft.SameCalls calls calls' →
      ((∃ g, (Draft.ofCalls id name calls).build = .ok g) ↔
        ∃ g', (Draft.ofCalls id name calls').build = .ok g') ∧
      ∀ g g', (Draft.ofCalls id name calls).build = .ok g →
        (Draft.ofCalls id name calls').build = .ok g' → g.Reordered g' := by
  refine ⟨(WellFormed.ofEdits id name edits).orderFree, fun calls calls' h => ⟨⟨?_, ?_⟩, ?_⟩⟩
  · rintro ⟨g, hg⟩
    obtain ⟨g', hg', _⟩ := build_reordered h hg
    exact ⟨g', hg'⟩
  · rintro ⟨g', hg'⟩
    obtain ⟨g, hg, _⟩ := build_reordered h.symm hg'
    exact ⟨g, hg⟩
  · intro g g' hg hg'
    obtain ⟨g'', hg'', hsame⟩ := build_reordered h hg
    rw [hg'] at hg''
    cases hg''
    exact hsame

def pipe (id : String) : Node :=
  ⟨id, "pipe", [.input (id ++ ".in") "in" .number, .output (id ++ ".out") "out" .number]⟩

def joint (a b : String) : Connection := ⟨a, a ++ ".out", b, b ++ ".in"⟩

def pipes : List Edit := [.addNode (pipe "a"), .addNode (pipe "b"), .addNode (pipe "c")]

/-- Three pipes, one after the other. -/
def pipeline : Graph := ofEdits "pipeline" "Pipeline"
  (pipes ++ [.connect (joint "a" "b"), .connect (joint "b" "c")])

theorem pipeline_orderFree :
    (∃ g, [joint "b" "c", joint "a" "b"].foldlM connect (ofEdits "pipeline" "Pipeline" pipes) =
        .ok g ∧ pipeline.Reordered g) ∧
      (∃ g, (pipeline.disconnect (joint "a" "b")).2.connect (joint "a" "b") = .ok g ∧
        pipeline.Reordered g) ∧
      (∃ g₁ g, (pipeline.removeNode "b").2.addNode (pipe "b") = .ok g₁ ∧
        [joint "b" "c", joint "a" "b"].foldlM connect g₁ = .ok g ∧ g.nodes.Perm pipeline.nodes ∧
          g.connections.Perm pipeline.connections) ∧
      ∃ g, (Draft.ofCalls "pipeline" "Pipeline" [.connect (joint "b" "c"), .bareNode "a" "pipe",
          .output "a.out" "out" .number, .connect (joint "a" "b"), .node (pipe "b"),
          .node (pipe "c")]).build = .ok g := by
  obtain ⟨hpipes, _⟩ := edits_orderFree "pipeline" "Pipeline" pipes
  obtain ⟨hpipeline, hcalls⟩ := edits_orderFree "pipeline" "Pipeline"
    (pipes ++ [.connect (joint "a" "b"), .connect (joint "b" "c")])
  have hjoin : [joint "a" "b", joint "b" "c"].foldlM connect
      (ofEdits "pipeline" "Pipeline" pipes) = .ok pipeline := by decide +kernel
  have hremove : pipeline.removeNode "b" = (some (pipe "b"), (pipeline.removeNode "b").2) := by
    decide +kernel
  have hjoints : [joint "b" "c", joint "a" "b"].Perm
      (pipeline.connections.filter (·.touchesNode "b")) := by decide +kernel
  have hbuild : (Draft.ofCalls "pipeline" "Pipeline" [.bareNode "a" "pipe",
      .output "a.out" "out" .number, .node (pipe "b"), .node (pipe "c"), .connect (joint "a" "b"),
      .connect (joint "b" "c")]).build = .ok { pipeline with
        nodes := [⟨"a", "pipe", [.output "a.out" "out" .number]⟩, pipe "b", pipe "c"] } := by
    decide +kernel
  refine ⟨hpipes.connect (.swap _ _ []) hjoin, (hpipeline.disconnect (by decide +kernel)).2, ?_, ?_⟩
  · obtain ⟨g₁, g, hadd, hconnect, _, _, hnodes, hconn⟩ := hpipeline.removeNode hremove hjoints
    exact ⟨g₁, g, hadd, hconnect, hnodes, hconn⟩
  · exact (hcalls _ _ ⟨by decide +kernel, by decide +kernel⟩).1.mp ⟨_, hbuild⟩

end Graph

end Flowchart
