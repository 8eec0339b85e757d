import Flowchart.Proofs.Model.Endless
import Flowchart.Proofs.Model.Tally

/-! Pulls compute a sum once for every way that leads up to it. -/
namespace Flowchart.Model

open Relation

/-- A chain of connections up from a port to a node, through one of the two inputs of each sum. -/
inductive Chain (m : Model) : String → List Connection → String → Prop
  | single {port : String} {c : Connection} (arrives : m.graph.arriving? port = some c) :
      Chain m port [c] c.sourceNode
  | cons {port node : String} {c : Connection} {cs : List Connection} {n : Node} {p : Port}
      (arrives : m.graph.arriving? port = some c) (known : m.graph.node? c.sourceNode = some n)
      (sum : m.IsSum c.sourceNode) (named : n.portNamed? "a" = some p ∨ n.portNamed? "b" = some p)
      (rest : Chain m p.id cs node) : Chain m port (c :: cs) node

def inputs (m : Model) (node : String) : List String :=
  match m.graph.node? node, m.behaviour? node with
  | some n, some .add => ((n.portNamed? "a").toList ++ (n.portNamed? "b").toList).map (·.id)
  | _, _ => []

/-- All chains up from a port that are no longer than `depth`. -/
def chains (m : Model) : Nat → String → List (List Connection)
  | 0, _ => []
  | depth + 1, port =>
    match m.graph.arriving? port with
    | none => []
    | some c => [c] :: (m.inputs c.sourceNode).flatMap fun q => (m.chains depth q).map (c :: ·)

def top (cs : List Connection) : Option String := cs.getLast?.map (·.sourceNode)

def chainsTo (m : Model) (port node : String) : List (List Connection) :=
  (m.chains m.graph.nodes.length port).filter (top · = some node)

/-- Who pulls at one port enters a sum through another. -/
def Enters (m : Model) (port q : String) : Prop :=
  ∃ c, m.graph.arriving? port = some c ∧ q ∈ m.inputs c.sourceNode

variable {m : Model} {d d' : Desk} {port node : String} {cs : List Connection} {depth : Nat}

theorem mem_inputs_iff {q : String} : q ∈ m.inputs node ↔ ∃ n p, m.graph.node? node = some n ∧
    m.IsSum node ∧ (n.portNamed? "a" = some p ∨ n.portNamed? "b" = some p) ∧ p.id = q := by
  unfold inputs
  constructor
  · intro hq
    split at hq
    · next n hn hb =>
      obtain ⟨p, hp, rfl⟩ := List.mem_map.mp hq
      simp only [List.mem_append, Option.mem_toList] at hp
      exact ⟨n, p, hn, hb, hp, rfl⟩
    · cases hq
  · rintro ⟨n, p, hn, hb, hp, rfl⟩
    rw [hn, show m.behaviour? node = some .add from hb]
    apply List.mem_map_of_mem
    simpa only [List.mem_append, Option.mem_toList] using hp

theorem inputs_of_not_isSum (h : ¬ m.IsSum node) : m.inputs node = [] := by
  apply List.eq_nil_iff_forall_not_mem.mpr
  intro q hq
  obtain ⟨n, p, -, hsum, -⟩ := mem_inputs_iff.mp hq
  exact h hsum

theorem Nests.enters {q : String} (h : m.Nests d port q) : m.Enters port q := by
  obtain ⟨c, hc, hdraws⟩ := h
  obtain ⟨n, p, hn, hsum, -, hnamed, rfl⟩ := hdraws.exists_port
  exact ⟨c, hc, mem_inputs_iff.mpr ⟨n, p, hn, hsum, hnamed, rfl⟩⟩

section Enumeration

theorem chains_succ {c : Connection} (hc : m.graph.arriving? port = some c) (depth : Nat) :
    m.chains (depth + 1) port =
      [c] :: (m.inputs c.sourceNode).flatMap fun q => (m.chains depth q).map (c :: ·) := by
  rw [chains, hc]

theorem exists_cons_of_mem_chains (h : cs ∈ m.chains depth port) :
    ∃ c rest, cs = c :: rest ∧ m.graph.arriving? port = some c := by
  cases depth with
  | zero => cases h
  | succ depth =>
    cases hc : m.graph.arriving? port with
    | none =>
      rw [chains, hc] at h
      cases h
    | some c =>
      rw [chains_succ hc, List.mem_cons, List.mem_flatMap] at h
      rcases h with rfl | ⟨q, -, h⟩
      · exact ⟨c, [], rfl, rfl⟩
      · obtain ⟨rest, -, rfl⟩ := List.mem_map.mp h
        exact ⟨c, rest, rfl, rfl⟩

theorem top_cons {c : Connection} (h : cs ∈ m.chains depth port) : top (c :: cs) = top cs := by
  obtain ⟨c', rest, rfl, -⟩ := exists_cons_of_mem_chains h
  rfl

theorem Chain.top_eq (h : m.Chain port cs node) : top cs = some node := by
  induction h with
  | single => rfl
  | @cons _ _ c cs _ _ _ _ _ _ rest ih =>
    cases rest <;> exact ih

theorem chain_of_mem (h : cs ∈ m.chains depth port) (htop : top cs = some node) :
    m.Chain port cs node := by
  induction depth generalizing port cs with
  | zero => cases h
  | succ depth ih =>
    obtain ⟨c, rest, rfl, hc⟩ := exists_cons_of_mem_chains h
    rw [chains_succ hc, List.mem_cons, List.mem_flatMap] at h
    rcases h with hsingle | ⟨q, hq, h⟩
    · cases hsingle
      cases htop
      exact .single hc
    · obtain ⟨rest', hrest, heq⟩ := List.mem_map.mp h
      cases heq
      obtain ⟨n, p, known, sum, named, rfl⟩ := mem_inputs_iff.mp hq
      rw [top_cons hrest] at htop
      exact .cons hc known sum named (ih hrest htop)

theorem Chain.mem (h : m.Chain port cs node) (hlength : cs.length ≤ depth) :
    cs ∈ m.chains depth port := by
  induction h generalizing depth with
  | single arrives =>
    obtain ⟨depth, rfl⟩ := Nat.exists_eq_succ_of_ne_zero (Nat.ne_of_gt hlength)
    rw [chains_succ arrives]
    exact List.mem_cons_self
  | @cons _ _ c cs n p arrives known sum named rest ih =>
    obtain ⟨depth, rfl⟩ : ∃ k, depth = k + 1 := by
      apply Nat.exists_eq_succ_of_ne_zero
      simp only [List.length_cons] at hlength
      omega
    rw [chains_succ arrives]
    apply List.mem_cons_of_mem
    rw [List.mem_flatMap]
    refine ⟨p.id, mem_inputs_iff.mpr ⟨n, p, known, sum, named, rfl⟩, ?_⟩
    exact List.mem_map_of_mem (ih (by simpa using hlength))

/-- A chain enters one sum less than it has connections. -/
theorem Chain.exists_entered (h : m.Chain port cs node) :
    ∃ qs, List.IsChain m.Enters (port :: qs) ∧ cs.length = qs.length + 1 := by
  induction h with
  | single => exact ⟨[], .singleton _, rfl⟩
  | @cons _ _ c cs n p arrives known sum named rest ih =>
    obtain ⟨qs, hqs, hlength⟩ := ih
    refine ⟨p.id :: qs, .cons_cons ?_ hqs, by simp [hlength]⟩
    exact ⟨c, arrives, mem_inputs_iff.mpr ⟨n, p, known, sum, named, rfl⟩⟩

theorem nodup_inputs (hwf : m.graph.WellFormed) : (m.inputs node).Nodup := by
  unfold inputs
  split
  · next n hn _ =>
    have hnode := ((Graph.node?_eq_some_iff hwf.nodes_nodup).mp hn).1
    cases ha : n.portNamed? "a" with
    | none => cases n.portNamed? "b" <;> simp
    | some p =>
      cases hb : n.portNamed? "b" with
      | none => simp
      | some q =>
        have hne : p.id ≠ q.id := by
          intro hid
          obtain ⟨-, rfl⟩ := Graph.declared_unique hwf.ports_nodup hnode hnode
            (List.mem_of_find?_eq_some ha) (List.mem_of_find?_eq_some hb) hid
          have hname_a : p.name = "a" := by simpa using List.find?_some ha
          have hname_b : p.name = "b" := by simpa using List.find?_some hb
          rw [hname_a] at hname_b
          exact absurd hname_b (by decide)
        simpa using hne
  · exact List.nodup_nil

theorem nodup_chains (hwf : m.graph.WellFormed) (depth : Nat) (port : String) :
    (m.chains depth port).Nodup := by
  induction depth generalizing port with
  | zero => exact List.nodup_nil
  | succ depth ih =>
    cases hc : m.graph.arriving? port with
    | none =>
      rw [chains, hc]
      exact List.nodup_nil
    | some c =>
      rw [chains_succ hc, List.nodup_cons, List.nodup_flatMap]
      refine ⟨?_, fun q _ => (ih q).map (List.cons_injective), ?_⟩
      · intro hmem
        obtain ⟨q, -, hq⟩ := List.mem_flatMap.mp hmem
        obtain ⟨rest, hrest, heq⟩ := List.mem_map.mp hq
        obtain ⟨c', rest', rfl, -⟩ := exists_cons_of_mem_chains hrest
        cases heq
      · refine (nodup_inputs hwf).imp fun {q q'} hne cs hq hq' => hne ?_
        obtain ⟨rest, hrest, rfl⟩ := List.mem_map.mp hq
        obtain ⟨rest', hrest', heq⟩ := List.mem_map.mp hq'
        cases heq
        obtain ⟨c₁, _, rfl, hc₁⟩ := exists_cons_of_mem_chains hrest
        obtain ⟨c₂, _, heq, hc₂⟩ := exists_cons_of_mem_chains hrest'
        cases heq
        exact (mem_of_arriving hc₁).2.symm.trans (mem_of_arriving hc₂).2

end Enumeration

section Counting

/-- The node that a chain leads to, if it has a sum. -/
def sumAbove (m : Model) (cs : List Connection) : Option String :=
  (top cs).bind fun node => match m.behaviour? node with
    | some .add => some node
    | _ => none

theorem sumAbove_of_isSum (htop : top cs = some node) (hsum : m.IsSum node) :
    m.sumAbove cs = some node := by
  have hsum : m.behaviour? node = some .add := hsum
  simp [sumAbove, htop, hsum]

theorem sumAbove_eq_some (h : m.sumAbove cs = some node) : top cs = some node := by
  unfold sumAbove at h
  obtain ⟨node', htop, hsum⟩ := Option.bind_eq_some_iff.mp h
  split at hsum
  · cases hsum
    exact htop
  · cases hsum

theorem sumAbove_of_not_isSum (htop : top cs = some node) (hsum : ¬ m.IsSum node) :
    m.sumAbove cs = none := by
  unfold sumAbove
  rw [htop, Option.bind_some]
  split
  · next h => exact absurd h hsum
  · rfl

theorem filterMap_sumAbove_cons (c : Connection) (depth : Nat) (q : String) :
    ((m.chains depth q).map (c :: ·)).filterMap m.sumAbove =
      (m.chains depth q).filterMap m.sumAbove := by
  rw [List.filterMap_map]
  apply List.filterMap_congr
  intro cs hcs
  simp only [Function.comp_apply, sumAbove, top_cons hcs]

/-- A pull that comes to a value computes a sum once for each chain that leads up to it. -/
theorem read_counts (huses : m.UsesLibrary) {v : Option Json}
    (h : (m.read depth port).run d = (.ok v, d')) :
    d' = d.countSums ((m.chains depth port).filterMap m.sumAbove) := by
  induction depth generalizing port d d' v with
  | zero => cases h
  | succ depth ih =>
    cases hc : m.graph.arriving? port with
    | none =>
      rw [read, hc] at h
      rw [chains, hc]
      cases h
      rfl
    | some c =>
      rw [read, hc] at h
      obtain ⟨w, d₁, hvalue, hsome⟩ := Pull.run_bind_eq_ok.mp h
      cases hsome
      rw [chains_succ hc]
      rcases huses.value_eq_ok hvalue with
        ⟨hother, rfl⟩ | ⟨n, p, q, d₁, x, y, hn, hsum, hp, hq, hx, hy⟩
      · have hnone : m.sumAbove [c] = none := sumAbove_of_not_isSum rfl hother
        rw [inputs_of_not_isSum hother, List.flatMap_nil, List.filterMap_cons, hnone]
        rfl
      · have hhere : m.sumAbove [c] = some c.sourceNode := sumAbove_of_isSum rfl hsum
        have hinputs : m.inputs c.sourceNode = [p.id, q.id] := by
          unfold inputs
          rw [hn, show m.behaviour? c.sourceNode = some .add from hsum]
          simp [hp, hq]
        have hfirst := ih hx
        have hsecond := ih hy
        rw [hinputs, List.filterMap_cons, hhere, List.flatMap_cons, List.flatMap_singleton,
          List.filterMap_append, filterMap_sumAbove_cons, filterMap_sumAbove_cons]
        have hcons : ∀ nodes, d.countSums (c.sourceNode :: nodes) =
            (d.countSum c.sourceNode).countSums nodes := fun _ => rfl
        rw [hcons, Desk.countSums_append, ← hfirst]
        exact hsecond

theorem count_filterMap_sumAbove (hsum : m.IsSum node) (chains : List (List Connection)) :
    (chains.filterMap m.sumAbove).count node = (chains.filter (top · = some node)).length := by
  rw [← List.countP_eq_length_filter, List.count, List.countP_filterMap]
  apply List.countP_congr
  intro cs _
  by_cases htop : top cs = some node
  · simp [htop, sumAbove_of_isSum htop hsum]
  · cases habove : m.sumAbove cs with
    | none => simp [htop]
    | some node' =>
      have hne : node' ≠ node := by
        rintro rfl
        exact htop (sumAbove_eq_some habove)
      simp [htop, hne]

end Counting

section Depth

variable (hwf : m.graph.WellFormed) (hlib : m.OfLibrary)
include hwf hlib

/-- A node that has a sum passes no control on, so what it is connected to gets its value. -/
theorem valueStep_of_isSum {c : Connection} (hc : c ∈ m.graph.connections)
    (hsum : m.IsSum c.sourceNode) : m.graph.ValueStep c.sourceNode c.targetNode := by
  obtain ⟨-, p, -, ⟨⟨n, hn, hid, hp⟩, -⟩, -⟩ := hwf.fits c hc
  have hknown : m.graph.node? c.sourceNode = some n :=
    (Graph.node?_eq_some_iff hwf.nodes_nodup).mpr ⟨hn, hid⟩
  have hnone : n.flowOutputs = [] := by
    cases hlib.declares hknown hsum
    rfl
  apply hwf.valueStep hc
  rw [Bool.eq_false_iff]
  intro hcontrol
  obtain ⟨q, hq, -⟩ := (hwf.carriesControl_iff hc hn hid.symm).mp hcontrol
  rw [hnone] at hq
  cases hq

/-- Pulls that lie one in the other are made for different nodes, as values go in no circle. -/
theorem length_le_of_entered {qs : List String} {n : Node} {p : Port} {trail : List String}
    (hn : n ∈ m.graph.nodes) (hp : p ∈ n.ports) (hqs : List.IsChain m.Enters (p.id :: qs))
    (hnodup : (n.id :: trail).Nodup) (hknown : n.id :: trail ⊆ m.graph.nodes.map (·.id))
    (hup : ∀ id ∈ trail, TransGen m.graph.ValueStep n.id id) :
    trail.length + (p.id :: qs).length ≤ m.graph.nodes.length := by
  induction qs generalizing n p trail with
  | nil =>
    have hle := (hnodup.subperm hknown).length_le
    rw [List.length_map] at hle
    exact hle
  | cons q qs ih =>
    obtain ⟨⟨c, hc, hq⟩, hrest⟩ := List.isChain_cons_cons.mp hqs
    obtain ⟨k, r, hk, hsum, hnamed, rfl⟩ := mem_inputs_iff.mp hq
    obtain ⟨hknode, hkid⟩ := (Graph.node?_eq_some_iff hwf.nodes_nodup).mp hk
    have hr : r ∈ k.ports := by
      rcases hnamed with hnamed | hnamed
      · exact List.mem_of_find?_eq_some hnamed
      · exact List.mem_of_find?_eq_some hnamed
    have htarget : c.targetNode = n.id := by
      obtain ⟨hmem, hport⟩ := mem_of_arriving hc
      obtain ⟨-, -, t, -, ⟨ht, htid, -⟩, -⟩ := hwf.fits c hmem
      exact (Graph.Declares.unique hwf.ports_nodup ht ⟨n, hn, rfl, hp⟩ (htid.trans hport)).1
    have hstep : m.graph.ValueStep k.id n.id := by
      rw [hkid, ← htarget]
      exact valueStep_of_isSum hwf hlib (mem_of_arriving hc).1 hsum
    have hup' : ∀ id ∈ n.id :: trail, TransGen m.graph.ValueStep k.id id := by
      intro id hid
      rcases List.mem_cons.mp hid with rfl | hid
      · exact .single hstep
      · exact .head hstep (hup id hid)
    have hnew : k.id ∉ n.id :: trail := fun hmem => hwf.acyclic _ (hup' _ hmem)
    have hle := ih hknode hr hrest (List.nodup_cons.mpr ⟨hnew, hnodup⟩)
      (List.cons_subset.mpr ⟨List.mem_map_of_mem hknode, hknown⟩) hup'
    simp only [List.length_cons] at hle ⊢
    omega

variable {n : Node} {p : Port} (hn : n ∈ m.graph.nodes) (hp : p ∈ n.ports)
include hn hp

theorem length_le_of_nested {qs : List String} (hqs : List.IsChain m.Enters (p.id :: qs)) :
    (p.id :: qs).length ≤ m.graph.nodes.length := by
  have hle := length_le_of_entered hwf hlib hn hp hqs (List.nodup_singleton _)
    (List.cons_subset.mpr ⟨List.mem_map_of_mem hn, List.nil_subset _⟩) (by simp)
  simpa using hle

theorem Chain.length_le (h : m.Chain p.id cs node) : cs.length ≤ m.graph.nodes.length := by
  obtain ⟨qs, hqs, hlength⟩ := h.exists_entered
  have hle := length_le_of_nested hwf hlib hn hp hqs
  rw [List.length_cons] at hle
  omega

theorem mem_chainsTo_iff : cs ∈ m.chainsTo p.id node ↔ m.Chain p.id cs node := by
  unfold chainsTo
  rw [List.mem_filter, decide_eq_true_eq]
  constructor
  · exact fun ⟨hmem, htop⟩ => chain_of_mem hmem htop
  · exact fun h => ⟨h.mem (h.length_le hwf hlib hn hp), h.top_eq⟩

end Depth

/-- A pull that is given up has gone as deep as it may. -/
theorem exists_nested_of_exhausted (huses : m.UsesLibrary) (h : (m.read depth port).Exhausted d) :
    ∃ qs, List.IsChain (m.Nests d) (port :: qs) ∧ qs.length = depth := by
  induction depth generalizing port with
  | zero => exact ⟨[], .singleton _, rfl⟩
  | succ depth ih =>
    obtain ⟨q, hq, hexhausted⟩ := (read_succ_exhausted_iff huses).mp h
    obtain ⟨qs, hqs, hlength⟩ := ih hexhausted
    exact ⟨q :: qs, .cons_cons hq hqs, by simp [hlength]⟩

/-- How the pull of what arrives at a port goes at a desk. -/
structure Evaluates (m : Model) (d : Desk) (port : String) : Prop where
  ends : m.PullEnds d port
  /-- Pulls that lead one to the next are no more than there are nodes. -/
  nested : ∀ qs, List.IsChain (m.Nests d) (port :: qs) → (port :: qs).length ≤ m.graph.nodes.length
  /-- As many pulls as there are nodes are deep enough. -/
  shallow : ¬ (m.inputValue port).Exhausted d ∧
    (m.read m.graph.nodes.length port).run d = (m.inputValue port).run d
  /-- What is counted of a sum is the chains that lead to it. -/
  chains : ∀ node, (m.chainsTo port node).Nodup ∧ ∀ cs, cs ∈ m.chainsTo port node ↔ m.Chain port cs node
  counts : ∀ v d', (m.inputValue port).run d = (.ok v, d') → ∀ node, m.IsSum node →
    d'.sumCount node = d.sumCount node + (m.chainsTo port node).length
  others : ((m.inputValue port).run d).2 = { d with sums := ((m.inputValue port).run d).2.sums } ∧
    ∀ node, ¬ m.IsSum node → ((m.inputValue port).run d).2.sumCount node = d.sumCount node
  /-- With the same variables it comes to the same and counts the same again. -/
  again : ∀ e : Desk, e.board = d.board →
    ((m.inputValue port).run e).1 = ((m.inputValue port).run d).1 ∧ ∀ node,
      ((m.inputValue port).run e).2.sumCount node + d.sumCount node =
        ((m.inputValue port).run d).2.sumCount node + e.sumCount node

/-- A pull computes every sum as often as there are chains that lead up to
it, and changes nothing else. -/
theorem evaluates_of_edits (hgraph : ∃ id name edits, Graph.ofEdits id name edits = m.graph)
    (hlib : m.OfLibrary) {n : Node} {p : Port} (hn : n ∈ m.graph.nodes) (hp : p ∈ n.ports)
    (d : Desk) : m.Evaluates d p.id := by
  have hwf : m.graph.WellFormed := .of_edited hgraph
  have huses := hlib.usesLibrary
  have htallies : (m.inputValue p.id).Tallies m.IsSum := huses.read_tallies _ _
  have hnested : ∀ qs, List.IsChain (m.Nests d) (p.id :: qs) →
      (p.id :: qs).length ≤ m.graph.nodes.length := fun qs hqs =>
    length_le_of_nested hwf hlib hn hp (hqs.imp fun _ _ => Nests.enters)
  have hthrough : ¬ (m.read m.graph.nodes.length p.id).Exhausted d := by
    intro hexhausted
    obtain ⟨qs, hqs, hlength⟩ := exists_nested_of_exhausted huses hexhausted
    have hle := hnested qs hqs
    rw [List.length_cons] at hle
    omega
  have hends : m.PullEnds d p.id := pullEnds_of_read huses hthrough
  have hinput : ¬ (m.inputValue p.id).Exhausted d := (pullEnds_iff huses).mp hends
  have hsame : (m.read m.graph.nodes.length p.id).run d = (m.inputValue p.id).run d := by
    rcases Nat.le_total m.graph.nodes.length m.depth with hle | hle
    · exact (read_short huses hle p.id d).resolve_left hthrough
    · exact ((read_short huses hle p.id d).resolve_left hinput).symm
  constructor
  case ends => exact hends
  case nested => exact hnested
  case shallow => exact ⟨hinput, hsame⟩
  case chains =>
    intro node
    exact ⟨(nodup_chains hwf _ _).filter _, fun cs => mem_chainsTo_iff hwf hlib hn hp⟩
  case counts =>
    intro v d' hrun node hsum
    rw [← hsame] at hrun
    rw [read_counts huses hrun, Desk.sumCount_countSums, count_filterMap_sumAbove hsum]
    rfl
  case others => exact ⟨htallies.desk_eq, fun node hnode => htallies.sumCount_eq hnode⟩
  case again => exact fun e hboard => htallies.again hboard

/-- A sum of a sum and itself, of a number and itself. -/
def tower : Model where
  graph :=
    { id := "tower", name := "Tower"
      nodes := [Library.constant "x" .number, Library.add "low", Library.add "high",
        Library.print "say"]
      connections := [⟨"x", "x.value", "low", "low.a"⟩, ⟨"x", "x.value", "low", "low.b"⟩,
        ⟨"low", "low.sum", "high", "high.a"⟩, ⟨"low", "low.sum", "high", "high.b"⟩,
        ⟨"high", "high.sum", "say", "say.value"⟩] }
  behaviours := [("x", .constant (.float 2)), ("low", .add), ("high", .add), ("say", .print)]

theorem ofLibrary_tower : tower.OfLibrary := by
  intro n hn
  simp only [tower, List.mem_cons, List.not_mem_nil, or_false] at hn
  rcases hn with rfl | rfl | rfl | rfl
  · exact ⟨_, rfl, .constant "x" .number (.float 2)⟩
  · exact ⟨_, rfl, .add "low"⟩
  · exact ⟨_, rfl, .add "high"⟩
  · exact ⟨_, rfl, .print "say"⟩

/-- The lower sum is computed once for each input of the upper one. -/
theorem tower_evaluates : (∃ id name edits, Graph.ofEdits id name edits = tower.graph) ∧
    tower.OfLibrary ∧ tower.Evaluates {} "say.value" ∧
    (tower.chainsTo "say.value" "high").length = 1 ∧ (tower.chainsTo "say.value" "low").length = 2 ∧
    ∃ v d', (tower.inputValue "high.a").run {} = (.ok v, d') ∧ d'.sumCount "low" = 1 := by
  have hedits : Graph.ofEdits "tower" "Tower" [.addNode (Library.constant "x" .number),
      .addNode (Library.add "low"), .addNode (Library.add "high"), .addNode (Library.print "say"),
      .connect ⟨"x", "x.value", "low", "low.a"⟩, .connect ⟨"x", "x.value", "low", "low.b"⟩,
      .connect ⟨"low", "low.sum", "high", "high.a"⟩, .connect ⟨"low", "low.sum", "high", "high.b"⟩,
      .connect ⟨"high", "high.sum", "say", "say.value"⟩] = tower.graph := by decide +kernel
  have hsay : tower.Evaluates {} "say.value" :=
    evaluates_of_edits ⟨_, _, _, hedits⟩ ofLibrary_tower (n := Library.print "say")
      (p := Library.input "say" "value" .any) (by decide) (by decide) {}
  have hhigh : tower.Evaluates {} "high.a" :=
    evaluates_of_edits ⟨_, _, _, hedits⟩ ofLibrary_tower (n := Library.add "high")
      (p := (Library.input "high" "a" .number).demanded) (by decide) (by decide) {}
  refine ⟨⟨_, _, _, hedits⟩, ofLibrary_tower, hsay, by decide +kernel, by decide +kernel, ?_⟩
  refine ⟨_, _, rfl, ?_⟩
  rw [hhigh.counts _ _ rfl "low" rfl]
  decide +kernel

end Flowchart.Model
