import Flowchart.Proofs.Graph.WellFormed

/-! The alarm of a review: it is raised for every circle of data connections, once, and it does not
depend on the order in which the nodes are peeled off. -/
namespace Flowchart.Graph
open Relation

/-- A connection leads from a node to another, and the first port with its
source port's id carries values. -/
def PassesValues (g : Graph) (a b : String) : Prop :=
  ∃ c ∈ g.connections, c.sourceNode = a ∧ c.targetNode = b ∧
    ∃ p, (g.nodes.flatMap (·.ports)).find? (·.id = c.sourcePort) = some p ∧ p.dataType ≠ .flow

def untargeted (g : Graph) : List String := (g.counters.filter (·.2 = 0)).map (·.1)

/-- How a graph is peeled whose nodes at zero wait in this order when it begins. -/
structure PeelsOff (g : Graph) (ready : List String) (p : Peeling) : Prop where
  /-- The peeling comes to its end, so it has lowered no counter that was at zero. -/
  run : Peeling.run? g.dataConnections { counts := g.counters, ready, taken := [] } = some p
  through : p.ready = []
  once : p.taken.Nodup
  known : p.taken ⊆ g.peelable
  reported : g.defects.count .dataCycle = if p.taken.length < g.peelable.length then 1 else 0

namespace Peeling

variable {edges : List Connection} {nodes pending : List String} {p q : Peeling}

theorem Sound.of_perm (h : p.Sound edges nodes pending) {ready : List String}
    (hr : ready.Perm p.ready) : Sound edges nodes pending { p with ready } := by
  have hall : (p.taken ++ ready).Perm (p.taken ++ p.ready) := hr.append_left _
  constructor
  case counted => exact h.counted
  case atZero => exact fun n hn => hall.mem_iff.trans (h.atZero n hn)
  case nodup => exact hall.nodup_iff.mpr h.nodup
  case known => exact fun n hn => h.known n (hall.mem_iff.mp hn)

/-- What one peeling has taken, another one takes before it is over. -/
theorem Sound.taken_subset (hp : p.Sound edges nodes []) (ho : Ordered edges p.taken)
    (hq : q.Sound edges nodes []) (hr : q.ready = []) : p.taken ⊆ q.taken := by
  intro n hn
  induction hk : p.taken.idxOf n using Nat.strong_induction_on generalizing n with
  | _ k ih =>
    by_contra hleft
    -- What still arrives at the node comes from one that was taken before it.
    have hknown : n ∈ nodes := hp.known n (List.mem_append_left _ hn)
    obtain ⟨e, he, rfl, hopen⟩ := exists_open_of_left hq hr hknown hleft
    have hlt := ho e he hn
    have hsource : e.sourceNode ∈ p.taken :=
      List.idxOf_lt_length_iff.mp (hlt.trans (List.idxOf_lt_length_of_mem hn))
    exact hopen (ih _ (hk ▸ hlt) hsource rfl)

/-- Peelings of the same graph that are over have taken the same nodes. -/
theorem Sound.length_taken_eq (hp : p.Sound edges nodes []) (hop : Ordered edges p.taken)
    (hrp : p.ready = []) (hq : q.Sound edges nodes []) (hoq : Ordered edges q.taken)
    (hrq : q.ready = []) : p.taken.length = q.taken.length := by
  have hnodup : ∀ {r : Peeling}, r.Sound edges nodes [] → r.taken.Nodup := fun hr =>
    (List.nodup_append.mp hr.nodup).1
  have hpq := (hnodup hp).subperm (hp.taken_subset hop hq hrq)
  have hqp := (hnodup hq).subperm (hq.taken_subset hoq hp hrp)
  exact Nat.le_antisymm hpq.length_le hqp.length_le

end Peeling

variable {g : Graph}

theorem carriesData_iff_first {c : Connection} : g.carriesData c = true ↔
    ∃ p, (g.nodes.flatMap (·.ports)).find? (·.id = c.sourcePort) = some p ∧ p.dataType ≠ .flow := by
  have hport : (g.port? c.sourcePort).map (·.2) =
      (g.nodes.flatMap (·.ports)).find? (·.id = c.sourcePort) := by
    rw [port?, List.map_findSome?, List.find?_flatMap]
    congr 1
    funext n
    simp [Node.port?, Function.comp_def]
  rw [← hport]
  unfold carriesData
  cases g.port? c.sourcePort with
  | none => simp
  | some np => simp [Port.isFlow]

theorem dataStep_eq_passesValues : g.DataStep = g.PassesValues := by
  funext a b
  unfold DataStep Leads dataConnections PassesValues
  simp only [List.mem_filter, carriesData_iff_first, eq_iff_iff]
  constructor
  · rintro ⟨c, ⟨hc, hp⟩, ha, hb⟩
    exact ⟨c, hc, ha, hb, hp⟩
  · rintro ⟨c, hc, ha, hb, hp⟩
    exact ⟨c, ⟨hc, hp⟩, ha, hb⟩

theorem eq_unknown_of_endpointDefect? {node port : String} {d : Defect}
    (h : g.endpointDefect? node port = some d) :
    d = .unknownNode node ∨ d = .unknownPort node port := by
  unfold endpointDefect? endpoint at h
  cases hn : g.node? node with
  | none =>
    rw [hn] at h
    cases h
    exact .inl rfl
  | some n =>
    cases hp : n.port? port with
    | none =>
      simp only [hn, hp] at h
      cases h
      exact .inr rfl
    | some p =>
      simp only [hn, hp] at h
      cases h

theorem unknown_of_mem_danglingEnds {d : Defect} (h : d ∈ g.danglingEnds) :
    ∃ node port, d = .unknownNode node ∨ d = .unknownPort node port := by
  simp only [danglingEnds, List.mem_flatMap, List.mem_append, Option.mem_toList] at h
  obtain ⟨c, -, h | h⟩ := h
  · exact ⟨_, _, eq_unknown_of_endpointDefect? h⟩
  · exact ⟨_, _, eq_unknown_of_endpointDefect? h⟩

/-- No other part of a review reports a cycle. -/
theorem count_dataCycle_defects :
    g.defects.count .dataCycle = if g.hasDataCycle then 1 else 0 := by
  have hdangling : Defect.dataCycle ∉ g.danglingEnds := by
    intro h
    obtain ⟨_, _, h | h⟩ := unknown_of_mem_danglingEnds h <;> cases h
  have hfull : Defect.dataCycle ∉ g.overfullPorts := by simp [overfullPorts]
  have hmissing : Defect.dataCycle ∉ g.missingInputs := by simp [missingInputs]
  unfold defects
  rw [List.count_append, List.count_append, List.count_append,
    List.count_eq_zero_of_not_mem hdangling, List.count_eq_zero_of_not_mem hfull,
    List.count_eq_zero_of_not_mem hmissing]
  cases g.hasDataCycle <;> rfl

/-- In whichever order the nodes at zero wait, peeling ends, takes as many nodes, and raises the
alarm or not. -/
theorem exists_peelsOff {ready : List String} (h : ready.Perm g.untargeted) :
    ∃ p, g.PeelsOff ready p := by
  have htargets : ∀ e ∈ g.dataConnections, e.targetNode ∈ g.peelable := fun e he =>
    mem_peelable.mpr (.inr ⟨e, he, rfl⟩)
  have hbegin : Peeling.Ordered g.dataConnections [] := fun _ _ ht => by cases ht
  have hsound := (peeling_sound g).of_perm h
  obtain ⟨p, hp, hps, hpr⟩ := Peeling.run?_sound hsound htargets
  obtain ⟨q, hq, hqs, hqr⟩ := peel?_sound g
  have hpo := Peeling.run?_ordered hsound htargets hbegin hp
  have hqo := Peeling.run?_ordered (peeling_sound g) htargets hbegin hq
  refine ⟨p, hp, hpr, (List.nodup_append.mp hps.nodup).1, ?_, ?_⟩
  · exact fun n hn => hps.known n (List.mem_append_left _ hn)
  · rw [count_dataCycle_defects, hps.length_taken_eq hpo hpr hqs hqo hqr, hasDataCycle, hq]
    simp only [decide_eq_true_eq]

/-- A review peels off any graph in any order, and reports a circle of data
connections just once. -/
theorem circle_reported (g : Graph) (ready : List String) (h : ready.Perm g.untargeted) :
    (∃ p, g.PeelsOff ready p) ∧
      ∀ n, TransGen g.PassesValues n n → g.defects.count .dataCycle = 1 := by
  refine ⟨exists_peelsOff h, fun n hcircle => ?_⟩
  have halarm : g.hasDataCycle = true := by
    by_contra hquiet
    rw [← dataStep_eq_passesValues] at hcircle
    exact acyclic_of_hasDataCycle_eq_false (Bool.eq_false_iff.mpr hquiet) n hcircle
  rw [count_dataCycle_defects, halarm]
  rfl

/-- Two nodes of one id, a node connected to itself twice, and connections
from and to unknown nodes. -/
def tangle : Graph where
  id := "tangle"
  name := "Tangle"
  nodes := [⟨"x", "", [.output "p" "p" .number]⟩, ⟨"x", "", [.output "p" "p" .flow]⟩,
    ⟨"y", "", []⟩, ⟨"z", "", []⟩, ⟨"w", "", []⟩]
  connections := [⟨"y", "p", "x", "q"⟩, ⟨"x", "p", "x", "q"⟩, ⟨"x", "p", "x", "q"⟩,
    ⟨"nobody", "p", "z", "q"⟩, ⟨"z", "p", "nowhere", "q"⟩, ⟨"x", "r", "y", "q"⟩]

theorem tangle_reported : tangle.untargeted = ["y", "w"] ∧ ["w", "y"].Perm tangle.untargeted ∧
    (∃ p, tangle.PeelsOff ["w", "y"] p) ∧ TransGen tangle.PassesValues "x" "x" ∧
    tangle.defects.count .dataCycle = 1 := by
  have hready : ["w", "y"].Perm tangle.untargeted := by decide +kernel
  have hself : tangle.PassesValues "x" "x" :=
    ⟨⟨"x", "p", "x", "q"⟩, by decide, rfl, rfl, _, rfl, by decide⟩
  obtain ⟨hpeels, hreported⟩ := circle_reported tangle ["w", "y"] hready
  exact ⟨by decide +kernel, hready, hpeels, .single hself, hreported "x" (.single hself)⟩

end Flowchart.Graph
