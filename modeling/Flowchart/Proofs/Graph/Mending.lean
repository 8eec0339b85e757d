import Flowchart.Proofs.Graph.History
import Flowchart.Proofs.Graph.Phantoms

/-! Connecting makes no graph worse, whatever rules it breaks, if its port ids are distinct: nothing
is reported afterwards that was not reported before. -/
namespace Flowchart.Graph
open Relation

/-- What a connection needs to be accepted by a graph that may break most rules. -/
structure Admits (g : Graph) (c : Connection) : Prop where
  source : ∃ p, g.Declares c.sourceNode p ∧ p.id = c.sourcePort ∧ p.direction = .output
  target : ∃ q, g.Declares c.targetNode q ∧ q.id = c.targetPort
  ends : g.endpointDefect? c.sourceNode c.sourcePort = none ∧
    g.endpointDefect? c.targetNode c.targetPort = none
  free : ∀ n ∈ g.nodes, ∀ p ∈ n.ports, p.capacity = .single → c.touchesPort p.id → g.degree p.id = 0
  noWayBack : g.carriesData c = true → ¬ ReflTransGen g.PassesValues c.targetNode c.sourceNode

variable {g : Graph} {c : Connection}

theorem endpointDefect?_of_ok {node port : String} {p : Port} (h : g.endpoint node port = .ok p) :
    g.endpointDefect? node port = none := by
  simp [endpointDefect?, h]

theorem touchesPort_iff {port : String} :
    c.touchesPort port = true ↔ c.sourcePort = port ∨ c.targetPort = port := by
  simp [Connection.touchesPort]

theorem degree_withConnection (port : String) :
    (g.withConnection c).degree port = g.degree port + if c.touchesPort port then 1 else 0 := by
  unfold degree connectionsOf withConnection
  rw [List.filter_append, List.length_append]
  cases h : c.touchesPort port <;> simp [h]

theorem danglingEnds_withConnection (h : g.Admits c) :
    (g.withConnection c).danglingEnds = g.danglingEnds := by
  have hsame : ∀ node port, (g.withConnection c).endpointDefect? node port =
      g.endpointDefect? node port := fun _ _ => rfl
  unfold danglingEnds
  simp only [hsame]
  simp [withConnection, h.ends]

theorem overfullPorts_withConnection (h : g.Admits c) :
    (g.withConnection c).overfullPorts = g.overfullPorts := by
  have hports : (g.withConnection c).portsByNode = g.portsByNode := rfl
  unfold overfullPorts
  rw [hports]
  apply congrArg fun full : List (Node × Port) =>
    (full.map (·.2.id)).eraseDups.map Defect.capacityExceeded
  apply List.filter_congr
  rintro ⟨n, p⟩ hnp
  obtain ⟨hn, hp⟩ := mem_portsByNode.mp hnp
  by_cases hs : p.capacity = .single
  · -- A port for one connection that is touched now was free before.
    have hfree := h.free n hn p hp hs
    simp only [degree_withConnection]
    split
    · next ht => simp [hfree ht]
    · rfl
  · simp [hs]

section Distinct

variable (hports : (g.nodes.flatMap fun n => n.ports.map (·.id)).Nodup)
include hports

/-- What a graph accepts it admits, even if it breaks other rules. -/
theorem admits_of_connect {g' : Graph} (h : g.connect c = .ok g') :
    g.Admits c ∧ g' = g.withConnection c := by
  obtain ⟨hvet, rfl⟩ := connect_eq_ok_iff.mp h
  obtain ⟨p, hp, q, hq, _, _, _, hout, _, _, hfullp, hfullq, hpath⟩ := vet_eq_ok_iff.mp hvet
  obtain ⟨hdp, hidp⟩ := declares_of_endpoint hp
  obtain ⟨hdq, hidq⟩ := declares_of_endpoint hq
  have hfree : ∀ {node : String} {r : Port}, g.Declares node r → g.isFull r = false →
      ∀ n ∈ g.nodes, ∀ s ∈ n.ports, s.capacity = .single → r.id = s.id → g.degree s.id = 0 := by
    intro node r hr hfull n hn s hs hsingle hid
    obtain ⟨_, rfl⟩ := Declares.unique hports hr ⟨n, hn, rfl, hs⟩ hid
    exact degree_eq_zero_iff.mpr (isFull_eq_false_iff.mp hfull hsingle)
  refine ⟨?_, rfl⟩
  constructor
  case source => exact ⟨p, hdp, hidp, hout⟩
  case target => exact ⟨q, hdq, hidq⟩
  case ends => exact ⟨endpointDefect?_of_ok hp, endpointDefect?_of_ok hq⟩
  case free =>
    intro n hn s hs hsingle ht
    rcases touchesPort_iff.mp ht with hid | hid
    · exact hfree hdp hfullp n hn s hs hsingle (hidp.trans hid)
    · exact hfree hdq hfullq n hn s hs hsingle (hidq.trans hid)
  case noWayBack =>
    intro hdata hback
    rw [← dataStep_eq_passesValues, ← dataPath_iff] at hback
    have hflow : p.isFlow = false := by
      simpa [Port.isFlow] using (carriesData_iff hports hdp hidp).mp hdata
    rw [hpath hflow] at hback
    cases hback

theorem Admits.touches_input_iff (h : g.Admits c) {n : Node} {p : Port} (hn : n ∈ g.nodes)
    (hp : p ∈ n.ports) (hin : p.direction = .input) :
    c.touchesPort p.id = true ↔ n.id = c.targetNode ∧ p.id = c.targetPort := by
  obtain ⟨r, hdr, hidr, hout⟩ := h.source
  obtain ⟨q, hdq, hidq⟩ := h.target
  have hdp : g.Declares n.id p := ⟨n, hn, rfl, hp⟩
  rw [touchesPort_iff]
  constructor
  · rintro (hid | hid)
    · -- The source is an output, and there is one port only of its id.
      obtain ⟨_, rfl⟩ := Declares.unique hports hdr hdp (hidr.trans hid)
      rw [hin] at hout
      cases hout
    · obtain ⟨hnode, _⟩ := Declares.unique hports hdq hdp (hidq.trans hid)
      exact ⟨hnode.symm, hid.symm⟩
  · rintro ⟨_, hid⟩
    exact .inr hid.symm

theorem missingInputs_withConnection (h : g.Admits c) :
    (g.withConnection c).missingInputs =
      g.missingInputs.filter (· ≠ .missingRequired c.targetNode c.targetPort) := by
  have hnodes : (g.withConnection c).portsByNode = g.portsByNode := rfl
  unfold missingInputs
  rw [hnodes, List.filter_map, List.filter_filter]
  refine congrArg _ (List.filter_congr ?_)
  rintro ⟨n, p⟩ hnp
  obtain ⟨hn, hp⟩ := mem_portsByNode.mp hnp
  by_cases hin : p.direction = .input
  · have htouch := h.touches_input_iff hports hn hp hin
    simp only [degree_withConnection, htouch]
    by_cases hmet : n.id = c.targetNode ∧ p.id = c.targetPort
    · simp [hmet]
    · simp [hmet]
  · simp [hin]

end Distinct

section Values

theorem passesValues_withConnection {a b : String} : (g.withConnection c).PassesValues a b ↔
    g.PassesValues a b ∨ g.carriesData c = true ∧ a = c.sourceNode ∧ b = c.targetNode := by
  have hcarries : (g.withConnection c).carriesData = g.carriesData := rfl
  have hdata : (g.withConnection c).dataConnections =
      g.dataConnections ++ [c].filter g.carriesData := by
    rw [dataConnections, hcarries, withConnection, List.filter_append]
    rfl
  simp only [← dataStep_eq_passesValues, DataStep, Leads, hdata, List.mem_append, List.mem_filter,
    List.mem_singleton]
  constructor
  · rintro ⟨e, he | ⟨rfl, he⟩, rfl, rfl⟩
    · exact .inl ⟨e, he, rfl, rfl⟩
    · exact .inr ⟨he, rfl, rfl⟩
  · rintro (⟨e, he, rfl, rfl⟩ | ⟨hc, rfl, rfl⟩)
    · exact ⟨e, .inl he, rfl, rfl⟩
    · exact ⟨c, .inr ⟨rfl, hc⟩, rfl, rfl⟩

theorem circle_withConnection_iff (h : g.Admits c) :
    (∃ n, TransGen (g.withConnection c).PassesValues n n) ↔ ∃ n, TransGen g.PassesValues n n := by
  constructor
  · rintro ⟨n, hcircle⟩
    by_contra hno
    rw [not_exists] at hno
    by_cases hdata : g.carriesData c = true
    · refine acyclic_insert ?_ hno (h.noWayBack hdata) n hcircle
      intro a b hab
      exact (passesValues_withConnection.mp hab).imp_right And.right
    · refine acyclic_of_le ?_ hno n hcircle
      intro a b hab
      exact (passesValues_withConnection.mp hab).resolve_right fun hnew => hdata hnew.1
  · rintro ⟨n, hcircle⟩
    refine ⟨n, TransGen.mono ?_ _ _ hcircle⟩
    intro a b hab
    exact passesValues_withConnection.mpr (.inl hab)

theorem phantom_withConnection_iff (h : g.Admits c) {id : String} :
    (g.withConnection c).Phantom id ↔ g.Phantom id := by
  obtain ⟨_, ⟨m, hm, hsource, _⟩, _⟩ := h.source
  obtain ⟨_, ⟨n, hn, htarget, _⟩, _⟩ := h.target
  constructor
  · intro hphantom
    constructor
    case undeclared => exact hphantom.undeclared
    case sends =>
      obtain ⟨b, hb⟩ := hphantom.sends
      refine ⟨b, (passesValues_withConnection.mp hb).resolve_right ?_⟩
      rintro ⟨_, rfl, _⟩
      exact hphantom.undeclared m hm hsource
    case unreached =>
      intro a ha
      exact hphantom.unreached a (passesValues_withConnection.mpr (.inl ha))
  · intro hphantom
    constructor
    case undeclared => exact hphantom.undeclared
    case sends =>
      obtain ⟨b, hb⟩ := hphantom.sends
      exact ⟨b, passesValues_withConnection.mpr (.inl hb)⟩
    case unreached =>
      intro a ha
      rcases passesValues_withConnection.mp ha with ha | ⟨_, _, rfl⟩
      · exact hphantom.unreached a ha
      · exact hphantom.undeclared n hn htarget

theorem hasDataCycle_withConnection (h : g.Admits c) :
    (g.withConnection c).hasDataCycle = g.hasDataCycle := by
  rw [Bool.eq_iff_iff, hasDataCycle_iff, hasDataCycle_iff, circle_withConnection_iff h]
  simp only [phantom_withConnection_iff h]

end Values

/-- An accepted connection adds no defect to a graph of distinct port ids,
and takes away only its own input's. -/
theorem defects_of_connect {g' : Graph}
    (hports : (g.nodes.flatMap fun n => n.ports.map (·.id)).Nodup) (h : g.connect c = .ok g') :
    (∀ d ∈ g'.defects, d ∈ g.defects) ∧
      g'.defects = g.defects.filter (· ≠ .missingRequired c.targetNode c.targetPort) := by
  have hfilter : g'.defects =
      g.defects.filter (· ≠ .missingRequired c.targetNode c.targetPort) := by
    obtain ⟨hadmits, rfl⟩ := admits_of_connect hports h
    have hdangling : g.danglingEnds.filter (· ≠ .missingRequired c.targetNode c.targetPort) =
        g.danglingEnds := by
      refine List.filter_eq_self.mpr fun d hd => ?_
      obtain ⟨_, _, rfl | rfl⟩ := unknown_of_mem_danglingEnds hd <;> rfl
    have hfull : g.overfullPorts.filter (· ≠ .missingRequired c.targetNode c.targetPort) =
        g.overfullPorts := by
      refine List.filter_eq_self.mpr fun d hd => ?_
      obtain ⟨_, _, rfl⟩ := List.mem_map.mp hd
      rfl
    unfold defects
    rw [danglingEnds_withConnection hadmits, overfullPorts_withConnection hadmits,
      missingInputs_withConnection hports hadmits, hasDataCycle_withConnection hadmits]
    simp only [List.filter_append, hdangling, hfull]
    cases g.hasDataCycle <;> rfl
  refine ⟨fun d hd => ?_, hfilter⟩
  rw [hfilter] at hd
  exact List.mem_of_mem_filter hd

/-- Two nodes of one id, a circle of values, an overfull input, an unknown
source, and two missing inputs. -/
def wreck : Graph where
  id := "wreck"
  name := "Wreck"
  nodes := [⟨"x", "", [.output "x.out" "out" .number, .input "x.in" "in" .number]⟩,
    ⟨"y", "", [.output "y.out" "out" .number, .input "y.in" "in" .number]⟩,
    ⟨"x", "", [(Port.input "hidden" "in" .number).demanded]⟩,
    ⟨"z", "", [.output "z.out" "out" .number]⟩,
    ⟨"w", "", [(Port.input "w.in" "in" .number).demanded]⟩]
  connections := [⟨"x", "x.out", "y", "y.in"⟩, ⟨"y", "y.out", "x", "x.in"⟩,
    ⟨"z", "z.out", "y", "y.in"⟩, ⟨"nobody", "z.out", "y", "y.in"⟩]

theorem wreck_mended :
    wreck.defects = [.unknownNode "nobody", .capacityExceeded "y.in",
      .missingRequired "x" "hidden", .missingRequired "w" "w.in", .dataCycle] ∧
    (wreck.nodes.flatMap fun n => n.ports.map (·.id)).Nodup ∧
    ∃ g', wreck.connect ⟨"x", "x.out", "w", "w.in"⟩ = .ok g' ∧
      (∀ d ∈ g'.defects, d ∈ wreck.defects) ∧
      g'.defects = [.unknownNode "nobody", .capacityExceeded "y.in",
        .missingRequired "x" "hidden", .dataCycle] := by
  have hdefects : wreck.defects = [.unknownNode "nobody", .capacityExceeded "y.in",
      .missingRequired "x" "hidden", .missingRequired "w" "w.in", .dataCycle] := by decide +kernel
  have hports : (wreck.nodes.flatMap fun n => n.ports.map (·.id)).Nodup := by decide +kernel
  have hconnect : wreck.connect ⟨"x", "x.out", "w", "w.in"⟩ =
      .ok (wreck.withConnection ⟨"x", "x.out", "w", "w.in"⟩) := by decide +kernel
  obtain ⟨hsubset, hfilter⟩ := defects_of_connect hports hconnect
  refine ⟨hdefects, hports, _, hconnect, hsubset, ?_⟩
  rw [hfilter, hdefects]
  decide

end Flowchart.Graph
