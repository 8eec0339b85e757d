import Flowchart.Model.Tree
import Flowchart.Proofs.Graph.Control

/-! The departures from a node: the connections that control follows from there, and what arrives
along them. -/
namespace Flowchart

def Link.source? : Link → Option TokenId
  | .none => Option.none
  | .successorOf p | .childOf p => some p

namespace Graph

variable {g : Graph}

def arrivalAlong (g : Graph) (guards : List (String × String)) (id : TokenId) (c : Connection) :
    Arrival :=
  { node := c.targetNode, guards := guards ++ g.guardsOf c
    link := if g.goesOn c then .successorOf id else .childOf id }

theorem leaving?_flowOutput (h : g.WellFormed) {n : Node} (hn : n ∈ g.nodes) {p : Port}
    (hp : p ∈ n.flowOutputs) {c : Connection} (hc : g.leaving? p.id = some c) :
    c ∈ g.connections ∧ c.sourceNode = n.id ∧ c.sourcePort = p.id ∧
      g.goesOn c = decide (p.name = Library.nextName) := by
  have hmem := List.mem_of_mem_filter (List.mem_of_find?_eq_some hc)
  have hid : c.sourcePort = p.id := by simpa using List.find?_some hc
  have hpn := List.mem_of_mem_filter hp
  exact ⟨hmem, h.sourceNode_eq hn hpn hmem hid, hid, h.goesOn_eq hn hpn hid⟩

/-- The connections that control follows aside from a node: the first from each port. -/
def asides (g : Graph) (n : Node) : List Connection := n.aside.filterMap (g.leaving? ·.id)

/-- The connection that control goes on along from a node: the first from the last connected port. -/
def onwards (g : Graph) (n : Node) : List Connection :=
  (n.onward.filterMap (g.leaving? ·.id)).getLast?.toList

section Followed

variable {n : Node} {c : Connection} (h : g.WellFormed) (hn : n ∈ g.nodes)
include h hn

theorem of_mem_asides (hc : c ∈ g.asides n) : ∃ p ∈ n.flowOutputs, c ∈ g.connections ∧
    c.sourceNode = n.id ∧ c.sourcePort = p.id ∧ g.goesOn c = false := by
  obtain ⟨p, hp, hpc⟩ := List.mem_filterMap.mp hc
  obtain ⟨hpf, hname⟩ := List.mem_filter.mp hp
  obtain ⟨hmem, hnode, hport, hgoes⟩ := leaving?_flowOutput h hn hpf hpc
  exact ⟨p, hpf, hmem, hnode, hport, by simpa [hgoes] using hname⟩

theorem of_mem_onwards (hc : c ∈ g.onwards n) : ∃ p ∈ n.flowOutputs, c ∈ g.connections ∧
    c.sourceNode = n.id ∧ c.sourcePort = p.id ∧ g.goesOn c = true := by
  obtain ⟨p, hp, hpc⟩ := List.mem_filterMap.mp (List.mem_of_getLast? (Option.mem_toList.mp hc))
  obtain ⟨hpf, hname⟩ := List.mem_filter.mp hp
  obtain ⟨hmem, hnode, hport, hgoes⟩ := leaving?_flowOutput h hn hpf hpc
  exact ⟨p, hpf, hmem, hnode, hport, by simpa [hgoes] using hname⟩

theorem of_mem_followed (hc : c ∈ g.asides n ++ g.onwards n) : ∃ p ∈ n.flowOutputs,
    c ∈ g.connections ∧ c.sourceNode = n.id ∧ c.sourcePort = p.id := by
  rcases List.mem_append.mp hc with hc | hc
  · obtain ⟨p, hp, hmem, hnode, hport, _⟩ := of_mem_asides h hn hc
    exact ⟨p, hp, hmem, hnode, hport⟩
  · obtain ⟨p, hp, hmem, hnode, hport, _⟩ := of_mem_onwards h hn hc
    exact ⟨p, hp, hmem, hnode, hport⟩

/-- Control departs along the connections aside, in order, and then along the one onward. -/
theorem departures_eq (guards : List (String × String)) (id : TokenId) :
    g.departures n guards id = (g.asides n ++ g.onwards n).map (g.arrivalAlong guards id) := by
  have haside : n.aside.filterMap (fun p => (g.leaving? p.id).map fun c =>
        { node := c.targetNode, guards := guards ++ [(n.id, p.id)], link := .childOf id : Arrival }) =
      (g.asides n).map (g.arrivalAlong guards id) := by
    rw [asides, List.map_filterMap]
    refine List.filterMap_congr fun p hp => ?_
    obtain ⟨hpf, hname⟩ := List.mem_filter.mp hp
    cases hc : g.leaving? p.id with
    | none => rfl
    | some c =>
      obtain ⟨_, hnode, hport, hgoes⟩ := leaving?_flowOutput h hn hpf hc
      have hgoes' : g.goesOn c = false := by simpa [hgoes] using hname
      simp [arrivalAlong, guardsOf, hgoes', hnode, hport]
  have honward : n.onward.filterMap (fun p => (g.leaving? p.id).map fun c =>
        { node := c.targetNode, guards, link := .successorOf id : Arrival }) =
      (n.onward.filterMap (g.leaving? ·.id)).map (g.arrivalAlong guards id) := by
    rw [List.map_filterMap]
    refine List.filterMap_congr fun p hp => ?_
    obtain ⟨hpf, hname⟩ := List.mem_filter.mp hp
    cases hc : g.leaving? p.id with
    | none => rfl
    | some c =>
      obtain ⟨_, _, _, hgoes⟩ := leaving?_flowOutput h hn hpf hc
      have hgoes' : g.goesOn c = true := by simpa [hgoes] using hname
      simp [arrivalAlong, guardsOf, hgoes']
  have hnot : n.flowOutputs.filter (fun p => !decide (p.name = Library.nextName)) = n.aside :=
    List.filter_congr fun p _ => by simp
  unfold departures
  rw [List.partition_eq_filter_filter]
  change ((n.flowOutputs.filter fun p => !decide (p.name = Library.nextName)).filterMap _) ++
    (n.onward.filterMap _).getLast?.toList = _
  rw [hnot, haside, honward, List.getLast?_map, List.map_append, onwards]
  congr 1
  cases (n.onward.filterMap (g.leaving? ·.id)).getLast? <;> rfl

/-- Control that leaves a node's token departs along a connection from it. -/
theorem connection_of_departure {guards : List (String × String)} {id : TokenId} {a : Arrival}
    (ha : a ∈ g.departures n guards id) : ∃ c ∈ g.connections, g.carriesControl c = true ∧
      c.sourceNode = n.id ∧ a = g.arrivalAlong guards id c := by
  rw [departures_eq h hn, List.mem_map] at ha
  obtain ⟨c, hc, rfl⟩ := ha
  obtain ⟨p, hp, hmem, hnode, hport⟩ := of_mem_followed h hn hc
  exact ⟨c, hmem, (h.carriesControl_iff hmem hn hnode).mpr ⟨p, hp, hport⟩, hnode, rfl⟩

theorem filter_childOf (guards : List (String × String)) (id : TokenId) :
    (g.departures n guards id).filter (·.link = .childOf id) =
      (g.asides n).map (g.arrivalAlong guards id) := by
  rw [departures_eq h hn, List.map_append, List.filter_append, List.filter_eq_self.mpr,
    List.filter_eq_nil_iff.mpr, List.append_nil]
  · intro a ha
    obtain ⟨c, hc, rfl⟩ := List.mem_map.mp ha
    obtain ⟨_, _, _, _, _, hgoes⟩ := of_mem_onwards h hn hc
    simp [arrivalAlong, hgoes]
  · intro a ha
    obtain ⟨c, hc, rfl⟩ := List.mem_map.mp ha
    obtain ⟨_, _, _, _, _, hgoes⟩ := of_mem_asides h hn hc
    simp [arrivalAlong, hgoes]

theorem filter_successorOf (guards : List (String × String)) (id : TokenId) :
    (g.departures n guards id).filter (·.link = .successorOf id) =
      (g.onwards n).map (g.arrivalAlong guards id) := by
  rw [departures_eq h hn, List.map_append, List.filter_append, List.filter_eq_nil_iff.mpr,
    List.filter_eq_self.mpr, List.nil_append]
  · intro a ha
    obtain ⟨c, hc, rfl⟩ := List.mem_map.mp ha
    obtain ⟨_, _, _, _, _, hgoes⟩ := of_mem_onwards h hn hc
    simp [arrivalAlong, hgoes]
  · intro a ha
    obtain ⟨c, hc, rfl⟩ := List.mem_map.mp ha
    obtain ⟨_, _, _, _, _, hgoes⟩ := of_mem_asides h hn hc
    simp [arrivalAlong, hgoes]

/-- Control that departs twice from a token does so along different ways. -/
theorem nodup_departures (guards : List (String × String)) (id : TokenId) :
    (g.departures n guards id).Nodup := by
  have hports : (n.ports.map (·.id)).Nodup := (List.nodup_flatMap.mp h.ports_nodup).1 n hn
  have hids : (n.aside.map (·.id)).Nodup := hports.sublist
    ((List.filter_sublist.trans List.filter_sublist).map _)
  have hasides : (g.asides n).Nodup := by
    have hmap : g.asides n = (n.aside.map (·.id)).filterMap g.leaving? := by
      rw [asides, List.filterMap_map]
      rfl
    rw [hmap]
    refine hids.filterMap fun x y c hx hy => ?_
    have hx' : c.sourcePort = x := by simpa using List.find?_some hx
    have hy' : c.sourcePort = y := by simpa using List.find?_some hy
    rw [← hx', hy']
  rw [departures_eq h hn, List.map_append]
  refine List.nodup_append.mpr ⟨hasides.map_on ?_, ?_, ?_⟩
  · intro c hc d hd heq
    obtain ⟨p, hp, hpc⟩ := List.mem_filterMap.mp hc
    obtain ⟨q, hq, hqd⟩ := List.mem_filterMap.mp hd
    obtain ⟨_, _, _, _, hport, hgoes⟩ := of_mem_asides h hn hc
    obtain ⟨_, _, _, _, hport', hgoes'⟩ := of_mem_asides h hn hd
    have hguards : guards ++ g.guardsOf c = guards ++ g.guardsOf d := congrArg Arrival.guards heq
    have hports : c.sourcePort = d.sourcePort := by
      simpa [guardsOf, hgoes, hgoes'] using congrArg (List.map Prod.snd)
        (List.append_cancel_left hguards)
    have hpq : p.id = q.id := by
      have hp' : c.sourcePort = p.id := by simpa using List.find?_some hpc
      have hq' : d.sourcePort = q.id := by simpa using List.find?_some hqd
      rw [← hp', ← hq', hports]
    rw [hpq, hqd] at hpc
    exact (Option.some.inj hpc).symm
  · rw [onwards]
    cases (n.onward.filterMap (g.leaving? ·.id)).getLast? <;> simp
  · intro a ha b hb hab
    obtain ⟨c, hc, rfl⟩ := List.mem_map.mp ha
    obtain ⟨d, hd, rfl⟩ := List.mem_map.mp hb
    obtain ⟨_, _, _, _, _, hgoes⟩ := of_mem_asides h hn hc
    obtain ⟨_, _, _, _, _, hgoes'⟩ := of_mem_onwards h hn hd
    have hlink := congrArg Arrival.link hab
    simp [arrivalAlong, hgoes, hgoes'] at hlink

end Followed

theorem link_of_arrivalAlong {guards : List (String × String)} {id : TokenId} {c : Connection} :
    (g.arrivalAlong guards id c).link.source? = some id := by
  unfold arrivalAlong
  split <;> rfl

theorem filter_departures (h : g.WellFormed) {n : Node} (hn : n ∈ g.nodes)
    (guards : List (String × String)) (id : TokenId) (source : Option TokenId) :
    (g.departures n guards id).filter (·.link.source? = source) =
      if source = some id then g.departures n guards id else [] := by
  have hall : ∀ a ∈ g.departures n guards id, a.link.source? = some id := by
    intro a ha
    rw [departures_eq h hn, List.mem_map] at ha
    obtain ⟨c, _, rfl⟩ := ha
    exact link_of_arrivalAlong
  split
  · next hs =>
    refine List.filter_eq_self.mpr fun a ha => ?_
    simp [hall a ha, hs]
  · next hs =>
    refine List.filter_eq_nil_iff.mpr fun a ha => ?_
    simpa [hall a ha] using Ne.symm hs

end Graph

end Flowchart
