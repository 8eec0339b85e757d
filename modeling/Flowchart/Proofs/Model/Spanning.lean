import Flowchart.Proofs.Graph.History
import Flowchart.Proofs.Model.Survey

/-! The token tree from a start spans just what control reaches, if control enters every node there
as it should, and else names a node that it enters otherwise. -/
namespace Flowchart

theorem map_fst_filter_zipIdx {α : Type} (l : List α) (select : α → Bool) :
    (l.zipIdx.filter (select ·.1)).map (·.1) = l.filter select := by
  conv_rhs => rw [← List.zipIdx_map_fst 0 l]
  rw [List.filter_map]
  rfl

def TokenTree.nodeAt? (t : TokenTree NodeToken) (id : TokenId) : Option String :=
  t.slots[id]?.map (·.token.node)

theorem TokenTree.nodeAt?_eq_tokens (t : TokenTree NodeToken) (id : TokenId) :
    t.nodeAt? id = t.tokens[id]?.map (·.node) := by
  rw [nodeAt?, tokens, List.getElem?_map, Array.getElem?_toList, Option.map_map]
  rfl

namespace Graph

variable {g : Graph} {start : String} {unseen : List Node} {landed : List Landing}
  {ahead : List Arrival} {a : Arrival} {t : TokenTree NodeToken}

/-- Control leaves each port one way and goes on from a node through one port. -/
structure Unforked (g : Graph) : Prop where
  single : ∀ n ∈ g.nodes, ∀ p ∈ n.flowOutputs, p.capacity = .single
  onward : ∀ n ∈ g.nodes, n.onward.length ≤ 1

/-- The tree has a linked and guarded token for each node that control reaches. -/
structure Spanned (g : Graph) (start : String) (t : TokenTree NodeToken) : Prop where
  nodup : (t.tokens.map (·.node)).Nodup
  mem_iff : ∀ id, id ∈ t.tokens.map (·.node) ↔ g.Reached start id
  root : t.root.bind t.nodeAt? = some start
  links : ∀ (i : TokenId) (s : TokenSlot NodeToken), t.slots[i]? = some s →
    ∃ n, g.node? s.token.node = some n ∧
      s.successor.toList.map t.nodeAt? = (n.onward.flatMap g.targets).map some ∧
        s.children.map t.nodeAt? = (n.aside.flatMap g.targets).map some
  guards : ∀ token ∈ t.tokens, ∃ path, token.guards = g.guardsAlong path ∧
    ∀ path', g.ControlPath start path' token.node ↔ path' = path

namespace Unforked

variable (hw : g.WellFormed) (hu : g.Unforked)
include hw hu

theorem eq_of_sourcePort {c d : Connection} (hc : c ∈ g.connections) (hd : d ∈ g.connections)
    (hcarries : g.carriesControl c = true) (hport : c.sourcePort = d.sourcePort) : c = d := by
  obtain ⟨_, _, _, ⟨⟨n, hn, hid, _⟩, _⟩, _⟩ := hw.fits c hc
  obtain ⟨p, hp, hpc⟩ := (hw.carriesControl_iff hc hn hid.symm).mp hcarries
  refine hw.single n hn p (List.mem_of_mem_filter hp) (hu.single n hn p hp) c hc d hd ?_ ?_
  · simp [Connection.touchesPort, hpc]
  · simp [Connection.touchesPort, ← hport, hpc]

theorem connections_eq {n : Node} (hn : n ∈ g.nodes) {ports : List Port}
    (hports : ∀ p ∈ ports, p ∈ n.flowOutputs) : ports.filterMap (g.leaving? ·.id) =
      ports.flatMap fun p => g.connections.filter (·.sourcePort = p.id) := by
  rw [List.filterMap_eq_flatMap_toList]
  refine List.flatMap_congr fun p hp => ?_
  have hpf := hports p hp
  exact hw.leaving?_toList hn (List.mem_of_mem_filter hpf) (hu.single n hn p hpf)

theorem asides_eq {n : Node} (hn : n ∈ g.nodes) :
    g.asides n = n.aside.flatMap fun p => g.connections.filter (·.sourcePort = p.id) :=
  connections_eq hw hu hn fun _ hp => List.mem_of_mem_filter hp

theorem onwards_eq {n : Node} (hn : n ∈ g.nodes) :
    g.onwards n = n.onward.flatMap fun p => g.connections.filter (·.sourcePort = p.id) := by
  rw [onwards, getLast?_toList ((List.length_filterMap_le _ _).trans (hu.onward n hn))]
  exact connections_eq hw hu hn fun _ hp => List.mem_of_mem_filter hp

/-- Control departs from a node along every connection that carries it from there. -/
theorem mem_departures {n : Node} (hn : n ∈ g.nodes) {c : Connection} (hc : c ∈ g.connections)
    (hcarries : g.carriesControl c = true) (hnode : c.sourceNode = n.id)
    (guards : List (String × String)) (id : TokenId) :
    g.arrivalAlong guards id c ∈ g.departures n guards id := by
  obtain ⟨p, hp, hport⟩ := (hw.carriesControl_iff hc hn hnode).mp hcarries
  rw [departures_eq hw hn]
  refine List.mem_map_of_mem ?_
  rw [asides_eq hw hu hn, onwards_eq hw hu hn, ← List.flatMap_append, List.mem_flatMap]
  refine ⟨p, ?_, List.mem_filter.mpr ⟨hc, by simpa using hport⟩⟩
  by_cases hname : p.name = Library.nextName
  · exact List.mem_append_right _ (List.mem_filter.mpr ⟨hp, by simpa using hname⟩)
  · exact List.mem_append_left _ (List.mem_filter.mpr ⟨hp, by simpa using hname⟩)

theorem arrivalAlong_inj {c d : Connection} (hc : c ∈ g.connections) (hd : d ∈ g.connections)
    (hcc : g.carriesControl c = true) (hcd : g.carriesControl d = true)
    (hnode : c.sourceNode = d.sourceNode) {guards : List (String × String)} {id : TokenId}
    (heq : g.arrivalAlong guards id c = g.arrivalAlong guards id d) : c = d := by
  refine eq_of_sourcePort hw hu hc hd hcc ?_
  obtain ⟨_, _, _, ⟨⟨n, hn, hid, _⟩, _⟩, _⟩ := hw.fits c hc
  obtain ⟨p, hp, hpc⟩ := (hw.carriesControl_iff hc hn hid.symm).mp hcc
  obtain ⟨q, hq, hqd⟩ := (hw.carriesControl_iff hd hn (hnode.symm.trans hid.symm)).mp hcd
  have hgoesc := hw.goesOn_eq hn (List.mem_of_mem_filter hp) hpc
  have hgoesd := hw.goesOn_eq hn (List.mem_of_mem_filter hq) hqd
  have hguards : guards ++ g.guardsOf c = guards ++ g.guardsOf d := congrArg Arrival.guards heq
  have hsame : g.guardsOf c = g.guardsOf d := List.append_cancel_left hguards
  by_cases hpn : p.name = Library.nextName
  · -- Control goes on along both, through the one port there is for that.
    have hqn : q.name = Library.nextName := by
      by_contra hqn
      simp [guardsOf, hgoesc, hgoesd, hpn, hqn] at hsame
    have hpo : p ∈ n.onward := List.mem_filter.mpr ⟨hp, by simpa using hpn⟩
    have hqo : q ∈ n.onward := List.mem_filter.mpr ⟨hq, by simpa using hqn⟩
    have hone : n.onward.length = 1 :=
      Nat.le_antisymm (hu.onward n hn) (List.length_pos_of_mem hpo)
    obtain ⟨r, hr⟩ := List.length_eq_one_iff.mp hone
    rw [hr, List.mem_singleton] at hpo hqo
    rw [hpc, hqd, hpo, hqo]
  · have hqn : q.name ≠ Library.nextName := by
      intro hqn
      simp [guardsOf, hgoesc, hgoesd, hpn, hqn] at hsame
    simpa [guardsOf, hgoesc, hgoesd, hpn, hqn, hnode] using hsame

end Unforked

namespace Survey

theorem reached (h : g.Survey start unseen landed ahead t) {b : Arrival}
    (hb : b ∈ landed.map (·.arrival) ++ ahead) : g.Reached start b.node := by
  obtain ⟨path, hpath, _⟩ := h.traced b hb
  exact ⟨path, hpath⟩

theorem nodup (hw : g.WellFormed) (h : g.Survey start unseen landed ahead t) :
    (landed.map (·.arrival) ++ ahead).Nodup := by
  rw [List.nodup_iff_count_le_one]
  intro b
  rw [← List.count_filter (p := (·.link.source? = b.link.source?)) (by simp), h.sorted]
  refine List.nodup_iff_count_le_one.mp ?_ b
  cases b.link.source? with
  | none => exact List.nodup_singleton _
  | some i =>
    cases hl : landed[i]? with
    | none =>
      rw [arrivalsFrom_of_le (List.getElem?_eq_none_iff.mp hl)]
      exact List.nodup_nil
    | some l =>
      rw [arrivalsFrom_of_getElem? _ hl]
      exact nodup_departures hw (h.named l (List.mem_of_getElem? hl)).1 _ _

/-- An arrival is the one that control starts with or comes along a connection that enters. -/
theorem start_or_enters (hw : g.WellFormed) (h : g.Survey start unseen landed ahead t) {b : Arrival}
    (hb : b ∈ landed.map (·.arrival) ++ ahead) :
    b = { node := start } ∨ ∃ i l c, landed[i]? = some l ∧ g.Enters start b.node c ∧
      c.sourceNode = l.arrival.node ∧ b = g.arrivalAlong l.arrival.guards i c := by
  have hmem : b ∈ g.arrivalsFrom start landed b.link.source? := by
    rw [← h.sorted]
    exact List.mem_filter.mpr ⟨hb, by simp⟩
  cases hs : b.link.source? with
  | none =>
    rw [hs] at hmem
    exact .inl (List.mem_singleton.mp hmem)
  | some i =>
    rw [hs] at hmem
    cases hl : landed[i]? with
    | none =>
      rw [arrivalsFrom_of_le (List.getElem?_eq_none_iff.mp hl)] at hmem
      cases hmem
    | some l =>
      rw [arrivalsFrom_of_getElem? _ hl] at hmem
      obtain ⟨hn, hid⟩ := h.named l (List.mem_of_getElem? hl)
      obtain ⟨c, hc, hcarries, hnode, rfl⟩ := connection_of_departure hw hn hmem
      rw [hid] at hnode
      have hsource : g.Reached start c.sourceNode := hnode ▸
        h.reached (List.mem_append_left _ (List.mem_map_of_mem (List.mem_of_getElem? hl)))
      exact .inr ⟨i, l, c, hl, ⟨hc, hcarries, hsource, rfl⟩, hnode, rfl⟩

theorem place_unique (h : g.Survey start unseen landed ahead t) {i j : Nat} {l l' : Landing}
    (hl : landed[i]? = some l) (hl' : landed[j]? = some l')
    (hnode : l.arrival.node = l'.arrival.node) : i = j := by
  have hi : (landed.map (·.arrival.node))[i]? = some l.arrival.node := by
    rw [List.getElem?_map, hl]
    rfl
  have hj : (landed.map (·.arrival.node))[j]? = some l.arrival.node := by
    rw [List.getElem?_map, hl', hnode]
    rfl
  have hlt := (List.getElem?_eq_some_iff.mp hi).1
  exact (List.getElem?_inj hlt h.once).mp (hi.trans hj.symm)

/-- An arrival at a node where control has landed shows that control does
not enter it as it should. -/
theorem not_enteredOnce (hw : g.WellFormed) (h : g.Survey start unseen landed (a :: ahead) t)
    (ha : a.node ∈ landed.map (·.arrival.node)) : ¬ g.EnteredOnce start a.node := by
  obtain ⟨l, hl, hnode⟩ := List.mem_map.mp ha
  have hlanded : l.arrival ∈ landed.map (·.arrival) := List.mem_map_of_mem hl
  have hne : l.arrival ≠ a := by
    intro heq
    have := (List.nodup_append.mp (h.nodup hw)).2.2 _ hlanded a List.mem_cons_self
    exact this heq
  intro honce
  unfold EnteredOnce at honce
  have hfirst := h.start_or_enters hw (b := l.arrival) (List.mem_append_left _ hlanded)
  have hagain := h.start_or_enters hw (b := a) (by simp)
  rw [hnode] at hfirst
  rcases hfirst with hfirst | ⟨i, m, c, hm, hc, hcm, hfirst⟩ <;>
    rcases hagain with hagain | ⟨j, m', d, hm', hd, hdm, hagain⟩
  · exact hne (hfirst.trans hagain.symm)
  · rw [if_pos (hnode ▸ hfirst ▸ rfl)] at honce
    exact honce d hd
  · rw [if_pos (hagain ▸ rfl)] at honce
    exact honce c hc
  · split at honce
    · exact honce c hc
    · have hcd : c = d := honce.unique hc hd
      subst hcd
      have hij := h.place_unique hm hm' (hcm.symm.trans hdm)
      subst hij
      rw [hm] at hm'
      cases hm'
      exact hne (hfirst.trans hagain.symm)

theorem start_landed (h : g.Survey start unseen landed [] t) :
    ({ node := start } : Arrival) ∈ landed.map (·.arrival) := by
  have hmem : ({ node := start } : Arrival) ∈ g.arrivalsFrom start landed none :=
    List.mem_singleton_self _
  rw [← h.sorted, List.append_nil] at hmem
  exact List.mem_of_mem_filter hmem

section Complete

variable (hw : g.WellFormed) (hu : g.Unforked) (h : g.Survey start unseen landed [] t)
include hw hu h

theorem landed_of_connection {i : TokenId} {l : Landing} (hl : landed[i]? = some l) {c : Connection}
    (hc : c ∈ g.connections) (hcarries : g.carriesControl c = true)
    (hnode : c.sourceNode = l.arrival.node) :
    g.arrivalAlong l.arrival.guards i c ∈ landed.map (·.arrival) := by
  obtain ⟨hn, hid⟩ := h.named l (List.mem_of_getElem? hl)
  have hmem := hu.mem_departures hw hn hc hcarries (hnode.trans hid.symm) l.arrival.guards i
  rw [← arrivalsFrom_of_getElem? start hl, ← h.sorted, List.append_nil] at hmem
  exact List.mem_of_mem_filter hmem

/-- Control has landed at just the nodes that it reaches. -/
theorem landed_iff (id : String) : id ∈ landed.map (·.arrival.node) ↔ g.Reached start id := by
  constructor
  · intro hid
    obtain ⟨l, hl, rfl⟩ := List.mem_map.mp hid
    exact h.reached (List.mem_append_left _ (List.mem_map_of_mem hl))
  · rintro ⟨path, hpath⟩
    have hlanded : ∀ b ∈ landed.map (·.arrival), b.node ∈ landed.map (·.arrival.node) := by
      intro b hb
      obtain ⟨l, hl, rfl⟩ := List.mem_map.mp hb
      exact List.mem_map_of_mem hl
    induction hpath with
    | nil => exact hlanded _ h.start_landed
    | snoc _ hc hcarries ih =>
      obtain ⟨l, hl, hnode⟩ := List.mem_map.mp ih
      obtain ⟨i, hi⟩ := List.getElem?_of_mem hl
      exact hlanded _ (landed_of_connection hw hu h hi hc hcarries hnode.symm)

theorem enteredOnce {id : String} (hid : g.Reached start id) : g.EnteredOnce start id := by
  -- The arrival along a connection that enters a node has landed, like any other at that node.
  have hlands : ∀ {x c}, g.Enters start x c → ∃ i l, landed[i]? = some l ∧
      c.sourceNode = l.arrival.node ∧
        g.arrivalAlong l.arrival.guards i c ∈ landed.map (·.arrival) := by
    intro x c hc
    obtain ⟨l, hl, hnode⟩ := List.mem_map.mp ((landed_iff hw hu h _).mpr hc.source)
    obtain ⟨i, hi⟩ := List.getElem?_of_mem hl
    exact ⟨i, l, hi, hnode.symm, landed_of_connection hw hu h hi hc.mem hc.carries hnode.symm⟩
  have hsame : ∀ a ∈ landed.map (·.arrival), ∀ b ∈ landed.map (·.arrival), a.node = b.node →
      a = b := by
    intro a ha b hb hab
    obtain ⟨l, hl, rfl⟩ := List.mem_map.mp ha
    obtain ⟨l', hl', rfl⟩ := List.mem_map.mp hb
    rw [List.inj_on_of_nodup_map h.once hl hl' hab]
  unfold EnteredOnce
  split
  · next heq =>
    subst heq
    intro c hc
    obtain ⟨i, l, _, _, hmem⟩ := hlands hc
    have heq := hsame _ hmem _ h.start_landed hc.target
    have hsource := congrArg (·.link.source?) heq
    rw [link_of_arrivalAlong] at hsource
    cases hsource
  · next hne =>
    obtain ⟨path, hpath⟩ := hid
    rcases hpath.eq_nil_or_snoc with ⟨_, heq⟩ | ⟨_, c, _, hc, _⟩
    · exact absurd heq hne
    · refine ⟨c, hc, fun d hd => ?_⟩
      obtain ⟨i, l, hl, hcl, hcmem⟩ := hlands hc
      obtain ⟨j, l', hl', hdl, hdmem⟩ := hlands hd
      have heq := hsame _ hdmem _ hcmem (hd.target.trans hc.target.symm)
      have hij : some j = some i := by
        rw [← link_of_arrivalAlong (g := g), heq, link_of_arrivalAlong]
      cases hij
      rw [hl] at hl'
      cases hl'
      exact hu.arrivalAlong_inj hw hd.mem hc.mem hd.carries hc.carries (hdl.trans hcl.symm) heq

end Complete

section Slots

variable (h : g.Survey start unseen landed [] t)
include h

theorem tokens_eq : t.tokens = landed.map (·.token) := by
  apply List.ext_getElem?
  intro i
  rw [TokenTree.tokens, List.getElem?_map, Array.getElem?_toList, h.slots, List.getElem?_map,
    Option.map_map]
  refine congrFun (congrArg Option.map (funext fun l => ?_)) _
  exact TokenSlot.token_extend

theorem nodeAt?_eq (i : TokenId) : t.nodeAt? i = landed[i]?.map (·.arrival.node) := by
  rw [TokenTree.nodeAt?, h.slots, Option.map_map]
  refine congrFun (congrArg Option.map (funext fun l => ?_)) _
  exact congrArg NodeToken.node TokenSlot.token_extend

/-- The tokens of some of the arrivals are those of their nodes. -/
theorem nodeAt?_places (select : Arrival → Bool) :
    (((landed.map (·.arrival)).zipIdx.filter (select ·.1)).map (·.2)).map t.nodeAt? =
      ((landed.map (·.arrival)).filter select).map fun a => some a.node := by
  rw [← map_fst_filter_zipIdx (landed.map (·.arrival)), List.map_map, List.map_map]
  refine List.map_congr_left fun x hx => ?_
  have hmem := List.mem_zipIdx_iff_getElem?.mp (List.mem_of_mem_filter hx)
  rw [List.getElem?_map] at hmem
  obtain ⟨l, hl, hx⟩ := Option.map_eq_some_iff.mp hmem
  simp [h.nodeAt?_eq, hl, ← hx]

/-- A token is linked to those of the nodes that control follows connections to from its node. -/
theorem links (hw : g.WellFormed) {i : TokenId} {s : TokenSlot NodeToken} (hs : t.slots[i]? = some s) :
    ∃ n, g.node? s.token.node = some n ∧ s.successor.toList.map t.nodeAt? =
      (g.onwards n).map (some ·.targetNode) ∧
        s.children.map t.nodeAt? = (g.asides n).map (some ·.targetNode) := by
  rw [h.slots, Option.map_eq_some_iff] at hs
  obtain ⟨l, hl, rfl⟩ := hs
  obtain ⟨hn, hid⟩ := h.named l (List.mem_of_getElem? hl)
  have hfrom : (landed.map (·.arrival)).filter (·.link.source? = some i) =
      g.departures l.node l.arrival.guards i := by
    rw [← arrivalsFrom_of_getElem? start hl, ← h.sorted, List.append_nil]
  have hlinked : ∀ link : Link, link.source? = some i →
      (landed.map (·.arrival)).filter (·.link = link) =
        (g.departures l.node l.arrival.guards i).filter (·.link = link) := by
    intro link hlink
    rw [← hfrom, List.filter_filter]
    refine List.filter_congr fun a _ => ?_
    by_cases ha : a.link = link <;> simp [ha, hlink]
  refine ⟨l.node, ?_, ?_, ?_⟩
  · rw [TokenSlot.token_extend]
    exact (node?_eq_some_iff hw.nodes_nodup).mpr ⟨hn, hid⟩
  · have honwards : (g.onwards l.node).length ≤ 1 := Option.length_toList_le
    have hle : (((landed.map (·.arrival)).zipIdx.filter (·.1.link = .successorOf i)).map
        (·.2)).length ≤ 1 := by
      rw [List.length_map, ← List.length_map (·.1),
        map_fst_filter_zipIdx _ fun a : Arrival => decide (a.link = .successorOf i), hlinked _ rfl,
        filter_successorOf hw hn, List.length_map]
      exact honwards
    rw [TokenSlot.successor_extend, Option.or_none, ← List.getLast?_map, getLast?_toList hle,
      h.nodeAt?_places (·.link = .successorOf i), hlinked _ rfl, filter_successorOf hw hn,
      List.map_map]
    rfl
  · rw [TokenSlot.children_extend, List.nil_append, h.nodeAt?_places (·.link = .childOf i),
      hlinked _ rfl, filter_childOf hw hn, List.map_map]
    rfl

end Slots

theorem spanned (hw : g.WellFormed) (hu : g.Unforked) (h : g.Survey start unseen landed [] t)
    (hroot : t.root.bind t.nodeAt? = some start) : g.Spanned start t := by
  have hnodes : t.tokens.map (·.node) = landed.map (·.arrival.node) := by
    rw [h.tokens_eq, List.map_map]
    rfl
  constructor
  case nodup => exact hnodes ▸ h.once
  case mem_iff =>
    intro id
    rw [hnodes]
    exact h.landed_iff hw hu id
  case root => exact hroot
  case links =>
    intro i s hs
    obtain ⟨n, hn, hsuccessor, hchildren⟩ := h.links hw hs
    have hmem := ((node?_eq_some_iff hw.nodes_nodup).mp hn).1
    refine ⟨n, hn, ?_, ?_⟩
    · rw [hsuccessor, hu.onwards_eq hw hmem]
      simp [targets, List.map_flatMap, Function.comp_def]
    · rw [hchildren, hu.asides_eq hw hmem]
      simp [targets, List.map_flatMap, Function.comp_def]
  case guards =>
    intro token htoken
    rw [h.tokens_eq] at htoken
    obtain ⟨l, hl, rfl⟩ := List.mem_map.mp htoken
    obtain ⟨path, hpath, hguards⟩ := h.traced l.arrival (by simpa using ⟨l, hl, rfl⟩)
    refine ⟨path, hguards, fun path' => ⟨fun hpath' => ?_, fun heq => heq ▸ hpath⟩⟩
    exact hpath'.unique (fun id hid => h.enteredOnce hw hu hid) hpath

end Survey

/-- A token tree grows just if control enters every node it reaches as it should. -/
theorem tokenTree_ok_iff (hw : g.WellFormed) (hu : g.Unforked) (hstart : (g.node? start).isSome) :
    (∃ t, g.tokenTree start = .ok t) ↔ ∀ id, g.Reached start id → g.EnteredOnce start id := by
  constructor
  · rintro ⟨t, ht⟩ id hid
    obtain ⟨_, _, h⟩ := (Survey.begin g start).grow_ok hw ht
    exact h.enteredOnce hw hu hid
  · intro honce
    cases ht : g.tokenTree start with
    | ok t => exact ⟨t, rfl⟩
    | error f =>
      obtain ⟨_, _, a, _, _, h, ⟨hlanded, _⟩ | ⟨hunknown, _⟩⟩ :=
        (Survey.begin g start).grow_error hw ht
      · exact absurd (honce a.node (h.reached (by simp))) (h.not_enteredOnce hw hlanded)
      · have := hw.isSome_of_reached hstart (h.reached (b := a) (by simp))
        rw [hunknown] at this
        cases this

/-- A token tree that does not grow from a node names one that control enters otherwise. -/
theorem tokenTree_error (hw : g.WellFormed) (hstart : (g.node? start).isSome) {f : Fault}
    (hf : g.tokenTree start = .error f) :
    ∃ id, g.Reached start id ∧ ¬ g.EnteredOnce start id ∧ f = .duplicateFlowPath id := by
  obtain ⟨_, _, a, _, _, h, ⟨hlanded, hfault⟩ | ⟨hunknown, _⟩⟩ :=
    (Survey.begin g start).grow_error hw hf
  · exact ⟨a.node, h.reached (by simp), h.not_enteredOnce hw hlanded, hfault⟩
  · have := hw.isSome_of_reached hstart (h.reached (b := a) (by simp))
    rw [hunknown] at this
    cases this

theorem tokenTree_spanned (hw : g.WellFormed) (hu : g.Unforked) (ht : g.tokenTree start = .ok t) :
    g.Spanned start t := by
  obtain ⟨_, _, h⟩ := (Survey.begin g start).grow_ok hw ht
  obtain ⟨_, hroot, hlaid, _⟩ := tokenTree_walk ht
  refine h.spanned hw hu ?_
  cases hl : t.tokens with
  | nil =>
    rw [hl] at hlaid
    cases hlaid
  | cons token tokens =>
    rw [hl] at hlaid
    cases hlaid
    rw [hroot, Option.bind_some, TokenTree.nodeAt?_eq_tokens, hl]
    rfl

theorem tokenTree_unknown (hstart : g.node? start = none) :
    g.tokenTree start = .error (.nodeNotFound start) := by
  unfold tokenTree grow
  split
  · next h =>
    rw [if_neg (by simp [hstart])]
    rfl
  · next n h => cases hstart.symm.trans h

end Graph

namespace Model

variable {m : Model}

/-- The tree of a graph that edits made spans what control reaches, or a
node entered otherwise is named. -/
theorem tokenTree_spans
    (hedits : ∃ id name edits, Graph.ofEdits id name edits = m.graph) (hu : m.graph.Unforked)
    (start : String) :
    (m.graph.node? start = none → m.tokenTree start = .error (.nodeNotFound start)) ∧
      ((m.graph.node? start).isSome →
        ((∃ t, m.tokenTree start = .ok t) ↔
          ∀ id, m.graph.Reached start id → m.graph.EnteredOnce start id) ∧
        (∀ f, m.tokenTree start = .error f →
          ∃ id, m.graph.Reached start id ∧ ¬ m.graph.EnteredOnce start id ∧
            f = .duplicateFlowPath id) ∧
        ∀ t, m.tokenTree start = .ok t → ∃ u, m.graph.tokenTree start = .ok u ∧
          t = u.map (·.token m) ∧ t.tokens.map (·.label) = u.tokens.map (·.node) ∧
            m.graph.Spanned start u) := by
  obtain ⟨id, name, edits, heq⟩ := hedits
  have hw : m.graph.WellFormed := heq ▸ .ofEdits id name edits
  unfold tokenTree
  refine ⟨fun hnone => ?_, fun hsome => ⟨?_, fun f hf => ?_, fun t ht => ?_⟩⟩
  · rw [Graph.tokenTree_unknown hnone]
    rfl
  · rw [← Graph.tokenTree_ok_iff hw hu hsome]
    cases m.graph.tokenTree start <;> simp [Except.map]
  · cases hgrown : m.graph.tokenTree start with
    | ok u => simp [hgrown, Except.map] at hf
    | error f' =>
      rw [hgrown] at hf
      cases hf
      exact Graph.tokenTree_error hw hsome hgrown
  · cases hgrown : m.graph.tokenTree start with
    | error f' => simp [hgrown, Except.map] at ht
    | ok u =>
      rw [hgrown] at ht
      cases ht
      refine ⟨u, rfl, rfl, ?_, Graph.tokenTree_spanned hw hu hgrown⟩
      rw [TokenTree.tokens_map, List.map_map]
      rfl

/-- A branch behind a port of another, with a node behind one of its ports
and one that follows the first. -/
def nesting : Model where
  graph :=
    { id := "nesting", name := "Nesting"
      nodes := [Library.branch "ask", Library.branch "again", Library.print "say",
        Library.print "done"]
      connections := [⟨"ask", "ask.next", "done", "done.exec"⟩,
        ⟨"ask", "ask.true", "again", "again.exec"⟩, ⟨"again", "again.false", "say", "say.exec"⟩] }
  behaviours := [("ask", .branch), ("again", .branch), ("say", .print), ("done", .print)]

theorem nesting_spans : ∃ t u, nesting.tokenTree "ask" = .ok t ∧ t = u.map (·.token nesting) ∧
    nesting.graph.Spanned "ask" u ∧ u.tokens = [⟨"ask", []⟩, ⟨"again", [("ask", "ask.true")]⟩,
      ⟨"say", [("ask", "ask.true"), ("again", "again.false")]⟩, ⟨"done", []⟩] := by
  have hedits : Graph.ofEdits "nesting" "Nesting"
      [.addNode (Library.branch "ask"), .addNode (Library.branch "again"),
        .addNode (Library.print "say"), .addNode (Library.print "done"),
        .connect ⟨"ask", "ask.next", "done", "done.exec"⟩,
        .connect ⟨"ask", "ask.true", "again", "again.exec"⟩,
        .connect ⟨"again", "again.false", "say", "say.exec"⟩] = nesting.graph := by decide +kernel
  have hu : nesting.graph.Unforked := by
    constructor
    · decide +kernel
    · decide +kernel
  have htokens : (nesting.graph.tokenTree "ask").map TokenTree.tokens =
      .ok [⟨"ask", []⟩, ⟨"again", [("ask", "ask.true")]⟩,
        ⟨"say", [("ask", "ask.true"), ("again", "again.false")]⟩, ⟨"done", []⟩] := by
    decide +kernel
  obtain ⟨_, hspans⟩ := tokenTree_spans ⟨_, _, _, hedits⟩ hu "ask"
  obtain ⟨_, _, hok⟩ := hspans (by decide +kernel)
  cases hgrown : nesting.graph.tokenTree "ask" with
  | error f =>
    rw [hgrown] at htokens
    cases htokens
  | ok v =>
    have htree : nesting.tokenTree "ask" = .ok (v.map (·.token nesting)) := by
      rw [tokenTree, hgrown]
      rfl
    obtain ⟨u, hu, heq, _, hspanned⟩ := hok _ htree
    rw [hgrown] at hu htokens
    cases hu
    exact ⟨_, v, htree, heq, hspanned, Except.ok.inj htokens⟩

end Model

end Flowchart
