import Flowchart.Proofs.Model.Spanning

/-! Which connections the growth of a token tree follows from a node, where several leave one port or
ports of one name: one of them for each place in the tree, and the others are passed over. -/
namespace Flowchart

/-- The token in a slot has that of a node as its successor or among its children. -/
def TokenTree.LinksTo (t : TokenTree NodeToken) (s : TokenSlot NodeToken) (node : String) : Prop :=
  ∃ j, t.nodeAt? j = some node ∧ (s.successor = some j ∨ j ∈ s.children)

namespace Graph

variable {g : Graph} {start : String} {t : TokenTree NodeToken}

/-- In place of each connection that control passes along one from the same
port, or onward as well, is followed. -/
theorem exists_followed (hw : g.WellFormed) {n : Node} (hn : n ∈ g.nodes) {c : Connection}
    (hc : c ∈ g.connections) (hcarries : g.carriesControl c = true) (hnode : c.sourceNode = n.id) :
    ∃ d ∈ g.asides n ++ g.onwards n, d.sourcePort = c.sourcePort ∨
      g.goesOn c = true ∧ g.goesOn d = true := by
  obtain ⟨p, hp, hport⟩ := (hw.carriesControl_iff hc hn hnode).mp hcarries
  have hsome : (g.leaving? p.id).isSome := by
    unfold leaving? connectionsOf
    rw [List.find?_isSome]
    exact ⟨c, List.mem_filter.mpr ⟨hc, by simp [Connection.touchesPort, hport]⟩, by simp [hport]⟩
  obtain ⟨d, hd⟩ := Option.isSome_iff_exists.mp hsome
  obtain ⟨_, _, hdport, hdgoes⟩ := leaving?_flowOutput hw hn hp hd
  by_cases hname : p.name = Library.nextName
  · -- The last connected port counts, whichever port it is.
    have hmem : d ∈ n.onward.filterMap (g.leaving? ·.id) :=
      List.mem_filterMap.mpr ⟨p, List.mem_filter.mpr ⟨hp, by simpa using hname⟩, hd⟩
    obtain ⟨e, he⟩ : ∃ e, e ∈ g.onwards n := by
      unfold onwards
      cases hlast : (n.onward.filterMap (g.leaving? ·.id)).getLast? with
      | none =>
        rw [List.getLast?_eq_none_iff.mp hlast] at hmem
        cases hmem
      | some e => exact ⟨e, by simp⟩
    obtain ⟨_, _, _, _, _, hegoes⟩ := of_mem_onwards hw hn he
    refine ⟨e, List.mem_append_right _ he, .inr ⟨?_, hegoes⟩⟩
    rw [hw.goesOn_eq hn (List.mem_of_mem_filter hp) hport]
    simpa using hname
  · have hmem : d ∈ g.asides n :=
      List.mem_filterMap.mpr ⟨p, List.mem_filter.mpr ⟨hp, by simpa using hname⟩, hd⟩
    exact ⟨d, List.mem_append_left _ hmem, .inl (hdport.trans hport.symm)⟩

namespace Survey

variable {unseen : List Node} {landed : List Landing}

theorem linksTo (hw : g.WellFormed) (h : g.Survey start unseen landed [] t) {i : TokenId}
    {s : TokenSlot NodeToken} (hs : t.slots[i]? = some s) {n : Node}
    (hn : g.node? s.token.node = some n) {d : Connection} (hd : d ∈ g.asides n ++ g.onwards n) :
    t.LinksTo s d.targetNode := by
  obtain ⟨m, hm, hsuccessor, hchildren⟩ := h.links hw hs
  rw [hn] at hm
  cases hm
  rcases List.mem_append.mp hd with hd | hd
  · have hmem : some d.targetNode ∈ s.children.map t.nodeAt? := hchildren ▸ List.mem_map_of_mem hd
    obtain ⟨j, hj, heq⟩ := List.mem_map.mp hmem
    exact ⟨j, heq, .inr hj⟩
  · have hmem : some d.targetNode ∈ s.successor.toList.map t.nodeAt? :=
      hsuccessor ▸ List.mem_map_of_mem hd
    obtain ⟨j, hj, heq⟩ := List.mem_map.mp hmem
    exact ⟨j, heq, .inl (Option.mem_toList.mp hj)⟩

end Survey

/-- A connection that control passes along has its link in the tree, or
another one has in its place. -/
theorem tokenTree_follows (hedits : ∃ id name edits, ofEdits id name edits = g)
    (ht : g.tokenTree start = .ok t) {i : TokenId} {s : TokenSlot NodeToken}
    (hs : t.slots[i]? = some s) {c : Connection} (hc : c ∈ g.connections)
    (hcarries : g.carriesControl c = true) (hnode : c.sourceNode = s.token.node) :
    t.LinksTo s c.targetNode ∨ ∃ d ∈ g.connections, d ≠ c ∧ d.sourceNode = c.sourceNode ∧
      (d.sourcePort = c.sourcePort ∨ g.goesOn c = true ∧ g.goesOn d = true) ∧
        t.LinksTo s d.targetNode := by
  obtain ⟨id, name, edits, rfl⟩ := hedits
  have hw := WellFormed.ofEdits id name edits
  obtain ⟨_, _, h⟩ := (Survey.begin _ start).grow_ok hw ht
  obtain ⟨n, hn, _⟩ := h.links hw hs
  obtain ⟨hmem, hid⟩ := (node?_eq_some_iff hw.nodes_nodup).mp hn
  obtain ⟨d, hd, hsame⟩ := exists_followed hw hmem hc hcarries (hnode.trans hid.symm)
  have hlink := h.linksTo hw hs hn hd
  by_cases heq : d = c
  · exact .inl (heq ▸ hlink)
  · obtain ⟨_, _, hdmem, hdnode, _⟩ := of_mem_followed hw hmem hd
    exact .inr ⟨d, hdmem, heq, by rw [hnode, hdnode, hid], hsame, hlink⟩

/-- A node with an output for control that is open to any number of connections, and carries two. -/
def parting : Graph where
  id := "parting"
  name := "Parting"
  nodes := [⟨"fork", "fork", [(Port.output "fork.out" "out" .flow).shared]⟩, Library.print "one",
    Library.print "two"]
  connections := [⟨"fork", "fork.out", "one", "one.exec"⟩, ⟨"fork", "fork.out", "two", "two.exec"⟩]

theorem ofEdits_parting : ofEdits "parting" "Parting"
    [.addNode ⟨"fork", "fork", [(Port.output "fork.out" "out" .flow).shared]⟩,
      .addNode (Library.print "one"), .addNode (Library.print "two"),
      .connect ⟨"fork", "fork.out", "one", "one.exec"⟩,
      .connect ⟨"fork", "fork.out", "two", "two.exec"⟩] = parting := by decide +kernel

theorem tokenTree_parting : ∃ t s, parting.tokenTree "fork" = .ok t ∧
    t.tokens = [⟨"fork", []⟩, ⟨"one", [("fork", "fork.out")]⟩] ∧ t.slots[0]? = some s ∧
      s.token.node = "fork" := by
  have htokens : (parting.tokenTree "fork").map TokenTree.tokens =
      .ok [⟨"fork", []⟩, ⟨"one", [("fork", "fork.out")]⟩] := by decide +kernel
  cases ht : parting.tokenTree "fork" with
  | error f =>
    rw [ht] at htokens
    cases htokens
  | ok t =>
    rw [ht] at htokens
    have hlist : t.tokens = [⟨"fork", []⟩, ⟨"one", [("fork", "fork.out")]⟩] :=
      Except.ok.inj htokens
    have hfirst : t.nodeAt? 0 = some "fork" := by
      rw [TokenTree.nodeAt?_eq_tokens, hlist]
      rfl
    obtain ⟨s, hs, hnode⟩ := Option.map_eq_some_iff.mp hfirst
    exact ⟨t, s, rfl, hlist, hs, hnode⟩

/-- The second connection from a port open to several is passed over, and no error tells of it. -/
theorem parting_passes_over : (∃ id name edits, ofEdits id name edits = parting) ∧
    ∃ t s, parting.tokenTree "fork" = .ok t ∧ t.slots[0]? = some s ∧ s.token.node = "fork" ∧
      ⟨"fork", "fork.out", "two", "two.exec"⟩ ∈ parting.connections ∧
        parting.carriesControl ⟨"fork", "fork.out", "two", "two.exec"⟩ = true ∧
          "two" ∉ t.tokens.map (·.node) ∧ ¬ t.LinksTo s "two" := by
  obtain ⟨t, s, ht, htokens, hs, hnode⟩ := tokenTree_parting
  have habsent : "two" ∉ t.tokens.map (·.node) := by simp [htokens]
  refine ⟨⟨_, _, _, ofEdits_parting⟩, t, s, ht, hs, hnode, by decide +kernel, by decide +kernel,
    habsent, ?_⟩
  rintro ⟨j, hj, _⟩
  rw [TokenTree.nodeAt?_eq_tokens, ← List.getElem?_map] at hj
  exact habsent (List.mem_of_getElem? hj)

theorem parting_follows : ∃ t s, parting.tokenTree "fork" = .ok t ∧ t.slots[0]? = some s ∧
    (t.LinksTo s "two" ∨ ∃ d ∈ parting.connections, d ≠ ⟨"fork", "fork.out", "two", "two.exec"⟩ ∧
      d.sourceNode = "fork" ∧ (d.sourcePort = "fork.out" ∨
        parting.goesOn ⟨"fork", "fork.out", "two", "two.exec"⟩ = true ∧ parting.goesOn d = true) ∧
          t.LinksTo s d.targetNode) := by
  obtain ⟨t, s, ht, _, hs, hnode⟩ := tokenTree_parting
  have hc : ⟨"fork", "fork.out", "two", "two.exec"⟩ ∈ parting.connections := by decide +kernel
  exact ⟨t, s, ht, hs, tokenTree_follows ⟨_, _, _, ofEdits_parting⟩ ht hs hc (by decide +kernel)
    hnode.symm⟩

end Graph

end Flowchart
