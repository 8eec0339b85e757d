import Mathlib.Data.List.Flatten
import Flowchart.Proofs.Attempt
import Flowchart.Proofs.Graph.WellFormed

/-! What each edit of a graph needs and does, and that each keeps a graph well-formed. -/
namespace Flowchart.Graph
open Relation

theorem refuseIf_eq_ok_iff {b : Bool} {d : Defect} {u : Unit} : refuseIf b d = .ok u ↔ b = false := by
  cases b with
  | true => simp [refuseIf, throw, throwThe, MonadExceptOf.throw]
  | false => simp [refuseIf, pure, Except.pure]

theorem refuseIf_eq_error_iff {b : Bool} {d e : Defect} :
    refuseIf b d = .error e ↔ b = true ∧ d = e := by
  cases b with
  | true => simp [refuseIf, throw, throwThe, MonadExceptOf.throw]
  | false => simp [refuseIf, pure, Except.pure]

variable {g : Graph}

theorem vet_eq_ok_iff {c : Connection} :
    g.vet c = .ok () ↔
      ∃ p, g.endpoint c.sourceNode c.sourcePort = .ok p ∧
      ∃ q, g.endpoint c.targetNode c.targetPort = .ok q ∧
        c ∉ g.connections ∧ c.sourceNode ≠ c.targetNode ∧ c.sourcePort ≠ c.targetPort ∧
        p.direction = .output ∧ q.direction = .input ∧ p.dataType.compatible q.dataType = true ∧
        g.isFull p = false ∧ g.isFull q = false ∧
        (p.isFlow = false → g.dataPath c.targetNode c.sourceNode = false) := by
  unfold vet
  simp only [bind_eq_ok_iff, refuseIf_eq_ok_iff, exists_const, decide_eq_false_iff_not,
    ne_eq, not_not, Bool.not_eq_false', Bool.and_eq_false_imp, Bool.not_eq_true']

theorem connect_eq_ok_iff {c : Connection} {g' : Graph} :
    g.connect c = .ok g' ↔
      g.vet c = .ok () ∧ g' = { g with connections := g.connections ++ [c] } := by
  unfold connect
  rw [bind_eq_ok_iff]
  constructor
  · rintro ⟨_, hv, h⟩
    cases h
    exact ⟨hv, rfl⟩
  · rintro ⟨hv, rfl⟩
    exact ⟨(), hv, rfl⟩

theorem connect_eq_error_iff {c : Connection} {d : Defect} :
    g.connect c = .error d ↔ g.vet c = .error d := by
  unfold connect
  rw [bind_eq_error_iff]
  constructor
  · rintro (h | ⟨_, _, h⟩)
    · exact h
    · cases h
  · exact .inl

theorem port?_eq_none_iff {id : String} :
    g.port? id = none ↔ ∀ n ∈ g.nodes, ∀ p ∈ n.ports, p.id ≠ id := by
  simp [port?, Node.port?]

theorem repeatedPort?_eq_none_iff {before ports : List Port} :
    g.repeatedPort? before ports = none ↔ (ports.map (·.id)).Nodup ∧
      ∀ p ∈ ports, (∀ q ∈ before, q.id ≠ p.id) ∧ ∀ n ∈ g.nodes, ∀ q ∈ n.ports, q.id ≠ p.id := by
  induction ports generalizing before with
  | nil => simp [repeatedPort?]
  | cons p ports ih =>
    rw [repeatedPort?]
    split
    · next hrep =>
      simp only [Bool.or_eq_true, List.any_eq_true, decide_eq_true_eq] at hrep
      simp only [reduceCtorEq, false_iff]
      rintro ⟨_, hfresh⟩
      obtain ⟨hb, hg⟩ := hfresh p List.mem_cons_self
      rcases hrep with ⟨q, hq, hid⟩ | hsome
      · exact hb q hq hid
      · rw [port?_eq_none_iff.mpr hg] at hsome
        cases hsome
    · next hrep =>
      simp only [Bool.or_eq_true, List.any_eq_true, decide_eq_true_eq, not_or, not_exists,
        not_and, Option.not_isSome_iff_eq_none, port?_eq_none_iff] at hrep
      rw [ih, List.map_cons, List.nodup_cons]
      constructor
      · rintro ⟨hnd, hfresh⟩
        refine ⟨⟨?_, hnd⟩, ?_⟩
        · rw [List.mem_map]
          rintro ⟨q, hq, hid⟩
          exact (hfresh q hq).1 p (by simp) hid.symm
        · intro q hq
          rcases List.mem_cons.mp hq with rfl | hq
          · exact hrep
          · exact ⟨fun r hr => (hfresh q hq).1 r (List.mem_append_left _ hr), (hfresh q hq).2⟩
      · rintro ⟨⟨hp, hnd⟩, hfresh⟩
        refine ⟨hnd, fun q hq => ?_⟩
        obtain ⟨hb, hg⟩ := hfresh q (List.mem_cons_of_mem _ hq)
        refine ⟨fun r hr => ?_, hg⟩
        rcases List.mem_append.mp hr with hr | hr
        · exact hb r hr
        · rw [List.mem_singleton.mp hr]
          exact fun hid => hp (hid ▸ List.mem_map_of_mem hq)

/-- A node is accepted when its id and the ids of its ports are new. -/
theorem addNode_eq_ok_iff {n : Node} {g' : Graph} :
    g.addNode n = .ok g' ↔
      ((∀ m ∈ g.nodes, m.id ≠ n.id) ∧ (n.ports.map (·.id)).Nodup ∧
        ∀ p ∈ n.ports, ∀ m ∈ g.nodes, ∀ q ∈ m.ports, q.id ≠ p.id) ∧
      g' = { g with nodes := g.nodes ++ [n] } := by
  unfold addNode
  split
  · next hsome =>
    simp only [node?, List.find?_isSome, decide_eq_true_eq] at hsome
    obtain ⟨m, hm, hid⟩ := hsome
    simp only [throw, throwThe, MonadExceptOf.throw, reduceCtorEq, false_iff]
    rintro ⟨⟨hfresh, _⟩, _⟩
    exact hfresh m hm hid
  · next hnone =>
    simp only [node?, List.find?_isSome, decide_eq_true_eq, not_exists, not_and] at hnone
    split
    · next p hrep =>
      simp only [throw, throwThe, MonadExceptOf.throw, reduceCtorEq, false_iff]
      rintro ⟨⟨_, hnd, hfresh⟩, _⟩
      have : g.repeatedPort? [] n.ports = none :=
        repeatedPort?_eq_none_iff.mpr ⟨hnd, fun p hp => ⟨by simp, hfresh p hp⟩⟩
      rw [hrep] at this
      cases this
    · next hrep =>
      obtain ⟨hnd, hfresh⟩ := repeatedPort?_eq_none_iff.mp hrep
      have hports : ∀ p ∈ n.ports, ∀ m ∈ g.nodes, ∀ q ∈ m.ports, q.id ≠ p.id :=
        fun p hp => (hfresh p hp).2
      constructor
      · intro h
        cases h
        exact ⟨⟨hnone, hnd, hports⟩, rfl⟩
      · rintro ⟨_, rfl⟩
        rfl

theorem Declares.mono {g' : Graph} (hn : g.nodes ⊆ g'.nodes) {node : String} {p : Port}
    (h : g.Declares node p) : g'.Declares node p := by
  obtain ⟨n, hmem, hid, hp⟩ := h
  exact ⟨n, hn hmem, hid, hp⟩

theorem Fits.mono {g' : Graph} (hn : g.nodes ⊆ g'.nodes) {c : Connection} (h : g.Fits c) :
    g'.Fits c := by
  obtain ⟨hne, p, q, ⟨hp, hp'⟩, ⟨hq, hq'⟩, hpq⟩ := h
  exact ⟨hne, p, q, ⟨hp.mono hn, hp'⟩, ⟨hq.mono hn, hq'⟩, hpq⟩

theorem Fits.declared {c : Connection} (h : g.Fits c) {port : String} (ht : c.touchesPort port) :
    ∃ n ∈ g.nodes, ∃ p ∈ n.ports, p.id = port := by
  obtain ⟨_, p, q, ⟨⟨n, hn, _, hpn⟩, hp, _⟩, ⟨⟨m, hm, _, hqm⟩, hq, _⟩, _⟩ := h
  simp only [Connection.touchesPort, Bool.or_eq_true, decide_eq_true_eq] at ht
  rcases ht with rfl | rfl
  · exact ⟨n, hn, p, hpn, hp⟩
  · exact ⟨m, hm, q, hqm, hq⟩

theorem acyclic_of_le {r s : String → String → Prop} (hrs : r ≤ s)
    (h : ∀ n, ¬ TransGen s n n) (n : String) : ¬ TransGen r n n :=
  fun hc => h n (TransGen.mono hrs _ _ hc)

/-- One more step closes no circle if there was no way back. -/
theorem acyclic_insert {r s : String → String → Prop} {a b : String}
    (hs : ∀ x y, s x y → r x y ∨ x = a ∧ y = b) (hr : ∀ n, ¬ TransGen r n n)
    (hab : ¬ ReflTransGen r b a) (n : String) : ¬ TransGen s n n := by
  have hpath : ∀ y, TransGen s n y →
      TransGen r n y ∨ ReflTransGen r n a ∧ ReflTransGen r b y := by
    intro y h
    induction h with
    | single h =>
      rcases hs _ _ h with h | ⟨rfl, rfl⟩
      · exact .inl (.single h)
      · exact .inr ⟨.refl, .refl⟩
    | tail _ h ih =>
      rcases hs _ _ h with h | ⟨rfl, rfl⟩
      · rcases ih with ih | ⟨hna, hby⟩
        · exact .inl (ih.tail h)
        · exact .inr ⟨hna, hby.tail h⟩
      · rcases ih with ih | ⟨_, hby⟩
        · exact .inr ⟨ih.to_reflTransGen, .refl⟩
        · exact absurd hby hab
  intro hc
  rcases hpath n hc with h | ⟨hna, hbn⟩
  · exact hr n h
  · exact hab (hbn.trans hna)

namespace WellFormed

theorem empty (id name : String) : WellFormed { id, name } where
  nodes_nodup := .nil
  ports_nodup := .nil
  connections_nodup := .nil
  fits := by simp
  single := by simp
  acyclic n h := by
    obtain ⟨_, ⟨c, hc, _⟩, _⟩ := TransGen.head'_iff.mp h
    cases hc

/-- A part of a well-formed graph is well-formed if its connections still fit. -/
theorem of_sublist {g' : Graph} (h : g.WellFormed) (hn : g'.nodes.Sublist g.nodes)
    (hc : g'.connections.Sublist g.connections) (hf : ∀ c ∈ g'.connections, g'.Fits c) :
    g'.WellFormed where
  nodes_nodup := h.nodes_nodup.sublist (hn.map _)
  ports_nodup := h.ports_nodup.sublist (hn.flatMap fun n => n.ports.map (·.id))
  connections_nodup := h.connections_nodup.sublist hc
  fits := hf
  single n hmem p hp hs c hcm d hdm :=
    h.single n (hn.subset hmem) p hp hs c (hc.subset hcm) d (hc.subset hdm)
  acyclic := by
    refine acyclic_of_le ?_ h.acyclic
    rintro a b ⟨c, hcm, rfl, rfl, p, hd, hp⟩
    exact ⟨c, hc.subset hcm, rfl, rfl, p, hd.mono hn.subset, hp⟩

theorem addNode {n : Node} {g' : Graph} (h : g.WellFormed) (ha : g.addNode n = .ok g') :
    g'.WellFormed := by
  obtain ⟨⟨hid, hnd, hports⟩, rfl⟩ := addNode_eq_ok_iff.mp ha
  have hsub : g.nodes ⊆ g.nodes ++ [n] := List.subset_append_left _ _
  have hports_nodup : ((g.nodes ++ [n]).flatMap fun n => n.ports.map (·.id)).Nodup := by
    rw [List.flatMap_append, List.nodup_append]
    refine ⟨h.ports_nodup, by simpa using hnd, ?_⟩
    intro x hx y hy
    obtain ⟨m, hm, hxm⟩ := List.mem_flatMap.mp hx
    obtain ⟨q, hq, rfl⟩ := List.mem_map.mp hxm
    simp only [List.flatMap_cons, List.flatMap_nil, List.append_nil, List.mem_map] at hy
    obtain ⟨p, hp, rfl⟩ := hy
    exact hports p hp m hm q hq
  constructor
  case nodes_nodup =>
    rw [List.map_append, List.nodup_append]
    refine ⟨h.nodes_nodup, by simp, ?_⟩
    intro x hx y hy
    obtain ⟨m, hm, rfl⟩ := List.mem_map.mp hx
    simp only [List.map_cons, List.map_nil, List.mem_singleton] at hy
    rw [hy]
    exact hid m hm
  case ports_nodup => exact hports_nodup
  case connections_nodup => exact h.connections_nodup
  case fits =>
    intro c hc
    exact (h.fits c hc).mono hsub
  case single =>
    intro m hm p hp hs c hc d hd hct hdt
    rcases List.mem_append.mp hm with hm | hm
    · exact h.single m hm p hp hs c hc d hd hct hdt
    · -- No connection touches a port of the new node.
      rw [List.mem_singleton.mp hm] at hp
      obtain ⟨k, hk, q, hq, hqp⟩ := (h.fits c hc).declared hct
      exact absurd hqp (hports p hp k hk q hq)
  case acyclic =>
    refine acyclic_of_le ?_ h.acyclic
    rintro a b ⟨c, hc, rfl, rfl, p, hp, hpid, hflow⟩
    obtain ⟨_, q, _, ⟨hq, hqid, _⟩, _⟩ := h.fits c hc
    obtain ⟨_, rfl⟩ := Declares.unique (g := { g with nodes := g.nodes ++ [n] }) hports_nodup
      (hq.mono hsub) hp (hqid.trans hpid.symm)
    exact ⟨c, hc, rfl, rfl, q, hq, hqid, hflow⟩

theorem disconnect (h : g.WellFormed) (c : Connection) : (g.disconnect c).2.WellFormed :=
  h.of_sublist (List.Sublist.refl _) List.erase_sublist fun d hd => h.fits d (List.mem_of_mem_erase hd)

theorem removeNode (h : g.WellFormed) (id : String) : (g.removeNode id).2.WellFormed := by
  unfold Graph.removeNode
  split
  · exact h
  · apply h.of_sublist List.eraseP_sublist List.filter_sublist
    intro c hc
    simp only [List.mem_filter, Connection.touchesNode, Bool.not_eq_eq_eq_not, Bool.not_true,
      Bool.or_eq_false_iff, decide_eq_false_iff_not] at hc
    obtain ⟨hmem, hs, ht⟩ := hc
    -- A node that still has a connection was not the one removed.
    have hkeep : ∀ {node : String} {p : Port}, node ≠ id → g.Declares node p →
        Declares { g with nodes := g.nodes.eraseP (·.id = id),
                          connections := g.connections.filter (!·.touchesNode id) } node p := by
      rintro node p hne ⟨n, hn, rfl, hp⟩
      exact ⟨n, (List.mem_eraseP_of_neg (by simpa using hne)).mpr hn, rfl, hp⟩
    obtain ⟨hne, p, q, ⟨hp, hp'⟩, ⟨hq, hq'⟩, hpq⟩ := h.fits c hmem
    exact ⟨hne, p, q, ⟨hkeep hs hp, hp'⟩, ⟨hkeep ht hq, hq'⟩, hpq⟩

end WellFormed

end Flowchart.Graph
