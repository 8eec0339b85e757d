import Mathlib.Data.Fintype.Card
import Mathlib.Data.List.Perm.Subperm
import Mathlib.Data.Set.Finite.Basic
import Mathlib.Logic.Relation
import Mathlib.Order.WellFounded
import Flowchart.Graph.Cycle
import Flowchart.Proofs.Graph.Reach

/-! Peeling a graph: no counter ever goes below zero, and nodes are left over only where edges from
other nodes that are left over arrive. -/
namespace Flowchart.Graph
open Relation

theorem nodup_eraseDups (l : List String) : l.eraseDups.Nodup := by
  induction hn : l.length using Nat.strong_induction_on generalizing l with
  | _ n ih =>
    cases l with
    | nil => simp
    | cons b l =>
      have hlen := List.length_filter_le (fun x => !x == b) l
      rw [List.eraseDups_cons, List.nodup_cons]
      refine ⟨?_, ih _ (by rw [List.length_cons] at hn; omega) _ rfl⟩
      rw [List.mem_eraseDups]
      simp

theorem lower?_of_lookup {n : String} {counts : Counters} {c : Nat}
    (h : counts.lookup n = some (c + 1)) :
    ∃ after, counts.lower? n = some (after, c) ∧
      ∀ k, after.lookup k = if k = n then some c else counts.lookup k := by
  induction counts with
  | nil => simp at h
  | cons kc rest ih =>
    obtain ⟨k, d⟩ := kc
    by_cases hk : k = n
    · subst hk
      rw [List.lookup_cons_self, Option.some.injEq] at h
      subst h
      refine ⟨(k, c) :: rest, by simp [Counters.lower?], fun j => ?_⟩
      by_cases hj : j = k
      · simp [hj]
      · have hjk : (j == k) = false := by simpa using hj
        simp [hj, List.lookup_cons, hjk]
    · have hn : (n == k) = false := by simpa using Ne.symm hk
      rw [List.lookup_cons, hn] at h
      obtain ⟨after, hl, ha⟩ := ih h
      refine ⟨(k, d) :: after, by simp [Counters.lower?, hk, hl], fun j => ?_⟩
      by_cases hj : j = k
      · subst hj
        simp [hk]
      · have hjk : (j == k) = false := by simpa using hj
        simp [List.lookup_cons, hjk, ha j]

namespace Peeling

def openInto (edges : List Connection) (taken : List String) (n : String) : Nat :=
  edges.countP fun e => e.targetNode = n ∧ e.sourceNode ∉ taken

/-- The counters of a peeling are right, where the targets in `pending` are still to be released. -/
structure Sound (edges : List Connection) (nodes pending : List String) (p : Peeling) : Prop where
  counted : ∀ n ∈ nodes, p.counts.lookup n = some (openInto edges p.taken n + pending.count n)
  atZero : ∀ n ∈ nodes, n ∈ p.taken ++ p.ready ↔ p.counts.lookup n = some 0
  nodup : (p.taken ++ p.ready).Nodup
  known : ∀ n ∈ p.taken ++ p.ready, n ∈ nodes

variable {edges : List Connection} {nodes pending : List String} {p : Peeling}

theorem release?_sound {n : String} (h : p.Sound edges nodes (n :: pending)) (hn : n ∈ nodes) :
    ∃ q, p.release? n = some q ∧ q.Sound edges nodes pending := by
  have hc := h.counted n hn
  rw [List.count_cons_self, ← Nat.add_assoc] at hc
  obtain ⟨after, hl, ha⟩ := lower?_of_lookup hc
  let v := openInto edges p.taken n + pending.count n
  have hfresh : n ∉ p.taken ++ p.ready := by
    rw [h.atZero n hn, hc]
    simp
  refine ⟨{ p with counts := after, ready := if v = 0 then p.ready ++ [n] else p.ready },
    by simp [release?, hl, v], ?_⟩
  constructor
  case counted =>
    intro m hm
    rw [ha m]
    by_cases hmn : m = n
    · rw [if_pos hmn, hmn]
    · rw [if_neg hmn, h.counted m hm, List.count_cons_of_ne (Ne.symm hmn)]
  case atZero =>
    -- The node becomes ready just when its counter falls to zero.
    intro m hm
    rw [ha m]
    by_cases hmn : m = n
    · subst hmn
      rw [if_pos rfl]
      by_cases hv : v = 0
      · have hc0 : openInto edges p.taken m + pending.count m = 0 := hv
        simp [hv, hc0]
      · have hc0 : openInto edges p.taken m + pending.count m ≠ 0 := hv
        simp only [hv, if_false, Option.some.injEq, hc0, iff_false]
        exact hfresh
    · rw [if_neg hmn, ← h.atZero m hm]
      by_cases hv : v = 0 <;> simp [hv, hmn]
  case nodup =>
    by_cases hv : v = 0
    · simp only [hv, if_true]
      rw [← List.append_assoc, List.nodup_append]
      refine ⟨h.nodup, by simp, ?_⟩
      intro a hamem b hb
      rw [List.mem_singleton.mp hb]
      rintro rfl
      exact hfresh hamem
    · simpa [hv] using h.nodup
  case known =>
    intro m hm
    by_cases hv : v = 0
    · simp only [hv, if_true] at hm
      rw [← List.append_assoc, List.mem_append] at hm
      rcases hm with hm | hm
      · exact h.known m hm
      · rwa [List.mem_singleton.mp hm]
    · simp only [hv, if_false] at hm
      exact h.known m hm

theorem releaseAll?_sound (h : p.Sound edges nodes pending) (hp : ∀ n ∈ pending, n ∈ nodes) :
    ∃ q, p.releaseAll? pending = some q ∧ q.Sound edges nodes [] := by
  induction pending generalizing p with
  | nil => exact ⟨p, rfl, h⟩
  | cons n rest ih =>
    obtain ⟨r, hr, hs⟩ := release?_sound h (hp n List.mem_cons_self)
    obtain ⟨q, hq, hs'⟩ := ih hs fun m hm => hp m (List.mem_cons_of_mem _ hm)
    exact ⟨q, by simp [releaseAll?, hr, hq], hs'⟩

theorem releaseAll?_taken {ns : List String} {q : Peeling} (h : p.releaseAll? ns = some q) :
    q.taken = p.taken := by
  induction ns generalizing p with
  | nil =>
    cases h
    rfl
  | cons n rest ih =>
    simp only [releaseAll?, release?, Option.bind_eq_bind, Option.bind_eq_some_iff,
      Option.map_eq_some_iff] at h
    obtain ⟨r, ⟨_, _, rfl⟩, h⟩ := h
    have hrest := ih h
    exact hrest

/-- Taking a node turns the open edges that leave it into targets to be released. -/
theorem openInto_take {n : String} {taken : List String} (hn : n ∉ taken) (m : String) :
    openInto edges (taken ++ [n]) m + (targetsFrom n edges).count m = openInto edges taken m := by
  induction edges with
  | nil => rfl
  | cons e edges ih =>
    have hcount : (targetsFrom n (e :: edges)).count m =
        (targetsFrom n edges).count m + if e.sourceNode = n ∧ e.targetNode = m then 1 else 0 := by
      by_cases hs : e.sourceNode = n <;> by_cases ht : e.targetNode = m <;>
        simp [targetsFrom, hs, ht]
    rw [hcount]
    unfold openInto at ih ⊢
    rw [List.countP_cons, List.countP_cons, ← ih]
    by_cases ht : e.targetNode = m
    · by_cases hs : e.sourceNode = n
      · simp only [ht, hs, hn, List.mem_append, List.mem_singleton]
        simp
        omega
      · simp only [ht, hs, List.mem_append, List.mem_singleton]
        simp
        omega
    · simp [ht]

theorem turn_sound {n : String} {rest : List String} (h : p.Sound edges nodes [])
    (hr : p.ready = n :: rest) :
    Sound edges nodes (targetsFrom n edges) { p with ready := rest, taken := p.taken ++ [n] } := by
  have hsame : (p.taken ++ [n]) ++ rest = p.taken ++ p.ready := by simp [hr]
  have hn : n ∉ p.taken := by
    have hd := h.nodup
    rw [hr, List.nodup_append] at hd
    exact fun hmem => hd.2.2 n hmem n List.mem_cons_self rfl
  constructor
  case counted =>
    intro m hm
    rw [h.counted m hm, openInto_take hn m]
    simp
  case atZero =>
    intro m hm
    rw [hsame]
    exact h.atZero m hm
  case nodup =>
    rw [hsame]
    exact h.nodup
  case known =>
    intro m hm
    rw [hsame] at hm
    exact h.known m hm

theorem known_of_targetsFrom (he : ∀ e ∈ edges, e.targetNode ∈ nodes) (n : String) :
    ∀ m ∈ targetsFrom n edges, m ∈ nodes := by
  intro m hm
  obtain ⟨e, hmem, _, rfl⟩ := mem_targetsFrom.mp hm
  exact he e hmem

theorem run?_sound (h : p.Sound edges nodes []) (he : ∀ e ∈ edges, e.targetNode ∈ nodes) :
    ∃ q, p.run? edges = some q ∧ q.Sound edges nodes [] ∧ q.ready = [] := by
  fun_induction run? edges p with
  | case1 p hr => exact ⟨p, rfl, h, hr⟩
  | case2 p n rest hr hnone =>
    -- A turn always releases all its targets, so it never stops here.
    obtain ⟨q, hq, _⟩ := releaseAll?_sound (turn_sound h hr) (known_of_targetsFrom he n)
    rw [hnone] at hq
    cases hq
  | case3 p n rest hr q hq ih =>
    obtain ⟨q', hq', hs⟩ := releaseAll?_sound (turn_sound h hr) (known_of_targetsFrom he n)
    rw [hq, Option.some.injEq] at hq'
    subst hq'
    exact ih hs

/-- Edges into a node that is taken come from nodes that were taken before it. -/
def Ordered (edges : List Connection) (taken : List String) : Prop :=
  ∀ e ∈ edges, e.targetNode ∈ taken → taken.idxOf e.sourceNode < taken.idxOf e.targetNode

/-- A node whose turn it is has nothing left that arrives at it. -/
theorem ordered_turn {n : String} {rest : List String} (h : p.Sound edges nodes [])
    (ho : Ordered edges p.taken) (hr : p.ready = n :: rest) : Ordered edges (p.taken ++ [n]) := by
  intro e he ht
  have hfresh : n ∉ p.taken := by
    have hd := h.nodup
    rw [hr, List.nodup_append] at hd
    exact fun hmem => hd.2.2 n hmem n List.mem_cons_self rfl
  by_cases hold : e.targetNode ∈ p.taken
  · have hlt := ho e he hold
    have hsource : e.sourceNode ∈ p.taken :=
      List.idxOf_lt_length_iff.mp (hlt.trans (List.idxOf_lt_length_of_mem hold))
    rw [List.idxOf_append_of_mem hold, List.idxOf_append_of_mem hsource]
    exact hlt
  · have hn : e.targetNode = n := by simpa [hold] using ht
    have hready : n ∈ p.taken ++ p.ready := by simp [hr]
    have hzero : p.counts.lookup n = some 0 := (h.atZero n (h.known n hready)).mp hready
    have hopen : openInto edges p.taken n = 0 := by
      rw [h.counted n (h.known n hready)] at hzero
      simpa using hzero
    have hsource : e.sourceNode ∈ p.taken := by
      rw [openInto, List.countP_eq_zero] at hopen
      by_contra hout
      exact hopen e he (by simp [hn, hout])
    rw [hn, List.idxOf_append_of_mem hsource, List.idxOf_append_of_notMem hfresh]
    have := List.idxOf_lt_length_of_mem hsource
    omega

theorem run?_ordered (h : p.Sound edges nodes []) (he : ∀ e ∈ edges, e.targetNode ∈ nodes)
    (ho : Ordered edges p.taken) {q : Peeling} (hq : p.run? edges = some q) :
    Ordered edges q.taken := by
  fun_induction run? edges p with
  | case1 p hr =>
    cases hq
    exact ho
  | case2 p n rest hr hnone => cases hq
  | case3 p n rest hr r hturn ih =>
    obtain ⟨r', hr', hs⟩ := releaseAll?_sound (turn_sound h hr) (known_of_targetsFrom he n)
    rw [hturn, Option.some.injEq] at hr'
    subst hr'
    apply ih hs _ hq
    rw [releaseAll?_taken hturn]
    exact ordered_turn h ho hr

end Peeling

theorem nodup_peelable (g : Graph) : g.peelable.Nodup := nodup_eraseDups _

theorem mem_peelable {g : Graph} {n : String} :
    n ∈ g.peelable ↔ (∃ m ∈ g.nodes, m.id = n) ∨ ∃ e ∈ g.dataConnections, e.targetNode = n := by
  unfold peelable
  rw [List.mem_eraseDups, List.mem_append, List.mem_map, List.mem_map]

theorem lookup_map_pair {n : String} (f : String → Nat) {keys : List String} (h : n ∈ keys) :
    (keys.map fun k => (k, f k)).lookup n = some (f n) := by
  induction keys with
  | nil => cases h
  | cons k keys ih =>
    by_cases hk : n = k
    · subst hk
      simp
    · have hnk : (n == k) = false := by simpa using hk
      have hn : n ∈ keys := (List.mem_cons.mp h).resolve_left hk
      simp [List.lookup_cons, hnk, ih hn]

/-- Before anything is peeled off, each counter holds what arrives at its node. -/
theorem peeling_sound (g : Graph) :
    Peeling.Sound g.dataConnections g.peelable []
      { counts := g.counters, ready := (g.counters.filter (·.2 = 0)).map (·.1), taken := [] } := by
  let f : String → Nat := fun n => (g.dataConnections.filter (·.targetNode = n)).length
  have hready : (g.counters.filter (·.2 = 0)).map (·.1) = g.peelable.filter (f · = 0) := by
    have hc : g.counters = g.peelable.map fun n => (n, f n) := rfl
    rw [hc, List.filter_map, List.map_map]
    simp [Function.comp_def]
  have hlookup : ∀ n ∈ g.peelable, g.counters.lookup n = some (f n) := fun n hn =>
    lookup_map_pair f hn
  constructor
  case counted =>
    intro n hn
    rw [hlookup n hn]
    simp [f, Peeling.openInto, List.countP_eq_length_filter]
  case atZero =>
    intro n hn
    rw [hready, hlookup n hn]
    simp [hn]
  case nodup =>
    rw [hready]
    exact (nodup_peelable g).filter _
  case known =>
    intro n hn
    rw [hready] at hn
    exact List.mem_of_mem_filter hn

/-- On no graph does peeling break off: it ends with no node ready. -/
theorem peel?_sound (g : Graph) :
    ∃ p, g.peel? = some p ∧ p.Sound g.dataConnections g.peelable [] ∧ p.ready = [] :=
  Peeling.run?_sound (peeling_sound g) fun e he => mem_peelable.mpr (.inr ⟨e, he, rfl⟩)

/-- At a node that is left over, an edge from a node that was not taken arrives. -/
theorem exists_open_of_left {edges : List Connection} {nodes : List String} {p : Peeling}
    (h : p.Sound edges nodes []) (hr : p.ready = []) {n : String} (hn : n ∈ nodes)
    (hleft : n ∉ p.taken) : ∃ e ∈ edges, e.targetNode = n ∧ e.sourceNode ∉ p.taken := by
  have hne : Peeling.openInto edges p.taken n ≠ 0 := by
    intro h0
    have hz := (h.atZero n hn).mpr (by rw [h.counted n hn, h0]; simp)
    rw [hr, List.append_nil] at hz
    exact hleft hz
  obtain ⟨e, he, hp⟩ := List.countP_pos_iff.mp (Nat.pos_of_ne_zero hne)
  rw [decide_eq_true_eq] at hp
  exact ⟨e, he, hp⟩

/-- Nothing is left over where no data connection starts outside the graph
and none closes a circle. -/
theorem hasDataCycle_eq_false {g : Graph} (hs : ∀ e ∈ g.dataConnections, e.sourceNode ∈ g.peelable)
    (ha : ∀ n, ¬ TransGen g.DataStep n n) : g.hasDataCycle = false := by
  obtain ⟨p, hp, hsound, hready⟩ := peel?_sound g
  have hall : ∀ n ∈ g.peelable, n ∈ p.taken := by
    by_contra hne
    push Not at hne
    obtain ⟨n, hn, hleft⟩ := hne
    -- Among finitely many nodes left over, one has no predecessor left over, unless there is a circle.
    let r : {n // n ∈ g.peelable} → {n // n ∈ g.peelable} → Prop :=
      fun a b => TransGen g.DataStep a.1 b.1
    have : IsTrans _ r := ⟨fun _ _ _ h₁ h₂ => TransGen.trans h₁ h₂⟩
    have : Std.Irrefl r := ⟨fun a => ha a.1⟩
    have : Finite {n // n ∈ g.peelable} := (List.finite_toSet g.peelable).to_subtype
    have hwf : WellFounded r := Finite.wellFounded_of_trans_of_irrefl r
    obtain ⟨m, hm, hmin⟩ := hwf.has_min {n | n.1 ∉ p.taken} ⟨⟨n, hn⟩, hleft⟩
    obtain ⟨e, he, ht, hopen⟩ := exists_open_of_left hsound hready m.2 hm
    exact hmin ⟨e.sourceNode, hs e he⟩ hopen (.single ⟨e, he, rfl, ht⟩)
  have hlen : g.peelable.length ≤ p.taken.length :=
    ((nodup_peelable g).subperm hall).length_le
  unfold hasDataCycle
  rw [hp]
  simp only [decide_eq_false_iff_not]
  omega

/-- Where nothing is left over, the nodes have an order in which values only go forward. -/
theorem exists_ordered {g : Graph} (h : g.hasDataCycle = false) :
    ∃ order : List String, order ⊆ g.peelable ∧
      ∀ a b, g.DataStep a b → order.idxOf a < order.idxOf b := by
  obtain ⟨p, hp, hsound, hready⟩ := peel?_sound g
  have ho : Peeling.Ordered g.dataConnections p.taken :=
    Peeling.run?_ordered (peeling_sound g) (fun e he => mem_peelable.mpr (.inr ⟨e, he, rfl⟩))
      (fun _ _ ht => by cases ht) hp
  unfold hasDataCycle at h
  rw [hp] at h
  simp only [decide_eq_false_iff_not, not_lt] at h
  have hnodup : p.taken.Nodup := by simpa [hready] using hsound.nodup
  have hknown : p.taken ⊆ g.peelable := fun m hm => hsound.known m (List.mem_append_left _ hm)
  have hall : g.peelable ⊆ p.taken :=
    ((hnodup.subperm hknown).perm_of_length_le h).symm.subset
  refine ⟨p.taken, hknown, ?_⟩
  rintro a b ⟨e, he, rfl, rfl⟩
  exact ho e he (hall (mem_peelable.mpr (.inr ⟨e, he, rfl⟩)))

/-- Where nothing is left over, no data connections close a circle. -/
theorem acyclic_of_hasDataCycle_eq_false {g : Graph} (h : g.hasDataCycle = false) (n : String) :
    ¬ TransGen g.DataStep n n := by
  obtain ⟨order, _, hforward⟩ := exists_ordered h
  have htrans : IsTrans String fun a b => order.idxOf a < order.idxOf b :=
    ⟨fun _ _ _ => Nat.lt_trans⟩
  intro hc
  have hlt := TransGen.mono hforward _ _ hc
  rw [transGen_eq_self] at hlt
  exact Nat.lt_irrefl _ hlt

end Flowchart.Graph
