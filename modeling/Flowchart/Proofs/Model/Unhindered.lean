import Flowchart.Proofs.Model.Steering
import Flowchart.Proofs.Walk.Preorder

/-! Token trees of models hold up no walk: each token is come to once, along its only link, so that
a walk ends at its limit or when it is through. -/
namespace Flowchart

def Fault.Revisits (f : Fault) : Prop := ∃ id label, f = .tokenRevisited id label

theorem Fault.not_revisits_of_blamesToken {f : Fault} (h : f.blamesToken = true) : ¬ f.Revisits := by
  rintro ⟨id, label, rfl⟩
  cases h

/-- A run is closed with the fault of its pass or with a cancellation, if it does not end well. -/
theorem Reporter.finish_fails {σ : Type} {r : Reporter} {p : Progress} {P : Fault → Prop}
    (hp : ∀ f, p.outcome = .error f → P f) (hcancelled : P .cancelled) :
    Activity.Ends (fun outcome : Outcome => ∀ f, outcome = .error f → P f)
      (r.finish p : RunActivity σ Outcome) := by
  obtain ⟨n, f | _⟩ := p
  · unfold Reporter.finish
    dsimp only
    split
    · refine (Activity.Ends.trivial _).bind fun _ _ => (Activity.Ends.trivial _).bind fun _ _ => ?_
      exact .pure fun g hg => by cases hg; exact hcancelled
    · refine (Activity.Ends.trivial _).bind fun _ _ => ?_
      split
      · refine (Activity.Ends.trivial _).bind fun _ _ => ?_
        exact .pure fun g hg => by cases hg; exact hp f rfl
      · exact (Activity.Ends.trivial _).bind fun _ _ => .pure nofun
  · exact (Activity.Ends.trivial _).bind fun _ _ => .pure nofun

/-- An execution of a plan does not fail with the walk that the plan was made by. -/
theorem Plan.execute_not_revisits {σ : Type} (p : Plan σ) (signal : Signal) :
    Activity.Ends (fun outcome : Outcome => ∀ f, outcome = .error f → ¬ f.Revisits)
      (p.execute signal) := by
  intro others sc outcome sc' hplay
  by_cases hspent : p.id ∈ sc.stage.state.spent
  · rw [Plan.play_execute_spent hspent] at hplay
    cases hplay
    rintro f hf ⟨id, label, rfl⟩
    cases hf
  · have hends : Activity.Ends (fun outcome : Outcome => ∀ f, outcome = .error f → ¬ f.Revisits)
        (Reporter.executeAll ⟨sc.stage.state.nextRun, p.sink, p.surfaceFailures⟩ signal 0 p.entries >>=
          Reporter.finish ⟨sc.stage.state.nextRun, p.sink, p.surfaceFailures⟩) := by
      refine (Reporter.executeAll_blames p.entries 0).bind fun progress hblames => ?_
      apply Reporter.finish_fails
      · intro f hf
        unfold Progress.BlamesToken at hblames
        rw [hf] at hblames
        exact Fault.not_revisits_of_blamesToken hblames
      · exact Fault.not_revisits_of_blamesToken rfl
    rw [Plan.play_execute hspent] at hplay
    exact hends others _ outcome sc' hplay

/-- A tour that is compiled goes over the tree that it is compiled from. -/
theorem Engine.tree_of_compile {σ : Type} {e : Engine} {t : TokenTree (Token σ)}
    {stage : RunStage σ} {tour : Tour σ} (h : (e.compile t stage).1 = .ok (.tour tour)) :
    tour.tree = t := by
  unfold Engine.compile at h
  split at h
  · cases hstart : t.start with
    | error f =>
      rw [hstart] at h
      cases h
    | ok root =>
      rw [hstart] at h
      cases h
      rfl
  · dsimp only at h
    cases hplan : (e.plan e.config.strategy t stage).1 with
    | error f =>
      rw [hplan] at h
      cases h
    | ok p =>
      rw [hplan] at h
      cases h

namespace TokenTree

variable {τ : Type}

def links (t : TokenTree τ) : List TokenId :=
  t.slots.toList.flatMap fun s => s.children ++ s.successor.toList

structure InOrder (t : TokenTree τ) : Prop where
  first : t.root = some 0
  listed : t.Preorder [0] (List.range t.size)

variable {t : TokenTree τ} {ahead ids : List TokenId}

theorem ways_of_slot {strategy : Strategy} {id : TokenId} {s : TokenSlot τ}
    (hs : t.slots[id]? = some s) : t.ways strategy id = strategy.next s := by
  rw [ways, hs]

theorem ways_linear_subset (id : TokenId) : t.ways .linear id ⊆ t.ways .immediate id := by
  intro next hnext
  unfold ways at hnext ⊢
  cases hs : t.slots[id]? with
  | none =>
    rw [hs] at hnext
    cases hnext
  | some s =>
    rw [hs] at hnext
    exact List.mem_append_right _ hnext

/-- The tokens of some branches are those the branches begin with and those
the links of all of them lead to. -/
theorem Preorder.perm_ways (h : t.Preorder ahead ids) :
    (ahead ++ ids.flatMap (t.ways .immediate)).Perm ids := by
  induction h with
  | nil => exact .nil
  | @cons id slot branches inner onward others here _ _ _ ihc ihs ihr =>
    have hways : t.ways .immediate id = slot.children ++ slot.successor.toList := ways_of_slot here
    rw [List.flatMap_cons, hways, List.cons_append]
    apply List.Perm.cons
    rw [List.perm_iff_count]
    intro next
    have hchildren := ihc.count_eq next
    have hsuccessor := ihs.count_eq next
    have hothers := ihr.count_eq next
    simp only [List.flatMap_append, List.count_append] at *
    omega

theorem Preorder.subset (h : t.Preorder ahead ids) : ahead ⊆ ids := fun _ hid =>
  h.perm_ways.subset (List.mem_append_left _ hid)

theorem Preorder.sublist_of_way (h : t.Preorder ahead ids) {id next : TokenId} (hid : id ∈ ids)
    (hnext : next ∈ t.ways .immediate id) : [id, next].Sublist ids := by
  induction h with
  | nil => cases hid
  | @cons first slot branches inner onward others here children successor _ ihc ihs ihr =>
    rcases List.mem_cons.mp hid with rfl | hid
    · rw [ways_of_slot here] at hnext
      apply List.Sublist.cons_cons
      rw [List.singleton_sublist, List.append_assoc]
      rcases List.mem_append.mp hnext with hchild | hsucc
      · exact List.mem_append_left _ (children.subset hchild)
      · exact List.mem_append_right _ (List.mem_append_left _ (successor.subset hsucc))
    · apply List.Sublist.cons
      rcases List.mem_append.mp hid with hid | hid
      · rcases List.mem_append.mp hid with hid | hid
        · exact ((ihc hid).trans (List.sublist_append_left _ _)).trans (List.sublist_append_left _ _)
        · exact ((ihs hid).trans (List.sublist_append_right _ _)).trans (List.sublist_append_left _ _)
      · exact (ihr hid).trans (List.sublist_append_right _ _)

theorem flatMap_ways_range (t : TokenTree τ) :
    (List.range t.size).flatMap (t.ways .immediate) = t.links := by
  have hlinks : ∀ slots : List (TokenSlot τ), (List.range slots.length).flatMap (fun id =>
      slots[id]?.elim [] fun s => s.children ++ s.successor.toList) =
        slots.flatMap fun s => s.children ++ s.successor.toList := by
    intro slots
    induction slots with
    | nil => rfl
    | cons s slots ih =>
      rw [List.length_cons, List.range_succ_eq_map, List.flatMap_cons, List.flatMap_map]
      exact congrArg (_ ++ ·) ih
  rw [links, ← hlinks, Array.length_toList]
  refine List.flatMap_congr fun id _ => ?_
  rw [ways, Array.getElem?_toList]
  cases t.slots[id]? <;> rfl

theorem getElem?_range (n k : Nat) : (List.range n)[k]? = if k < n then some k else none := by
  split
  · next hk => exact List.getElem?_range hk
  · next hk =>
    rw [List.getElem?_eq_none_iff, List.length_range]
    omega

namespace InOrder

variable (h : t.InOrder)
include h

theorem toList_root : t.root.toList = [0] := by
  rw [h.first]
  rfl

/-- Every token but the root is linked to by just one token, and by one link. -/
theorem linked : (0 :: t.links).Perm (List.range t.size) := by
  have hperm := h.listed.perm_ways
  rwa [flatMap_ways_range] at hperm

theorem lt_of_way {id next : TokenId} (hid : id < t.size) (hnext : next ∈ t.ways .immediate id) :
    id < next := by
  have hsub := h.listed.sublist_of_way (List.mem_range.mpr hid) hnext
  have hsorted : [id, next].Pairwise (· < ·) := List.pairwise_lt_range.sublist hsub
  exact List.pairwise_pair.mp hsorted

theorem itinerary_branching {strategy : Strategy} (hs : strategy ≠ .linear) (k : Nat) :
    t.itinerary strategy k = if k < t.size then some k else none := by
  have hlisted := h.listed
  rw [← h.toList_root] at hlisted
  rw [hlisted.itinerary_eq hs, getElem?_range]

end InOrder

theorem aheadAt_linear (k : Nat) : t.aheadAt .linear k = (t.itinerary .linear k).toList := by
  rw [itinerary_eq]
  induction k with
  | zero =>
    change t.root.toList = t.root.toList.head?.toList
    cases t.root <;> rfl
  | succ k ih =>
    rw [aheadAt_succ, ih]
    cases (t.aheadAt .linear k).head? with
    | none => rfl
    | some id =>
      rw [Option.toList_some, onward, List.append_nil, ways]
      cases t.slots[id]? with
      | none => rfl
      | some s =>
        change s.successor.toList = s.successor.toList.head?.toList
        cases s.successor <;> rfl

theorem InOrder.lt_of_past_linear (h : t.InOrder) (hc : t.Closed) {k : Nat} {id : TokenId}
    (hid : t.itinerary .linear k = some id) : ∀ before ∈ t.past .linear k, before < id := by
  induction k generalizing id with
  | zero => nofun
  | succ k ih =>
    obtain ⟨last, hlast⟩ : ∃ last, t.itinerary .linear k = some last := by
      apply Option.ne_none_iff_exists'.mp
      intro hnone
      rw [itinerary_none_mono k.le_succ hnone] at hid
      cases hid
    have hway : id ∈ t.ways .linear last := by
      rw [itinerary_eq, aheadAt_succ, aheadAt_linear, hlast, Option.toList_some, onward,
        List.append_nil] at hid
      exact List.mem_of_mem_head? hid
    have hlt : last < id := h.lt_of_way (hc.itinerary_lt hlast) (ways_linear_subset last hway)
    intro before hbefore
    rw [past_succ hlast, List.mem_append, List.mem_singleton] at hbefore
    rcases hbefore with hbefore | rfl
    · exact (ih hlast before hbefore).trans hlt
    · exact hlt

/-- No walk comes to a token for a second time. -/
theorem InOrder.not_mem_past (h : t.InOrder) (hc : t.Closed) {strategy : Strategy} {k : Nat}
    {id : TokenId} (hid : t.itinerary strategy k = some id) : id ∉ t.past strategy k := by
  intro hmem
  by_cases hs : strategy = .linear
  · subst hs
    exact Nat.lt_irrefl id (h.lt_of_past_linear hc hid id hmem)
  · obtain ⟨j, hj, hbefore⟩ := List.mem_filterMap.mp hmem
    rw [List.mem_range] at hj
    rw [h.itinerary_branching hs, Option.ite_none_right_eq_some] at hid hbefore
    cases hid.2
    cases hbefore.2
    exact Nat.lt_irrefl _ hj

/-- The tokens lie in pre-order if a walk that is not guarded comes to them
in the order of their places. -/
theorem Closed.inOrder (hc : t.Closed) (hroot : t.root = some 0)
    (hvisits : ∀ k, t.itinerary .immediate k = if k < t.size then some k else none) :
    t.InOrder := by
  have hdeep : Strategy.immediate ≠ .linear := by decide
  have hthrough : t.itinerary .immediate t.size = none := by
    rw [hvisits, if_neg (Nat.lt_irrefl _)]
  rw [TokenTree.itinerary_eq, List.head?_eq_none_iff] at hthrough
  have hlt : ∀ id ∈ t.root.toList, id < t.size := fun id hid =>
    hc.root_lt id (Option.mem_toList.mp hid)
  obtain ⟨ids, hlisted⟩ := hc.exists_preorder hdeep hlt hthrough
  have hids : ids = List.range t.size := by
    apply List.ext_getElem?
    intro k
    rw [← hlisted.itinerary_eq hdeep, hvisits, getElem?_range]
  constructor
  case first => exact hroot
  case listed => rwa [hids, hroot] at hlisted

section Guarded

variable {σ : Type} {t : TokenTree (Token σ)} {strategy : Strategy} {limit k : Nat}
  {stop : Option Fault}

theorem InOrder.stop_not_revisits (h : t.InOrder) (hc : t.Closed)
    (hends : t.EndsAt strategy limit k stop) {f : Fault} (hf : stop = some f) : ¬ f.Revisits := by
  cases hends with
  | complete => cases hf
  | revisited first here before slot => exact absurd before (h.not_mem_past hc here)
  | exceeded first here new =>
    cases hf
    rintro ⟨id, label, heq⟩
    cases heq

/-- Nothing that is compiled from such a tree fails with a token that was come to twice. -/
theorem InOrder.compile_not_revisits (h : t.InOrder) (hc : t.Closed) {e : Engine}
    {stage : RunStage σ} {f : Fault} (hf : (e.compile t stage).1 = .error f) : ¬ f.Revisits := by
  have hplan : ∀ strategy, (e.plan strategy t stage).1 = .error f → ¬ f.Revisits := by
    intro strategy hplan
    obtain ⟨k, stop, hends⟩ := hc.exists_endsAt strategy e.config.maxTokens
    rcases hends.plan_fails hc h.first rfl hplan with hblames | hstop
    · exact Fault.not_revisits_of_blamesToken hblames
    · exact h.stop_not_revisits hc hends hstop
  unfold Engine.compile at hf
  split at hf
  · rw [start_eq_ok_iff.mpr h.first] at hf
    cases hf
  · apply hplan e.config.strategy
    dsimp only at hf
    cases hresult : (e.plan e.config.strategy t stage).1 with
    | error g =>
      rw [hresult] at hf
      cases hf
      rfl
    | ok plan =>
      rw [hresult] at hf
      cases hf

theorem InOrder.pass_not_revisits (h : t.InOrder) (hc : t.Closed) {tour : Tour σ}
    (ht : tour.tree = t) (r : Reporter) (signal : Signal) :
    Activity.Ends (fun p : Progress => ∀ f, p.outcome = .error f → ¬ f.Revisits)
      (tour.pass r signal) := by
  obtain ⟨k, stop, hends⟩ := hc.exists_endsAt .immediate tour.limit
  intro others sc p sc' hplay f hf
  rcases hends.pass_fails hc h.first ht rfl r signal others sc p sc' hplay f hf with hblames | hstop
  · exact Fault.not_revisits_of_blamesToken hblames
  · exact h.stop_not_revisits hc hends hstop

theorem InOrder.execute_not_revisits (h : t.InOrder) (hc : t.Closed) {e : Engine}
    {stage : RunStage σ} {c : Compiled σ} (hcompile : (e.compile t stage).1 = .ok c)
    (signal : Signal) :
    Activity.Ends (fun outcome : Outcome => ∀ f, outcome = .error f → ¬ f.Revisits)
      (c.execute signal) := by
  have hcancelled : ¬ Fault.cancelled.Revisits := Fault.not_revisits_of_blamesToken rfl
  cases c with
  | plan p => exact Plan.execute_not_revisits p signal
  | tour tour =>
    have htree : tour.tree = t := Engine.tree_of_compile hcompile
    change Activity.Ends _ (tour.execute signal)
    rw [Tour.execute_eq]
    refine (Activity.Ends.trivial _).bind fun r _ => ?_
    refine (h.pass_not_revisits hc htree r signal).bind fun p hp => ?_
    exact Reporter.finish_fails hp hcancelled

/-- Walks come to every token once, in the order of their places, and only
the limit holds them up. -/
structure Unhindered (t : TokenTree (Token σ)) : Prop where
  first : t.root = some 0
  listed : t.Preorder [0] (List.range t.size)
  linked : (0 :: t.links).Perm (List.range t.size)
  compiles : ∀ (e : Engine) stage f, (e.compile t stage).1 = .error f → ¬ f.Revisits
  executes : ∀ (e : Engine) stage c, (e.compile t stage).1 = .ok c → ∀ signal,
    Activity.Ends (fun outcome : Outcome => ∀ f, outcome = .error f → ¬ f.Revisits)
      (c.execute signal)
  passes : ∀ (tour : Tour σ), tour.tree = t → ∀ r signal,
    Activity.Ends (fun p : Progress => ∀ f, p.outcome = .error f → ¬ f.Revisits)
      (tour.pass r signal)
  within : ∀ limit, t.size ≤ limit →
    t.PlannedAs .hierarchical limit t.tokens none ∧ t.TouredAs limit t.tokens none
  beyond : ∀ limit, limit < t.size →
    t.PlannedAs .hierarchical limit (t.tokens.take limit) (some (.tokenLimit limit)) ∧
      t.TouredAs limit (t.tokens.take limit) (some (.tokenLimit limit))

theorem InOrder.unhindered (h : t.InOrder) (hc : t.Closed) : t.Unhindered := by
  have hplans := h.itinerary_branching (show Strategy.hierarchical ≠ .linear by decide)
  have htours := h.itinerary_branching (show Strategy.immediate ≠ .linear by decide)
  constructor
  case first => exact h.first
  case listed => exact h.listed
  case linked => exact h.linked
  case compiles => exact fun e stage f => h.compile_not_revisits hc
  case executes => exact fun e stage c => h.execute_not_revisits hc
  case passes => exact fun tour ht => h.pass_not_revisits hc ht
  case within =>
    intro limit hlimit
    obtain ⟨hplan, hplanned⟩ := endsAt_size hplans hlimit
    obtain ⟨htour, htoured⟩ := endsAt_size htours hlimit
    constructor
    · exact hplanned ▸ hplan.plannedAs hc h.first
    · exact htoured ▸ htour.touredAs hc h.first
  case beyond =>
    intro limit hlimit
    obtain ⟨hplan, hplanned⟩ := endsAt_limit hplans hlimit
    obtain ⟨htour, htoured⟩ := endsAt_limit htours hlimit
    constructor
    · exact hplanned ▸ hplan.plannedAs hc h.first
    · exact htoured ▸ htour.touredAs hc h.first

end Guarded

end TokenTree

namespace Model

variable {m : Model}

/-- The token tree of a model, on any graph whatever, holds up no walk. -/
theorem tokenTree_unhindered {start : String} {tree : TokenTree (Token Desk)}
    (h : m.tokenTree start = .ok tree) : tree.Unhindered := by
  obtain ⟨u, hu, rfl⟩ := grown_of_tokenTree h
  obtain ⟨hclosed, hroot, -, hitinerary⟩ := Graph.tokenTree_walk hu
  have hvisits : ∀ k, (u.map (·.token m)).itinerary .immediate k =
      if k < (u.map (·.token m)).size then some k else none := by
    intro k
    rw [TokenTree.itinerary_map, TokenTree.size_map, hitinerary]
  have hclosed' : (u.map (·.token m)).Closed := hclosed.map _
  have hroot' : (u.map (·.token m)).root = some 0 := hroot
  exact (hclosed'.inOrder hroot' hvisits).unhindered hclosed'

/-- Two nodes with one id, a connection from nowhere, and one to a port that there is not. -/
def scattered : Model where
  graph :=
    { id := "scattered", name := "Scattered"
      nodes := [Library.branch "ask", Library.print "say", Library.print "tell", Library.print "say"]
      connections := [⟨"ask", "ask.true", "say", "missing"⟩, ⟨"gone", "gone.next", "say", "say.exec"⟩,
        ⟨"ask", "ask.false", "tell", "tell.exec"⟩] }

theorem scattered_unhindered : scattered.graph.defects ≠ [] ∧
    ∃ tree, scattered.tokenTree "ask" = .ok tree ∧ tree.Unhindered ∧
      tree.tokens.map (·.label) = ["ask", "say", "tell"] := by
  have hlabels : (scattered.tokenTree "ask").map (·.tokens.map (·.label)) =
      .ok ["ask", "say", "tell"] := by decide +kernel
  constructor
  · decide +kernel
  · cases htree : scattered.tokenTree "ask" with
    | error f =>
      rw [htree] at hlabels
      cases hlabels
    | ok tree =>
      rw [htree] at hlabels
      exact ⟨tree, rfl, tokenTree_unhindered htree, Except.ok.inj hlabels⟩

end Model

end Flowchart
