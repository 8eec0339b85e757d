import Flowchart.Proofs.Model.Departures
import Flowchart.Proofs.Model.Growth

/-! What has become of the arrivals while a token tree grows: each is ahead or has landed, and those
from one token are the departures of its node, in order. -/
namespace Flowchart

structure Landing where
  arrival : Arrival
  node : Node

def Landing.token (l : Landing) : NodeToken :=
  { node := l.arrival.node, guards := l.arrival.guards }

namespace TokenSlot

variable {τ : Type} {s : TokenSlot τ} {place : TokenId} {placed : List (Arrival × TokenId)}

theorem children_extend : (s.extend place placed).children =
    s.children ++ (placed.filter (·.1.link = .childOf place)).map (·.2) := by
  unfold extend
  induction placed generalizing s with
  | nil => simp
  | cons x placed ih =>
    rw [List.foldl_cons, ih]
    by_cases hx : x.1.link = .childOf place
    · simp [hx, Link.extend]
    · have hsame : (x.1.link.extend x.2 place s).children = s.children := by
        unfold Link.extend
        split
        · rfl
        · split <;> rfl
        · next p hp => rw [if_neg (fun h => hx (by rw [hp, h]))]
      rw [hsame, List.filter_cons_of_neg (by simpa using hx)]

theorem successor_extend : (s.extend place placed).successor =
    ((placed.filter (·.1.link = .successorOf place)).getLast?.map (·.2)).or s.successor := by
  unfold extend
  induction placed generalizing s with
  | nil => simp
  | cons x placed ih =>
    rw [List.foldl_cons, ih]
    by_cases hx : x.1.link = .successorOf place
    · rw [List.filter_cons_of_pos (by simpa using hx), List.getLast?_cons]
      cases (placed.filter (·.1.link = .successorOf place)).getLast? <;> simp [hx, Link.extend]
    · have hsame : (x.1.link.extend x.2 place s).successor = s.successor := by
        unfold Link.extend
        split
        · rfl
        · next p hp => rw [if_neg (fun h => hx (by rw [hp, h]))]
        · split <;> rfl
      rw [hsame, List.filter_cons_of_neg (by simpa using hx)]

theorem token_extend : (s.extend place placed).token = s.token := by
  unfold extend
  induction placed generalizing s with
  | nil => rfl
  | cons x placed ih =>
    rw [List.foldl_cons, ih]
    unfold Link.extend
    split
    · rfl
    · split <;> rfl
    · split <;> rfl

end TokenSlot

namespace Graph

variable {g : Graph}

/-- The arrivals that come from a token, in order, or the one that control starts with. -/
def arrivalsFrom (g : Graph) (start : String) (landed : List Landing) :
    Option TokenId → List Arrival
  | none => [{ node := start }]
  | some i => match landed[i]? with
    | some l => g.departures l.node l.arrival.guards i
    | none => []

theorem arrivalsFrom_of_getElem? (start : String) {landed : List Landing} {i : TokenId}
    {l : Landing} (hl : landed[i]? = some l) :
    g.arrivalsFrom start landed (some i) = g.departures l.node l.arrival.guards i := by
  simp only [arrivalsFrom, hl]

theorem arrivalsFrom_of_le {start : String} {landed : List Landing} {i : TokenId}
    (hi : landed.length ≤ i) : g.arrivalsFrom start landed (some i) = [] := by
  simp only [arrivalsFrom, List.getElem?_eq_none hi]

/-- How far a token tree has grown from a start: where control has landed, and what lies ahead. -/
structure Survey (g : Graph) (start : String) (unseen : List Node) (landed : List Landing)
    (ahead : List Arrival) (t : TokenTree NodeToken) : Prop where
  size_eq : t.size = landed.length
  slots : ∀ i : TokenId, t.slots[i]? = landed[i]?.map fun l =>
    ({ token := l.token } : TokenSlot NodeToken).extend i (landed.map (·.arrival)).zipIdx
  named : ∀ l ∈ landed, l.node ∈ g.nodes ∧ l.node.id = l.arrival.node
  once : (landed.map (·.arrival.node)).Nodup
  mem_unseen : ∀ n, n ∈ unseen ↔ n ∈ g.nodes ∧ n.id ∉ landed.map (·.arrival.node)
  sorted : ∀ source, (landed.map (·.arrival) ++ ahead).filter (·.link.source? = source) =
    g.arrivalsFrom start landed source
  traced : ∀ a ∈ landed.map (·.arrival) ++ ahead, ∃ path, g.ControlPath start path a.node ∧
    a.guards = g.guardsAlong path

namespace Survey

variable {start : String} {unseen : List Node} {landed : List Landing} {ahead : List Arrival}
  {t : TokenTree NodeToken} {a : Arrival}

theorem begin (g : Graph) (start : String) :
    g.Survey start g.nodes [] [{ node := start }] {} := by
  constructor
  case size_eq => rfl
  case slots => simp
  case named => simp
  case once => exact List.nodup_nil
  case mem_unseen => simp
  case sorted =>
    intro source
    cases source <;> simp [arrivalsFrom, Link.source?]
  case traced =>
    intro a ha
    rw [List.mem_singleton.mp ha]
    exact ⟨[], .nil, rfl⟩

theorem below (h : g.Survey start unseen landed ahead t) {a : Arrival}
    (ha : a ∈ landed.map (·.arrival) ++ ahead) : a.link.Below t.size := by
  have hlt : ∀ i, a.link.source? = some i → i < t.size := by
    intro i hi
    have hmem : a ∈ g.arrivalsFrom start landed (some i) := by
      rw [← h.sorted]
      exact List.mem_filter.mpr ⟨ha, by simpa using hi⟩
    by_contra hle
    rw [arrivalsFrom_of_le (h.size_eq ▸ Nat.le_of_not_lt hle)] at hmem
    cases hmem
  cases hl : a.link with
  | none => exact True.intro
  | successorOf p => exact hlt p (by rw [hl]; rfl)
  | childOf p => exact hlt p (by rw [hl]; rfl)

/-- Landing puts a token without links at the end and links it to the one it departed from. -/
theorem slots_land (h : g.Survey start unseen landed (a :: ahead) t) (n : Node) (i : TokenId) :
    ((t.push { node := a.node, guards := a.guards }).link t.size a.link).slots[i]? =
      (landed ++ [(⟨a, n⟩ : Landing)])[i]?.map fun l => ({ token := l.token } : TokenSlot NodeToken).extend i
        ((landed ++ [(⟨a, n⟩ : Landing)]).map (·.arrival)).zipIdx := by
  have hbelow : a.link.Below t.size := h.below (by simp)
  have hzip : ((landed ++ [(⟨a, n⟩ : Landing)]).map (·.arrival)).zipIdx =
      (landed.map (·.arrival)).zipIdx ++ [(a, t.size)] := by
    rw [List.map_append, List.zipIdx_append, List.length_map, h.size_eq, Nat.add_comm]
    rfl
  rw [TokenTree.getElem?_link, hzip]
  rcases Nat.lt_trichotomy i t.size with hi | rfl | hi
  · rw [TokenTree.getElem?_push_of_lt hi, h.slots, List.getElem?_append_left (h.size_eq ▸ hi),
      Option.map_map]
    refine congrFun (congrArg Option.map (funext fun l => ?_)) _
    rw [TokenSlot.extend_append]
    rfl
  · -- Nothing that came before is linked to the new token.
    have hold : ∀ x ∈ (landed.map (·.arrival)).zipIdx ++ [(a, t.size)],
        ∀ s : TokenSlot NodeToken, x.1.link.extend x.2 t.size s = s := by
      intro x hx s
      refine TokenTree.extend_of_below ?_ le_rfl _ _
      rcases List.mem_append.mp hx with hx | hx
      · exact h.below (List.mem_append_left _ (List.fst_mem_of_mem_zipIdx hx))
      · rw [List.mem_singleton.mp hx]
        exact hbelow
    rw [TokenTree.getElem?_push_size, h.size_eq, List.getElem?_append_right le_rfl]
    rw [Nat.sub_self, List.getElem?_cons_zero, Option.map_some, Option.map_some, ← h.size_eq,
      TokenSlot.extend_of_unlinked hold, TokenTree.extend_of_below hbelow le_rfl]
    rfl
  · have hnone : (t.push { node := a.node, guards := a.guards }).slots[i]? = none := by
      apply Array.getElem?_eq_none
      have := TokenTree.size_push (t := t) { node := a.node, guards := a.guards }
      unfold TokenTree.size at this hi
      omega
    rw [hnone, List.getElem?_eq_none]
    · rfl
    · rw [List.length_append, List.length_singleton, ← h.size_eq]
      omega

/-- What departs from the new token's node comes from it, and nothing else does. -/
theorem sorted_land (hw : g.WellFormed) (h : g.Survey start unseen landed (a :: ahead) t) {n : Node}
    (hn : n ∈ g.nodes) (source : Option TokenId) :
    ((landed ++ [(⟨a, n⟩ : Landing)]).map (·.arrival) ++ (g.departures n a.guards t.size ++ ahead)).filter
      (·.link.source? = source) = g.arrivalsFrom start (landed ++ [⟨a, n⟩]) source := by
  have hold := h.sorted source
  rw [← List.singleton_append, ← List.append_assoc, List.filter_append] at hold
  rw [List.map_append, ← List.append_assoc, List.filter_append, List.filter_append,
    filter_departures hw hn]
  by_cases hs : source = some t.size
  · subst hs
    rw [arrivalsFrom_of_le (by rw [h.size_eq]), List.append_eq_nil_iff] at hold
    have hlast : (landed ++ [⟨a, n⟩])[t.size]? = some ⟨a, n⟩ := by
      simp [h.size_eq]
    rw [arrivalsFrom_of_getElem? _ hlast, if_pos rfl, hold.2, List.append_nil]
    exact congrArg (· ++ _) hold.1
  · rw [if_neg hs, List.append_nil]
    refine hold.trans ?_
    cases source with
    | none => rfl
    | some i =>
      have hi : i ≠ landed.length := fun hi => hs (by rw [hi, h.size_eq])
      rcases Nat.lt_or_gt_of_ne hi with hi | hi
      · simp only [arrivalsFrom, List.getElem?_append_left hi]
      · have hle : (landed ++ [(⟨a, n⟩ : Landing)]).length ≤ i := by
          rw [List.length_append]
          exact hi
        rw [arrivalsFrom_of_le hle, arrivalsFrom_of_le (Nat.le_of_lt hi)]

/-- The next arrival lands, and what departs from its node lies ahead of the others. -/
theorem land (hw : g.WellFormed) {n : Node} (h : g.Survey start unseen landed (a :: ahead) t)
    (found : unseen.find? (·.id = a.node) = some n) :
    g.Survey start (nodesBut a.node unseen) (landed ++ [⟨a, n⟩])
      (g.departures n a.guards t.size ++ ahead)
      ((t.push { node := a.node, guards := a.guards }).link t.size a.link) := by
  have hid : n.id = a.node := by simpa using List.find?_some found
  obtain ⟨hn, hfresh⟩ := (h.mem_unseen n).mp (List.mem_of_find?_eq_some found)
  rw [hid] at hfresh
  constructor
  case size_eq => simp [h.size_eq]
  case slots => exact h.slots_land n
  case named =>
    intro l hl
    rcases List.mem_append.mp hl with hl | hl
    · exact h.named l hl
    · rw [List.mem_singleton.mp hl]
      exact ⟨hn, hid⟩
  case once =>
    rw [List.map_append]
    refine List.nodup_append.mpr ⟨h.once, List.nodup_singleton _, fun x hx y hy hxy => hfresh ?_⟩
    rw [List.mem_singleton.mp hy] at hxy
    rwa [hxy] at hx
  case mem_unseen =>
    intro m
    simp only [nodesBut, List.mem_filter, h.mem_unseen, List.map_append, List.mem_append,
      List.map_cons, List.map_nil, List.mem_singleton, decide_eq_true_eq]
    tauto
  case sorted => exact h.sorted_land hw hn
  case traced =>
    intro b hb
    rw [List.map_append, List.append_assoc, List.mem_append, List.mem_append, List.mem_append] at hb
    rcases hb with hb | hb | hb | hb
    · exact h.traced b (List.mem_append_left _ hb)
    · exact h.traced b (List.mem_append_right _ (List.mem_cons.mpr (.inl (List.mem_singleton.mp hb))))
    · obtain ⟨path, hpath, hguards⟩ := h.traced a (by simp)
      obtain ⟨c, hc, hcarries, hnode, rfl⟩ := connection_of_departure hw hn hb
      rw [← hid, ← hnode] at hpath
      exact ⟨path ++ [c], .snoc hpath hc hcarries, by rw [guardsAlong_snoc, ← hguards]; rfl⟩
    · exact h.traced b (List.mem_append_right _ (List.mem_cons_of_mem _ hb))

/-- A tree that has grown to its end has landed all arrivals. -/
theorem grow_ok (hw : g.WellFormed) (h : g.Survey start unseen landed ahead t)
    {t' : TokenTree NodeToken} (hg : g.grow unseen ahead t = .ok t') :
    ∃ unseen landed, g.Survey start unseen landed [] t' := by
  fun_induction Graph.grow g unseen ahead t generalizing landed with
  | case1 unseen t =>
    cases hg
    exact ⟨unseen, landed, h⟩
  | case2 => cases hg
  | case3 => cases hg
  | case4 unseen t a ahead n found id t₁ =>
    rename_i ih
    exact ih (h.land hw found) hg

/-- A tree stops growing at an arrival whose node has landed or is unknown. -/
theorem grow_error (hw : g.WellFormed) (h : g.Survey start unseen landed ahead t) {f : Fault}
    (hg : g.grow unseen ahead t = .error f) :
    ∃ unseen landed a ahead t, g.Survey start unseen landed (a :: ahead) t ∧
      (a.node ∈ landed.map (·.arrival.node) ∧ f = .duplicateFlowPath a.node ∨
        g.node? a.node = none ∧ f = .nodeNotFound a.node) := by
  fun_induction Graph.grow g unseen ahead t generalizing landed with
  | case1 => cases hg
  | case2 unseen t a ahead found known =>
    cases hg
    obtain ⟨n, hn⟩ := Option.isSome_iff_exists.mp known
    obtain ⟨hmem, hid⟩ := (node?_eq_some_iff hw.nodes_nodup).mp hn
    refine ⟨unseen, landed, a, ahead, t, h, .inl ⟨?_, rfl⟩⟩
    by_contra hfresh
    have hunseen : n ∈ unseen := (h.mem_unseen n).mpr ⟨hmem, hid ▸ hfresh⟩
    have := List.find?_eq_none.mp found n hunseen
    simp [hid] at this
  | case3 unseen t a ahead found unknown =>
    cases hg
    exact ⟨unseen, landed, a, ahead, t, h, .inr ⟨by simpa using unknown, rfl⟩⟩
  | case4 unseen t a ahead n found id t₁ =>
    rename_i ih
    exact ih (h.land hw found) hg

end Survey

end Graph

end Flowchart
