import Mathlib.Data.List.Nodup
import Mathlib.Data.List.Perm.Subperm
import Mathlib.Logic.Function.Iterate
import Mathlib.Data.Nat.Find
import Mathlib.Order.Bounds.Basic
import Flowchart.Proofs.Walk.Links
import Flowchart.Walk

/-! Where a walk that is not guarded comes to, one position after the other and maybe for ever, and
the position where a guarded walk of the same tree ends. -/
namespace Flowchart.TokenTree

variable {τ : Type}

/-- The first tokens, `n` at most, of an unguarded walk of the branch of a token. -/
def branch (t : TokenTree τ) (strategy : Strategy) : Nat → TokenId → List TokenId
  | 0, _ => []
  | n + 1, id => id ::
    match t.slots[id]? with
    | none => []
    | some s =>
      let children := match strategy with
        | .linear => []
        | .hierarchical | .immediate => s.children.flatMap (t.branch strategy n)
      let onward := match s.successor with
        | none => []
        | some next => t.branch strategy n next
      (children ++ onward).take n

/-- The token that the unguarded walk from the root comes to at a position, counted from 0. -/
def itinerary (t : TokenTree τ) (strategy : Strategy) (k : Nat) : Option TokenId :=
  t.root.bind fun root => (t.branch strategy (k + 1) root)[k]?

def past (t : TokenTree τ) (strategy : Strategy) (k : Nat) : List TokenId :=
  (List.range k).filterMap (t.itinerary strategy)

/-- A guarded walk may not go on to a position: its token came before, or the limit is reached. -/
def Trips (t : TokenTree τ) (strategy : Strategy) (limit k : Nat) : Prop :=
  ∃ id, t.itinerary strategy k = some id ∧ (id ∈ t.past strategy k ∨ limit ≤ k)

/-- A guarded walk ends at the first position it may not go on to, or with its itinerary. -/
inductive EndsAt {σ : Type} (t : TokenTree (Token σ)) (strategy : Strategy) (limit : Nat) :
    Nat → Option Fault → Prop
  | complete {k : Nat} (never : ∀ j, ¬ t.Trips strategy limit j)
      (through : ∀ j, t.itinerary strategy j = none ↔ k ≤ j) : EndsAt t strategy limit k none
  | revisited {k : Nat} {id : TokenId} {s : TokenSlot (Token σ)}
      (first : IsLeast {j | t.Trips strategy limit j} k) (here : t.itinerary strategy k = some id)
      (before : id ∈ t.past strategy k) (slot : t.slots[id]? = some s) :
      EndsAt t strategy limit k (some (.tokenRevisited id s.token.label))
  | exceeded {k : Nat} {id : TokenId}
      (first : IsLeast {j | t.Trips strategy limit j} k) (here : t.itinerary strategy k = some id)
      (new : id ∉ t.past strategy k) : EndsAt t strategy limit k (some (.tokenLimit limit))

def ways (t : TokenTree τ) (strategy : Strategy) (id : TokenId) : List TokenId :=
  match t.slots[id]? with
  | none => []
  | some s => strategy.next s

def onward (t : TokenTree τ) (strategy : Strategy) : List TokenId → List TokenId
  | [] => []
  | id :: rest => t.ways strategy id ++ rest

def aheadAt (t : TokenTree τ) (strategy : Strategy) (k : Nat) : List TokenId :=
  (t.onward strategy)^[k] t.root.toList

variable {t : TokenTree τ} {strategy : Strategy}

theorem branch_succ (n : Nat) (id : TokenId) : t.branch strategy (n + 1) id =
    id :: ((t.ways strategy id).flatMap (t.branch strategy n)).take n := by
  unfold branch ways Strategy.next
  cases t.slots[id]? with
  | none => simp
  | some s =>
    obtain ⟨_, successor, _⟩ := s
    cases strategy <;> cases successor <;> simp

/-- The first items of what is put together depend only on the first items of the parts. -/
theorem take_flatMap_congr {α β : Type} {f g : α → List β} {n : Nat}
    (h : ∀ a, (f a).take n = (g a).take n) (l : List α) :
    (l.flatMap f).take n = (l.flatMap g).take n := by
  induction l with
  | nil => rfl
  | cons a l ih =>
    rw [List.flatMap_cons, List.flatMap_cons, List.take_append, List.take_append, h a]
    congr 1
    have hlen : n - (f a).length = n - (g a).length := by
      have := congrArg List.length (h a)
      simp only [List.length_take] at this
      omega
    have hle : n - (g a).length ≤ n := Nat.sub_le _ _
    rw [hlen, ← Nat.min_eq_left hle, ← List.take_take, ih, List.take_take]

theorem take_branch_succ (n : Nat) (id : TokenId) :
    (t.branch strategy (n + 1) id).take n = t.branch strategy n id := by
  induction n generalizing id with
  | zero => rfl
  | succ n ih =>
    rw [branch_succ, branch_succ, List.take_succ_cons, List.take_take, Nat.min_eq_left n.le_succ]
    congr 1
    refine take_flatMap_congr (fun id => ?_) _
    rw [ih, ← ih id, List.take_take, Nat.min_self]

/-- The walk takes up what lies ahead one token at a time. -/
theorem take_flatMap_branch (n : Nat) (id : TokenId) (rest : List TokenId) :
    ((id :: rest).flatMap (t.branch strategy (n + 1))).take (n + 1) =
      id :: ((t.onward strategy (id :: rest)).flatMap (t.branch strategy n)).take n := by
  rw [List.flatMap_cons, branch_succ, List.cons_append, List.take_succ_cons, onward,
    List.flatMap_append]
  congr 1
  rw [List.take_append, List.take_append, List.take_take, Nat.min_self]
  congr 1
  have hcongr : ∀ m ≤ n, (rest.flatMap (t.branch strategy (n + 1))).take m =
      (rest.flatMap (t.branch strategy n)).take m := by
    intro m hm
    refine take_flatMap_congr (fun id => ?_) _
    rw [← take_branch_succ n, List.take_take, Nat.min_eq_left hm]
  rw [hcongr _ (Nat.sub_le _ _), List.length_take]
  congr 1
  omega

theorem getElem?_flatMap_branch (k : Nat) (ahead : List TokenId) :
    (ahead.flatMap (t.branch strategy (k + 1)))[k]? = ((t.onward strategy)^[k] ahead).head? := by
  rw [← List.getElem?_take_of_lt k.lt_succ_self]
  induction k generalizing ahead with
  | zero =>
    cases ahead with
    | nil => rfl
    | cons id rest => rw [take_flatMap_branch]; rfl
  | succ k ih =>
    rw [Function.iterate_succ_apply]
    cases ahead with
    | nil => rw [onward, ← ih]; rfl
    | cons id rest => rw [take_flatMap_branch, List.getElem?_cons_succ, ih]

theorem itinerary_eq (k : Nat) : t.itinerary strategy k = (t.aheadAt strategy k).head? := by
  unfold itinerary aheadAt
  rw [← getElem?_flatMap_branch]
  cases t.root <;> simp

theorem aheadAt_succ (k : Nat) :
    t.aheadAt strategy (k + 1) = t.onward strategy (t.aheadAt strategy k) :=
  Function.iterate_succ_apply' ..

theorem past_succ {k : Nat} {id : TokenId} (h : t.itinerary strategy k = some id) :
    t.past strategy (k + 1) = t.past strategy k ++ [id] := by
  simp [past, List.range_succ, h]

theorem itinerary_none_mono {j k : Nat} (hjk : j ≤ k) (h : t.itinerary strategy j = none) :
    t.itinerary strategy k = none := by
  rw [itinerary_eq, List.head?_eq_none_iff] at *
  induction hjk with
  | refl => exact h
  | step _ ih => rw [aheadAt_succ, ih, onward]

theorem length_past {k : Nat} (h : ∀ j < k, t.itinerary strategy j ≠ none) :
    (t.past strategy k).length = k := by
  induction k with
  | zero => rfl
  | succ k ih =>
    obtain ⟨id, hid⟩ := Option.ne_none_iff_exists'.mp (h k k.lt_succ_self)
    rw [past_succ hid, List.length_append, ih fun j hj => h j (Nat.lt_succ_of_lt hj)]
    rfl

theorem nodup_past {limit k : Nat} (h : ∀ j < k, ¬ t.Trips strategy limit j) :
    (t.past strategy k).Nodup := by
  induction k with
  | zero => exact List.nodup_nil
  | succ k ih =>
    have hk := ih fun j hj => h j (Nat.lt_succ_of_lt hj)
    cases hid : t.itinerary strategy k with
    | none => simpa [past, List.range_succ, hid] using hk
    | some id =>
      rw [past_succ hid, List.nodup_append_comm]
      refine List.nodup_cons.mpr ⟨fun hmem => ?_, hk⟩
      exact h k k.lt_succ_self ⟨id, hid, .inl hmem⟩

namespace Closed

variable (h : t.Closed)
include h

theorem lt_of_mem_ways {id next : TokenId} (hn : next ∈ t.ways strategy id) : next < t.size := by
  unfold ways at hn
  cases hs : t.slots[id]? with
  | none => simp [hs] at hn
  | some s =>
    apply h.link_lt id s hs next
    rw [hs] at hn
    unfold Strategy.next at hn
    cases strategy with
    | linear => exact List.mem_append_right _ hn
    | hierarchical => exact hn
    | immediate => exact hn

theorem lt_of_mem_aheadAt {k : Nat} {id : TokenId} (hid : id ∈ t.aheadAt strategy k) :
    id < t.size := by
  induction k generalizing id with
  | zero =>
    have hroot : id ∈ t.root.toList := hid
    exact h.root_lt id (Option.mem_toList.mp hroot)
  | succ k ih =>
    rw [aheadAt_succ] at hid
    cases ha : t.aheadAt strategy k with
    | nil => simp [ha, onward] at hid
    | cons first rest =>
      rw [ha, onward, List.mem_append] at hid
      rw [ha] at ih
      rcases hid with hid | hid
      · exact h.lt_of_mem_ways hid
      · exact ih (List.mem_cons_of_mem _ hid)

theorem itinerary_lt {k : Nat} {id : TokenId} (hid : t.itinerary strategy k = some id) :
    id < t.size := by
  rw [itinerary_eq] at hid
  exact h.lt_of_mem_aheadAt (List.mem_of_mem_head? hid)

theorem past_lt {k : Nat} {id : TokenId} (hid : id ∈ t.past strategy k) : id < t.size := by
  obtain ⟨j, _, hj⟩ := List.mem_filterMap.mp hid
  exact h.itinerary_lt hj

/-- As long as no token comes twice there are no more positions than tokens. -/
theorem le_size {limit k : Nat} (hnever : ∀ j < k, ¬ t.Trips strategy limit j)
    (hgoes : ∀ j < k, t.itinerary strategy j ≠ none) : k ≤ t.size := by
  have hsub : t.past strategy k ⊆ List.range t.size := fun id hid =>
    List.mem_range.mpr (h.past_lt hid)
  have hle := ((nodup_past hnever).subperm hsub).length_le
  rwa [length_past hgoes, List.length_range] at hle

end Closed

section EndsAt

variable {σ : Type} {t : TokenTree (Token σ)} {limit k : Nat} {stop : Option Fault}

/-- Up to the end of a guarded walk nothing holds it up. -/
theorem EndsAt.before (h : t.EndsAt strategy limit k stop) {j : Nat} (hj : j < k) :
    ¬ t.Trips strategy limit j ∧ ∃ id, t.itinerary strategy j = some id := by
  -- An itinerary has no gaps.
  have hgoes : ∀ id, t.itinerary strategy k = some id → ∃ id, t.itinerary strategy j = some id := by
    intro id hid
    apply Option.ne_none_iff_exists'.mp
    intro hnone
    rw [itinerary_none_mono (Nat.le_of_lt hj) hnone] at hid
    cases hid
  cases h with
  | complete never through =>
    refine ⟨never j, Option.ne_none_iff_exists'.mp fun hnone => ?_⟩
    have := (through j).mp hnone
    omega
  | revisited first here =>
    exact ⟨fun ht => absurd (first.2 ht) (Nat.not_le_of_lt hj), hgoes _ here⟩
  | exceeded first here =>
    exact ⟨fun ht => absurd (first.2 ht) (Nat.not_le_of_lt hj), hgoes _ here⟩

theorem EndsAt.le_limit (h : t.EndsAt strategy limit k stop) : k ≤ limit := by
  by_contra hlt
  obtain ⟨hno, id, hid⟩ := h.before (Nat.lt_of_not_le hlt)
  exact hno ⟨id, hid, .inr le_rfl⟩

theorem EndsAt.le_size (h : t.EndsAt strategy limit k stop) (hc : t.Closed) : k ≤ t.size := by
  refine hc.le_size (fun j hj => (h.before hj).1) fun j hj => ?_
  obtain ⟨id, hid⟩ := (h.before hj).2
  simp [hid]

theorem EndsAt.unique {k' : Nat} {stop' : Option Fault} (h : t.EndsAt strategy limit k stop)
    (h' : t.EndsAt strategy limit k' stop') : k' = k ∧ stop' = stop := by
  cases h with
  | complete never through =>
    cases h' with
    | complete never' through' =>
      have hle := (through _).mp ((through' _).mpr le_rfl)
      have hge := (through' _).mp ((through _).mpr le_rfl)
      exact ⟨Nat.le_antisymm hge hle, rfl⟩
    | revisited first' => exact absurd first'.1 (never _)
    | exceeded first' => exact absurd first'.1 (never _)
  | revisited first here before slot =>
    cases h' with
    | complete never' => exact absurd first.1 (never' _)
    | revisited first' here' before' slot' =>
      obtain rfl := first.unique first'
      rw [here] at here'
      cases here'
      rw [slot] at slot'
      cases slot'
      exact ⟨rfl, rfl⟩
    | exceeded first' here' new' =>
      obtain rfl := first.unique first'
      rw [here] at here'
      cases here'
      exact absurd before new'
  | exceeded first here new =>
    cases h' with
    | complete never' => exact absurd first.1 (never' _)
    | revisited first' here' before' =>
      obtain rfl := first.unique first'
      rw [here] at here'
      cases here'
      exact absurd before' new
    | exceeded first' => exact ⟨(first.unique first').symm, rfl⟩

/-- A guarded walk ends, since no itinerary goes on past the limit. -/
theorem Closed.exists_endsAt (hc : t.Closed) (strategy : Strategy) (limit : Nat) :
    ∃ k stop, t.EndsAt strategy limit k stop := by
  classical
  by_cases htrips : ∃ j, t.Trips strategy limit j
  · have hfirst : IsLeast {j | t.Trips strategy limit j} (Nat.find htrips) :=
      ⟨Nat.find_spec htrips, fun j hj => Nat.find_min' htrips hj⟩
    obtain ⟨id, hid, _⟩ := Nat.find_spec htrips
    by_cases hmem : id ∈ t.past strategy (Nat.find htrips)
    · have hslot := Array.getElem?_eq_getElem (hc.itinerary_lt hid)
      exact ⟨_, _, .revisited hfirst hid hmem hslot⟩
    · exact ⟨_, _, .exceeded hfirst hid hmem⟩
  · have hnever : ∀ j, ¬ t.Trips strategy limit j := fun j hj => htrips ⟨j, hj⟩
    have hends : ∃ j, t.itinerary strategy j = none := by
      -- If there were a token at the limit, the walk would trip there.
      use limit
      by_contra hne
      obtain ⟨id, hid⟩ := Option.ne_none_iff_exists'.mp hne
      exact hnever limit ⟨id, hid, .inr le_rfl⟩
    refine ⟨Nat.find hends, none, .complete hnever fun j => ⟨fun hj => Nat.find_min' hends hj, ?_⟩⟩
    exact fun hj => itinerary_none_mono hj (Nat.find_spec hends)

end EndsAt

end Flowchart.TokenTree
