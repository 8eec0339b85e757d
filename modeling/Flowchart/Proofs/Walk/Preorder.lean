import Flowchart.Proofs.Walk.Guarded

/-! The tokens of a tree in pre-order, and the walks that take them all. -/
namespace Flowchart

namespace TokenTree

variable {τ : Type}

/-- The tokens of branches in pre-order: each token, the branches of its
children, and that of its successor. -/
inductive Preorder (t : TokenTree τ) : List TokenId → List TokenId → Prop
  | nil : Preorder t [] []
  | cons {id : TokenId} {slot : TokenSlot τ} {branches inner onward others : List TokenId}
      (here : t.slots[id]? = some slot) (children : Preorder t slot.children inner)
      (successor : Preorder t slot.successor.toList onward) (rest : Preorder t branches others) :
      Preorder t (id :: branches) (id :: (inner ++ onward ++ others))

/-- The walk from the root comes to the tokens `ids`, to none twice and to `limit` at most. -/
structure WalksOnce (t : TokenTree τ) (limit : Nat) (ids : List TokenId) : Prop where
  listed : t.root ≠ none ∧ t.Preorder t.root.toList ids
  nodup : ids.Nodup
  within : ids.length ≤ limit

variable {t : TokenTree τ}

namespace Preorder

variable {id : TokenId} {ahead ids : List TokenId}

theorem append {xs ys as bs : List TokenId} (hx : t.Preorder xs as) (hy : t.Preorder ys bs) :
    t.Preorder (xs ++ ys) (as ++ bs) := by
  induction hx with
  | nil => exact hy
  | cons here children successor _ _ _ ih =>
    rw [List.cons_append, List.cons_append, List.append_assoc _ _ bs]
    exact .cons here children successor ih

theorem of_append {xs ys ids : List TokenId} (h : t.Preorder (xs ++ ys) ids) :
    ∃ as bs, ids = as ++ bs ∧ t.Preorder xs as ∧ t.Preorder ys bs := by
  induction xs generalizing ids with
  | nil => exact ⟨[], ids, rfl, .nil, h⟩
  | cons id xs ih =>
    rw [List.cons_append] at h
    cases h with
    | @cons _ _ _ inner onward _ here children successor rest =>
      obtain ⟨as, bs, rfl, hx, hy⟩ := ih rest
      refine ⟨id :: (inner ++ onward ++ as), bs, ?_, .cons here children successor hx, hy⟩
      simp only [List.cons_append, List.append_assoc]

theorem cons_iff : t.Preorder (id :: ahead) ids ↔ ∃ slot rest, t.slots[id]? = some slot ∧
    ids = id :: rest ∧ t.Preorder (slot.children ++ slot.successor.toList ++ ahead) rest := by
  constructor
  · intro h
    cases h with
    | cons here children successor rest =>
      exact ⟨_, _, here, rfl, (children.append successor).append rest⟩
  · rintro ⟨slot, rest, here, rfl, h⟩
    obtain ⟨linked, others, rfl, hlinked, hothers⟩ := of_append h
    obtain ⟨inner, onward, rfl, hinner, honward⟩ := of_append hlinked
    exact .cons here hinner honward hothers

end Preorder

section Itinerary

variable {strategy : Strategy} {limit : Nat} {ids : List TokenId}

theorem next_of_branching (h : strategy ≠ .linear) (slot : TokenSlot τ) :
    strategy.next slot = slot.children ++ slot.successor.toList := by
  cases strategy with
  | linear => exact absurd rfl h
  | hierarchical => rfl
  | immediate => rfl

theorem onward_of_slot (hs : strategy ≠ .linear) {id : TokenId} {slot : TokenSlot τ}
    (here : t.slots[id]? = some slot) (rest : List TokenId) :
    t.onward strategy (id :: rest) = slot.children ++ slot.successor.toList ++ rest := by
  rw [onward, ways, here]
  dsimp only
  rw [next_of_branching hs]

/-- A walk that takes up what is ahead of it one by one comes to the tokens in pre-order. -/
theorem Preorder.head?_onward (hs : strategy ≠ .linear) {ahead : List TokenId}
    (h : t.Preorder ahead ids) (k : Nat) : ((t.onward strategy)^[k] ahead).head? = ids[k]? := by
  induction k generalizing ahead ids with
  | zero => cases h <;> rfl
  | succ k ih =>
    rw [Function.iterate_succ_apply]
    cases ahead with
    | nil =>
      cases h
      exact ih .nil
    | cons id rest =>
      obtain ⟨slot, ids, here, rfl, hrest⟩ := Preorder.cons_iff.mp h
      rw [onward_of_slot hs here, List.getElem?_cons_succ]
      exact ih hrest

theorem Preorder.itinerary_eq (hs : strategy ≠ .linear) (h : t.Preorder t.root.toList ids)
    (k : Nat) : t.itinerary strategy k = ids[k]? := by
  rw [TokenTree.itinerary_eq]
  exact h.head?_onward hs k

/-- What lies ahead of a walk that comes to an end is listed in pre-order. -/
theorem Closed.exists_preorder (hc : t.Closed) (hs : strategy ≠ .linear) {k : Nat}
    {ahead : List TokenId} (hahead : ∀ id ∈ ahead, id < t.size)
    (hend : (t.onward strategy)^[k] ahead = []) : ∃ ids, t.Preorder ahead ids := by
  induction k generalizing ahead with
  | zero =>
    obtain rfl : ahead = [] := hend
    exact ⟨[], .nil⟩
  | succ k ih =>
    cases ahead with
    | nil => exact ⟨[], .nil⟩
    | cons id rest =>
      obtain ⟨slot, here⟩ : ∃ slot, t.slots[id]? = some slot :=
        ⟨_, Array.getElem?_eq_getElem (hahead id List.mem_cons_self)⟩
      rw [Function.iterate_succ_apply, onward_of_slot hs here] at hend
      have hlt : ∀ next ∈ slot.children ++ slot.successor.toList ++ rest, next < t.size := by
        intro next hnext
        rcases List.mem_append.mp hnext with hlink | hrest
        · exact hc.link_lt id slot here next hlink
        · exact hahead next (List.mem_cons_of_mem _ hrest)
      obtain ⟨ids, hids⟩ := ih hlt hend
      exact ⟨id :: ids, Preorder.cons_iff.mpr ⟨slot, ids, here, rfl, hids⟩⟩

end Itinerary

section Guarded

variable {σ : Type} {t : TokenTree (Token σ)} {limit left : Nat} {ahead seen ids : List TokenId}

/-- The guard lets a walk through that comes to every token once, and only to new ones. -/
theorem Preorder.visits (h : t.Preorder ahead ids) (hnodup : ids.Nodup)
    (hnew : ∀ id ∈ ids, id ∉ seen) (hroom : ids.length ≤ left) :
    (ahead = [] ∧ ids = []) ∨ ∃ id branches slot rest left', ahead = id :: branches ∧
      ids = id :: rest ∧ left = left' + 1 ∧ t.visit seen id = .ok slot ∧
      t.tokensAt ids = slot.token :: t.tokensAt rest ∧
      t.Preorder (slot.children ++ slot.successor.toList ++ branches) rest ∧ rest.Nodup ∧
      (∀ next ∈ rest, next ∉ id :: seen) ∧ rest.length ≤ left' := by
  cases ahead with
  | nil =>
    cases h
    exact .inl ⟨rfl, rfl⟩
  | cons id branches =>
    obtain ⟨slot, rest, here, rfl, hrest⟩ := cons_iff.mp h
    obtain ⟨hid, hnodup⟩ := List.nodup_cons.mp hnodup
    obtain ⟨left', rfl⟩ : ∃ left', left = left' + 1 :=
      Nat.exists_eq_succ_of_ne_zero (by simp only [List.length_cons] at hroom; omega)
    refine .inr ⟨id, branches, slot, rest, left', rfl, rfl, rfl,
      visit_eq_ok here (hnew id List.mem_cons_self), ?_, hrest, hnodup, ?_, ?_⟩
    · simp [tokensAt, here]
    · intro next hnext
      rw [List.mem_cons, not_or]
      exact ⟨fun heq => hid (heq ▸ hnext), hnew next (List.mem_cons_of_mem _ hnext)⟩
    · simpa using hroom

/-- Such a walk resolves its tokens in pre-order and nothing else. -/
theorem Preorder.gather_eq {strategy : Strategy} (hs : strategy ≠ .linear)
    (h : t.Preorder ahead ids) (hnodup : ids.Nodup) (hnew : ∀ id ∈ ids, id ∉ seen)
    (hroom : ids.length ≤ left) (acc : Accumulator σ) (s : Setting σ) :
    t.gather strategy limit left ahead seen acc s = Token.resolveAll (t.tokensAt ids) acc s := by
  induction left generalizing ahead ids seen acc s with
  | zero =>
    rcases h.visits hnodup hnew hroom with ⟨rfl, rfl⟩ | ⟨_, _, _, _, _, _, _, hleft, _⟩
    · rfl
    · cases hleft
  | succ left ih =>
    rcases h.visits hnodup hnew hroom with ⟨rfl, rfl⟩ | ⟨id, branches, slot, rest, left', rfl, rfl,
      hleft, hvisit, htokens, hrest, hnodup, hnew, hroom⟩
    · rfl
    · cases hleft
      rw [htokens, Token.resolveAll, gather]
      simp only [hvisit]
      rcases slot.token.resolveInto acc s with ⟨f | _, acc, s⟩
      · rfl
      · dsimp only
        rw [next_of_branching hs]
        exact ih hrest hnodup hnew hroom acc s

/-- A run along such a walk attends to its tokens in pre-order and to nothing else. -/
theorem Preorder.walk_eq (r : Reporter) (signal : Signal) (h : t.Preorder ahead ids)
    (hnodup : ids.Nodup) (hnew : ∀ id ∈ ids, id ∉ seen) (hroom : ids.length ≤ left)
    (started : Nat) :
    r.walk signal t limit left ahead seen started = r.attend signal (t.tokensAt ids) started := by
  induction left generalizing ahead ids seen started with
  | zero =>
    rcases h.visits hnodup hnew hroom with ⟨rfl, rfl⟩ | ⟨_, _, _, _, _, _, _, hleft, _⟩
    · rw [Reporter.walk]
      rfl
    · cases hleft
  | succ left ih =>
    rcases h.visits hnodup hnew hroom with ⟨rfl, rfl⟩ | ⟨id, branches, slot, rest, left', rfl, rfl,
      hleft, hvisit, htokens, hrest, hnodup, hnew, hroom⟩
    · rw [Reporter.walk]
      rfl
    · cases hleft
      rw [htokens, Reporter.attend, walk_of_visited hvisit]
      refine bind_congr fun p => congrArg (Progress.onward · p) (funext fun started => ?_)
      exact ih hrest hnodup hnew hroom started

end Guarded

end TokenTree

end Flowchart
