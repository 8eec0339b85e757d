import Flowchart.Proofs.Attempt
import Flowchart.Token

/-! Token trees that are built call by call: no link leads out of them, and only a tree without
tokens has no root. -/
namespace Flowchart

/-- A change to a token tree that somebody asks for. -/
inductive TreeCall (τ : Type)
  | push (token : τ)
  | pushChain (tokens : List τ)
  | setRoot (id : TokenId)
  | setSuccessor (id next : TokenId)
  | addChild (parent child : TokenId)

namespace TreeCall

variable {τ : Type}

def pushed : TreeCall τ → List τ
  | push token => [token]
  | pushChain tokens => tokens
  | _ => []

end TreeCall

namespace TokenTree

variable {τ : Type} {t : TokenTree τ}

def call (t : TokenTree τ) : TreeCall τ → TokenTree τ
  | .push token => t.push token
  | .pushChain tokens => t.pushChain none tokens
  | .setRoot id => (t.setRoot id).toOption.getD t
  | .setSuccessor id next => (t.setSuccessor id next).toOption.getD t
  | .addChild parent child => (t.addChild parent child).toOption.getD t

def ofCalls (calls : List (TreeCall τ)) : TokenTree τ := calls.foldl call {}

/-- Every link leads to a token, and a tree with tokens has a root. -/
structure Closed (t : TokenTree τ) : Prop where
  link_lt : ∀ (i : TokenId) (s : TokenSlot τ), t.slots[i]? = some s →
    ∀ id ∈ s.children ++ s.successor.toList, id < t.size
  root_lt : ∀ id, t.root = some id → id < t.size
  empty_of_rootless : t.root = none → t.size = 0

theorem slot_eq_ok_iff {id : TokenId} {s : TokenSlot τ} : t.slot id = .ok s ↔ t.slots[id]? = some s := by
  unfold slot
  cases t.slots[id]? with
  | none => simp [throw, throwThe, MonadExceptOf.throw]
  | some s' => simp [pure, Except.pure]

theorem lt_size_of_slot {id : TokenId} {s : TokenSlot τ} (h : t.slot id = .ok s) : id < t.size := by
  rw [slot_eq_ok_iff, Array.getElem?_eq_some_iff] at h
  exact h.1

@[simp] theorem size_push (token : τ) : (t.push token).size = t.size + 1 := by
  simp [size, push]

@[simp] theorem size_linkSuccessor (id next : TokenId) : (t.linkSuccessor id next).size = t.size := by
  simp [size, linkSuccessor]

@[simp] theorem size_linkChild (parent child : TokenId) :
    (t.linkChild parent child).size = t.size := by
  simp [size, linkChild]

theorem setRoot_eq_ok {id : TokenId} {t' : TokenTree τ} (h : t.setRoot id = .ok t') :
    id < t.size ∧ t' = { t with root := some id } := by
  obtain ⟨s, hs, h⟩ := bind_eq_ok_iff.mp h
  cases h
  exact ⟨lt_size_of_slot hs, rfl⟩

theorem setSuccessor_eq_ok {id next : TokenId} {t' : TokenTree τ}
    (h : t.setSuccessor id next = .ok t') : next < t.size ∧ t' = t.linkSuccessor id next := by
  obtain ⟨s, hs, h⟩ := bind_eq_ok_iff.mp h
  obtain ⟨_, _, h⟩ := bind_eq_ok_iff.mp h
  cases h
  exact ⟨lt_size_of_slot hs, rfl⟩

theorem addChild_eq_ok {parent child : TokenId} {t' : TokenTree τ}
    (h : t.addChild parent child = .ok t') : child < t.size ∧ t' = t.linkChild parent child := by
  obtain ⟨s, hs, h⟩ := bind_eq_ok_iff.mp h
  obtain ⟨_, _, h⟩ := bind_eq_ok_iff.mp h
  cases h
  exact ⟨lt_size_of_slot hs, rfl⟩

namespace Closed

theorem empty : Closed ({} : TokenTree τ) where
  link_lt := by simp
  root_lt := by simp
  empty_of_rootless := by simp [size]

theorem push (h : t.Closed) (token : τ) : (t.push token).Closed where
  link_lt i s hs id hid := by
    rw [size_push]
    simp only [TokenTree.push, Array.getElem?_push] at hs
    split at hs
    · cases hs
      simp at hid
    · exact Nat.lt_succ_of_lt (h.link_lt i s hs id hid)
  root_lt id hid := by
    rw [size_push]
    simp only [TokenTree.push, Option.some.injEq] at hid
    subst hid
    cases hr : t.root with
    | none => exact Nat.lt_succ_self _
    | some root => exact Nat.lt_succ_of_lt (h.root_lt root hr)
  empty_of_rootless hr := by simp [TokenTree.push] at hr

theorem linkSuccessor (h : t.Closed) {next : TokenId} (hn : next < t.size) (id : TokenId) :
    (t.linkSuccessor id next).Closed where
  link_lt i s hs j hj := by
    rw [size_linkSuccessor]
    simp only [TokenTree.linkSuccessor, Array.getElem?_modify] at hs
    split at hs
    · obtain ⟨s', hs', rfl⟩ := Option.map_eq_some_iff.mp hs
      simp only [Option.toList_some, List.mem_append, List.mem_singleton] at hj
      rcases hj with hj | rfl
      · exact h.link_lt i s' hs' j (List.mem_append_left _ hj)
      · exact hn
    · exact h.link_lt i s hs j hj
  root_lt id hid := by
    rw [size_linkSuccessor]
    exact h.root_lt id hid
  empty_of_rootless hr := by
    rw [size_linkSuccessor]
    exact h.empty_of_rootless hr

theorem linkChild (h : t.Closed) {child : TokenId} (hc : child < t.size) (parent : TokenId) :
    (t.linkChild parent child).Closed where
  link_lt i s hs j hj := by
    rw [size_linkChild]
    simp only [TokenTree.linkChild, Array.getElem?_modify] at hs
    split at hs
    · obtain ⟨s', hs', rfl⟩ := Option.map_eq_some_iff.mp hs
      simp only [List.append_assoc, List.mem_append, List.mem_singleton] at hj
      rcases hj with hj | rfl | hj
      · exact h.link_lt i s' hs' j (List.mem_append_left _ hj)
      · exact hc
      · exact h.link_lt i s' hs' j (List.mem_append_right _ hj)
    · exact h.link_lt i s hs j hj
  root_lt id hid := by
    rw [size_linkChild]
    exact h.root_lt id hid
  empty_of_rootless hr := by
    rw [size_linkChild]
    exact h.empty_of_rootless hr

theorem pushChain (h : t.Closed) {previous : Option TokenId} (tokens : List τ) :
    (t.pushChain previous tokens).Closed := by
  induction tokens generalizing t previous with
  | nil => exact h
  | cons token rest ih =>
    have hp := h.push token
    cases previous with
    | none => exact ih hp
    | some p => exact ih (hp.linkSuccessor (by simp) p)

theorem call (h : t.Closed) (c : TreeCall τ) : (t.call c).Closed := by
  cases c with
  | push token => exact h.push token
  | pushChain tokens => exact h.pushChain tokens
  | setRoot id =>
    apply getD_toOption h
    intro t' ht'
    obtain ⟨hid, rfl⟩ := setRoot_eq_ok ht'
    exact ⟨h.link_lt, fun _ hr => Option.some.inj hr ▸ hid, fun hr => by cases hr⟩
  | setSuccessor id next =>
    apply getD_toOption h
    intro t' ht'
    obtain ⟨hn, rfl⟩ := setSuccessor_eq_ok ht'
    exact h.linkSuccessor hn id
  | addChild parent child =>
    apply getD_toOption h
    intro t' ht'
    obtain ⟨hc, rfl⟩ := addChild_eq_ok ht'
    exact h.linkChild hc parent

theorem ofCalls (calls : List (TreeCall τ)) : (TokenTree.ofCalls calls).Closed := by
  have hfold : ∀ t : TokenTree τ, t.Closed → (calls.foldl TokenTree.call t).Closed := by
    induction calls with
    | nil => exact fun t h => h
    | cons c calls ih => exact fun t h => ih _ (h.call c)
  exact hfold _ empty

end Closed

theorem size_pushChain {previous : Option TokenId} (tokens : List τ) :
    (t.pushChain previous tokens).size = t.size + tokens.length := by
  induction tokens generalizing t previous with
  | nil => rfl
  | cons token rest ih =>
    cases previous with
    | none =>
      rw [pushChain, ih, size_push, List.length_cons]
      omega
    | some p =>
      rw [pushChain, ih, size_linkSuccessor, size_push, List.length_cons]
      omega

theorem size_call (c : TreeCall τ) : (t.call c).size = t.size + c.pushed.length := by
  cases c with
  | push token => exact size_push token
  | pushChain tokens => exact size_pushChain tokens
  | setRoot id =>
    exact getD_toOption (P := fun t' : TokenTree τ => t'.size = t.size) rfl fun t' ht' => by
      obtain ⟨_, rfl⟩ := setRoot_eq_ok ht'
      rfl
  | setSuccessor id next =>
    exact getD_toOption (P := fun t' : TokenTree τ => t'.size = t.size) rfl fun t' ht' => by
      obtain ⟨_, rfl⟩ := setSuccessor_eq_ok ht'
      exact size_linkSuccessor id next
  | addChild parent child =>
    exact getD_toOption (P := fun t' : TokenTree τ => t'.size = t.size) rfl fun t' ht' => by
      obtain ⟨_, rfl⟩ := addChild_eq_ok ht'
      exact size_linkChild parent child

/-- A tree has as many tokens as were ever pushed. -/
theorem size_ofCalls (calls : List (TreeCall τ)) :
    (ofCalls calls).size = (calls.flatMap TreeCall.pushed).length := by
  have hfold : ∀ t : TokenTree τ,
      (calls.foldl call t).size = t.size + (calls.flatMap TreeCall.pushed).length := by
    induction calls with
    | nil => exact fun t => rfl
    | cons c calls ih =>
      intro t
      rw [List.foldl_cons, ih, size_call, List.flatMap_cons, List.length_append]
      omega
  rw [ofCalls, hfold]
  simp [size]

end TokenTree

end Flowchart
