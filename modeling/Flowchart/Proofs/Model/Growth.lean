import Flowchart.Model.Tree
import Flowchart.Proofs.Walk.Guarded

/-! Token trees grown along the flow of a graph: walks of them visit the tokens in the order in which
these were added. -/
namespace Flowchart

def Link.Below (size : Nat) : Link → Prop
  | .none => True
  | .successorOf p | .childOf p => p < size

theorem Link.Below.mono {m n : Nat} {link : Link} (h : link.Below m) (hle : m ≤ n) :
    link.Below n := by
  cases link with
  | none => exact h
  | successorOf p => exact Nat.lt_of_lt_of_le h hle
  | childOf p => exact Nat.lt_of_lt_of_le h hle

/-- What the linking of a token changes in the slot of a place. -/
def Link.extend {τ : Type} (link : Link) (id place : TokenId) (s : TokenSlot τ) : TokenSlot τ :=
  match link with
  | .none => s
  | .successorOf p => if p = place then { s with successor := some id } else s
  | .childOf p => if p = place then { s with children := s.children ++ [id] } else s

namespace TokenTree

variable {τ υ : Type} {t : TokenTree τ}

def tokens (t : TokenTree τ) : List τ := t.slots.toList.map (·.token)

theorem getElem?_link (id : TokenId) (link : Link) (i : TokenId) :
    (t.link id link).slots[i]? = t.slots[i]?.map (link.extend id i) := by
  unfold Link.extend
  cases link with
  | none => simp [link]
  | successorOf p => by_cases hp : p = i <;> simp [link, linkSuccessor, Array.getElem?_modify, hp]
  | childOf p => by_cases hp : p = i <;> simp [link, linkChild, Array.getElem?_modify, hp]

theorem extend_of_below {link : Link} {size : Nat} (h : link.Below size) {i : TokenId}
    (hi : size ≤ i) (id : TokenId) (s : TokenSlot τ) : link.extend id i s = s := by
  cases link with
  | none => rfl
  | successorOf p => exact if_neg (Nat.ne_of_lt (Nat.lt_of_lt_of_le h hi))
  | childOf p => exact if_neg (Nat.ne_of_lt (Nat.lt_of_lt_of_le h hi))

@[simp] theorem size_link (id : TokenId) (link : Link) : (t.link id link).size = t.size := by
  cases link with
  | none => rfl
  | successorOf p => exact size_linkSuccessor p id
  | childOf p => exact size_linkChild p id

theorem root_link (id : TokenId) (link : Link) : (t.link id link).root = t.root := by
  cases link <;> rfl

theorem Closed.link (h : t.Closed) {id : TokenId} (hid : id < t.size) (link : Link) :
    (t.link id link).Closed := by
  cases link with
  | none => exact h
  | successorOf p => exact h.linkSuccessor hid p
  | childOf p => exact h.linkChild hid p

theorem getElem?_push_size (token : τ) : (t.push token).slots[t.size]? = some { token } := by
  simp [push, size]

theorem getElem?_push_of_lt {i : TokenId} (hi : i < t.size) (token : τ) :
    (t.push token).slots[i]? = t.slots[i]? := by
  rw [push, Array.getElem?_push]
  exact if_neg (Nat.ne_of_lt hi)

theorem tokens_push (token : τ) : (t.push token).tokens = t.tokens ++ [token] := by
  simp [tokens, push]

theorem tokens_link (id : TokenId) (link : Link) : (t.link id link).tokens = t.tokens := by
  apply List.ext_getElem?
  intro i
  unfold tokens
  rw [List.getElem?_map, List.getElem?_map, Array.getElem?_toList, Array.getElem?_toList,
    getElem?_link, Option.map_map]
  refine congrFun (congrArg Option.map (funext fun s => ?_)) _
  cases link with
  | none => rfl
  | successorOf p => by_cases hp : p = i <;> simp [Link.extend, hp]
  | childOf p => by_cases hp : p = i <;> simp [Link.extend, hp]

end TokenTree

def TokenSlot.extend {τ : Type} (s : TokenSlot τ) (place : TokenId)
    (placed : List (Arrival × TokenId)) : TokenSlot τ :=
  placed.foldl (fun s x => x.1.link.extend x.2 place s) s

namespace TokenSlot

variable {τ : Type} {s : TokenSlot τ} {place : TokenId} {placed : List (Arrival × TokenId)}

theorem extend_append (placed' : List (Arrival × TokenId)) :
    s.extend place (placed ++ placed') = (s.extend place placed).extend place placed' :=
  List.foldl_append

theorem extend_of_unlinked (h : ∀ x ∈ placed, ∀ s : TokenSlot τ, x.1.link.extend x.2 place s = s) :
    s.extend place placed = s := by
  unfold extend
  induction placed with
  | nil => rfl
  | cons x placed ih =>
    rw [List.foldl_cons, h x List.mem_cons_self]
    exact ih fun y hy => h y (List.mem_cons_of_mem _ hy)

theorem extend_of_children (h : ∀ x ∈ placed, x.1.link = .childOf place) :
    s.extend place placed = { s with children := s.children ++ placed.map (·.2) } := by
  unfold extend
  induction placed generalizing s with
  | nil => simp
  | cons x placed ih =>
    rw [List.foldl_cons, h x List.mem_cons_self, ih fun y hy => h y (List.mem_cons_of_mem _ hy)]
    simp [Link.extend]

end TokenSlot

namespace Graph

variable {g : Graph}

/-- The nodes that control comes to, in the order of their tokens. -/
inductive Laid (g : Graph) : List Node → List Arrival → List NodeToken → Prop
  | nil {unseen : List Node} : Laid g unseen [] []
  | cons {unseen : List Node} {a : Arrival} {ahead : List Arrival} {n : Node} {id : TokenId}
      {tokens : List NodeToken} (found : unseen.find? (·.id = a.node) = some n)
      (rest : Laid g (nodesBut a.node unseen) (g.departures n a.guards id ++ ahead) tokens) :
      Laid g unseen (a :: ahead) ({ node := a.node, guards := a.guards } :: tokens)

theorem departures_split (n : Node) (guards : List (String × String)) (id : TokenId) :
    ∃ children successors, g.departures n guards id = children ++ successors ∧
      (∀ a ∈ children, a.link = .childOf id) ∧ successors.length ≤ 1 ∧
      ∀ a ∈ successors, a.link = .successorOf id := by
  refine ⟨_, _, rfl, ?_, ?_, ?_⟩
  · intro a ha
    obtain ⟨p, _, hp⟩ := List.mem_filterMap.mp ha
    obtain ⟨c, _, rfl⟩ := Option.map_eq_some_iff.mp hp
    rfl
  · exact Option.length_toList_le
  · intro a ha
    have hmem := List.mem_of_getLast? (Option.mem_toList.mp ha)
    obtain ⟨p, _, hp⟩ := List.mem_filterMap.mp hmem
    obtain ⟨c, _, rfl⟩ := Option.map_eq_some_iff.mp hp
    rfl

theorem link_of_mem_departures {n : Node} {guards : List (String × String)} {id : TokenId}
    {a : Arrival} (ha : a ∈ g.departures n guards id) :
    a.link = .childOf id ∨ a.link = .successorOf id := by
  obtain ⟨children, successors, heq, hc, _, hs⟩ := departures_split (g := g) n guards id
  rw [heq, List.mem_append] at ha
  exact ha.imp (hc a) (hs a)

theorem guards_of_mem_departures {n : Node} {guards : List (String × String)} {id : TokenId}
    {a : Arrival} (ha : a ∈ g.departures n guards id) :
    a.guards = guards ∨ ∃ p ∈ n.flowOutputs, a.guards = guards ++ [(n.id, p.id)] := by
  unfold departures at ha
  rw [List.partition_eq_filter_filter, List.mem_append] at ha
  rcases ha with ha | ha
  · obtain ⟨p, hp, hpa⟩ := List.mem_filterMap.mp ha
    obtain ⟨c, _, rfl⟩ := Option.map_eq_some_iff.mp hpa
    exact .inr ⟨p, List.mem_of_mem_filter hp, rfl⟩
  · have hmem := List.mem_of_getLast? (Option.mem_toList.mp ha)
    obtain ⟨p, _, hpa⟩ := List.mem_filterMap.mp hmem
    obtain ⟨c, _, rfl⟩ := Option.map_eq_some_iff.mp hpa
    exact .inl rfl

/-- A walk goes from a token to the tokens of the nodes that control goes to. -/
theorem next_extend {n : Node} {guards : List (String × String)} {id : TokenId}
    {placed : List (Arrival × TokenId)} (h : placed.map (·.1) = g.departures n guards id)
    (token : NodeToken) :
    Strategy.immediate.next (({ token } : TokenSlot NodeToken).extend id placed) =
      placed.map (·.2) := by
  obtain ⟨children, successors, heq, hc, hlen, hs⟩ := departures_split (g := g) n guards id
  rw [heq, List.map_eq_append_iff] at h
  obtain ⟨pc, ps, rfl, rfl, rfl⟩ := h
  have hlinks : ∀ x ∈ pc, x.1.link = .childOf id := fun x hx => hc _ (List.mem_map_of_mem hx)
  have hsplit : ({ token } : TokenSlot NodeToken).extend id (pc ++ ps) =
      ({ token, children := pc.map (·.2) } : TokenSlot NodeToken).extend id ps := by
    rw [TokenSlot.extend, List.foldl_append, ← TokenSlot.extend, ← TokenSlot.extend,
      TokenSlot.extend_of_children hlinks]
    rfl
  rw [hsplit, List.map_append]
  match ps with
  | [] => simp [TokenSlot.extend, Strategy.next]
  | [x] =>
    have hx := hs x.1 (by simp)
    simp [TokenSlot.extend, Link.extend, hx, Strategy.next]
  | _ :: _ :: _ => simp at hlen

/-- What a tree has become of another when nodes that lay ahead have got these places. -/
structure Grown (g : Graph) (unseen : List Node) (ahead : List Arrival)
    (t t' : TokenTree NodeToken) (placed : List (Arrival × TokenId)) : Prop where
  placed_eq : placed.map (·.1) = ahead
  size_le : t.size ≤ t'.size
  slot : ∀ (i : TokenId) (s : TokenSlot NodeToken), t.slots[i]? = some s →
    t'.slots[i]? = some (s.extend i placed)
  root : t'.root = t.root.or (placed.head?.map (·.2))
  closed : t.Closed → t'.Closed
  tokens : ∃ tokens, t'.tokens = t.tokens ++ tokens ∧ g.Laid unseen ahead tokens
  order : ∀ j, ((t'.onward .immediate)^[j] (placed.map (·.2))).head? =
    if t.size + j < t'.size then some (t.size + j) else none

section

variable {n : Node} {a : Arrival} {ahead : List Arrival} {unseen : List Node}
  {t t' : TokenTree NodeToken} {inner outer : List (Arrival × TokenId)}
  (hinner : inner.map (·.1) = g.departures n a.guards t.size)
  (h : g.Grown unseen ahead
    ((t.push { node := a.node, guards := a.guards }).link t.size a.link) t' (inner ++ outer))
include hinner h

/-- From the token put in first, a walk goes to what its node leads to and not to what lay ahead. -/
theorem Grown.ways_first (hlink : a.link.Below t.size) (hbelow : ∀ x ∈ outer, x.1.link.Below t.size) :
    t'.ways .immediate t.size = inner.map (·.2) := by
  have hnew : ((t.push { node := a.node, guards := a.guards }).link t.size a.link).slots[t.size]? =
      some { token := { node := a.node, guards := a.guards } } := by
    rw [TokenTree.getElem?_link, TokenTree.getElem?_push_size, Option.map_some,
      TokenTree.extend_of_below hlink le_rfl]
  have houter : ∀ s : TokenSlot NodeToken, s.extend t.size outer = s := fun s =>
    TokenSlot.extend_of_unlinked fun x hx _ => TokenTree.extend_of_below (hbelow x hx) le_rfl _ _
  rw [TokenTree.ways, h.slot _ _ hnew, TokenSlot.extend_append, houter]
  exact next_extend hinner _

/-- A token that was there before is linked to what lay ahead, first to the one put in first. -/
theorem Grown.slot_before {i : TokenId} {s : TokenSlot NodeToken} (hs : t.slots[i]? = some s) :
    t'.slots[i]? = some (s.extend i ((a, t.size) :: outer)) := by
  have hi : i < t.size := (Array.getElem?_eq_some_iff.mp hs).1
  have hold : ((t.push { node := a.node, guards := a.guards }).link t.size a.link).slots[i]? =
      some (a.link.extend t.size i s) := by
    rw [TokenTree.getElem?_link, TokenTree.getElem?_push_of_lt hi, hs]
    rfl
  have hinner' : ∀ s : TokenSlot NodeToken, s.extend i inner = s := by
    refine fun s => TokenSlot.extend_of_unlinked fun x hx s => ?_
    have hx' : x.1 ∈ g.departures n a.guards t.size := hinner ▸ List.mem_map_of_mem hx
    rcases link_of_mem_departures hx' with hl | hl
    · rw [hl]
      exact if_neg (Nat.ne_of_gt hi)
    · rw [hl]
      exact if_neg (Nat.ne_of_gt hi)
  rw [h.slot i _ hold, TokenSlot.extend_append, hinner']
  rfl

end

/-- Putting the node that lies first ahead into the tree, and then what lies ahead after it. -/
theorem Grown.cons {unseen : List Node} {a : Arrival} {ahead : List Arrival} {n : Node}
    {t t' : TokenTree NodeToken} {placed : List (Arrival × TokenId)}
    (found : unseen.find? (·.id = a.node) = some n)
    (hlinks : ∀ b ∈ a :: ahead, b.link.Below t.size)
    (h : g.Grown (nodesBut a.node unseen) (g.departures n a.guards t.size ++ ahead)
      ((t.push { node := a.node, guards := a.guards }).link t.size a.link) t' placed) :
    ∃ placed, g.Grown unseen (a :: ahead) t t' placed := by
  obtain ⟨inner, outer, rfl, hinner, houter⟩ := List.map_eq_append_iff.mp h.placed_eq
  have hsize : t.size + 1 ≤ t'.size := by
    have := h.size_le
    rwa [TokenTree.size_link, TokenTree.size_push] at this
  have hbelow : ∀ x ∈ outer, x.1.link.Below t.size := fun x hx =>
    hlinks _ (List.mem_cons_of_mem _ (houter ▸ List.mem_map_of_mem hx))
  have hways : t'.ways .immediate t.size = inner.map (·.2) :=
    h.ways_first hinner (hlinks a List.mem_cons_self) hbelow
  use (a, t.size) :: outer
  constructor
  case placed_eq => rw [List.map_cons, houter]
  case size_le => omega
  case slot =>
    intro i s hs
    exact h.slot_before hinner hs
  case root =>
    rw [h.root, TokenTree.root_link, TokenTree.push]
    cases t.root <;> rfl
  case closed =>
    intro hc
    exact h.closed ((hc.push _).link (by simp) _)
  case tokens =>
    obtain ⟨tokens, htokens, hlaid⟩ := h.tokens
    refine ⟨{ node := a.node, guards := a.guards } :: tokens, ?_, .cons found hlaid⟩
    rw [htokens, TokenTree.tokens_link, TokenTree.tokens_push, List.append_assoc]
    rfl
  case order =>
    -- The first token visited is the one put in first; what it leads to comes before what lay ahead.
    intro j
    cases j with
    | zero =>
      rw [if_pos (by omega)]
      rfl
    | succ j =>
      have honward : t'.onward .immediate (((a, t.size) :: outer).map (·.2)) =
          (inner ++ outer).map (·.2) := by
        rw [List.map_cons, TokenTree.onward, hways, List.map_append]
      rw [Function.iterate_succ_apply, honward, h.order j, TokenTree.size_link, TokenTree.size_push]
      have hcomm : t.size + 1 + j = t.size + (j + 1) := by omega
      rw [hcomm]

theorem below_of_departures {n : Node} {guards : List (String × String)} {id : TokenId}
    {a : Arrival} (ha : a ∈ g.departures n guards id) : a.link.Below (id + 1) := by
  rcases link_of_mem_departures ha with hl | hl
  · rw [hl]
    exact Nat.lt_succ_self id
  · rw [hl]
    exact Nat.lt_succ_self id

theorem grow_grown {unseen : List Node} {ahead : List Arrival} {t t' : TokenTree NodeToken}
    (hlinks : ∀ a ∈ ahead, a.link.Below t.size) (h : g.grow unseen ahead t = .ok t') :
    ∃ placed, g.Grown unseen ahead t t' placed := by
  fun_induction Graph.grow g unseen ahead t with
  | case1 unseen t =>
    cases h
    refine ⟨[], rfl, le_rfl, fun i s hs => hs, by simp, fun hc => hc, ⟨[], by simp, .nil⟩,
      fun j => ?_⟩
    rw [if_neg (by omega)]
    induction j with
    | zero => rfl
    | succ j ih => exact ih
  | case2 => cases h
  | case3 => cases h
  | case4 unseen t a ahead n found id t₁ ih =>
    have hlinks₁ : ∀ b ∈ g.departures n a.guards id ++ ahead, b.link.Below t₁.size := by
      intro b hb
      rw [TokenTree.size_link, TokenTree.size_push]
      rcases List.mem_append.mp hb with hb | hb
      · exact below_of_departures hb
      · exact (hlinks b (List.mem_cons_of_mem _ hb)).mono t.size.le_succ
    obtain ⟨placed, hplaced⟩ := ih hlinks₁ h
    exact hplaced.cons found hlinks

/-- A walk of a tree grown from a start node visits the tokens as they were laid. -/
theorem tokenTree_walk {start : String} {t : TokenTree NodeToken} (h : g.tokenTree start = .ok t) :
    t.Closed ∧ t.root = some 0 ∧ g.Laid g.nodes [{ node := start }] t.tokens ∧
      ∀ k, t.itinerary .immediate k = if k < t.size then some k else none := by
  have hlinks : ∀ a ∈ [{ node := start : Arrival }],
      a.link.Below ({} : TokenTree NodeToken).size := by
    intro a ha
    rw [List.mem_singleton] at ha
    subst ha
    exact True.intro
  obtain ⟨placed, hgrown⟩ := grow_grown hlinks h
  have horder : ∀ j, ((t.onward .immediate)^[j] (placed.map (·.2))).head? =
      if j < t.size then some j else none := by
    intro j
    have := hgrown.order j
    rwa [show ({} : TokenTree NodeToken).size = 0 from rfl, Nat.zero_add] at this
  obtain ⟨tokens, htokens, hlaid⟩ := hgrown.tokens
  obtain ⟨x, rfl, hx⟩ : ∃ x, placed = [x] ∧ x.1 = { node := start } := by
    have := hgrown.placed_eq
    rw [List.map_eq_singleton_iff] at this
    obtain ⟨x, hx, hx'⟩ := this
    exact ⟨x, hx, hx'⟩
  have hfirst : x.2 = 0 := by
    have := horder 0
    split at this
    · exact Option.some.inj this
    · cases this
  have hroot : t.root = some 0 := by
    rw [hgrown.root, List.head?_cons, Option.map_some, hfirst]
    rfl
  refine ⟨hgrown.closed .empty, hroot, htokens ▸ hlaid, fun k => ?_⟩
  rw [TokenTree.itinerary_eq, TokenTree.aheadAt, hroot, ← horder k, List.map_singleton, hfirst]
  rfl

end Graph

namespace TokenTree

variable {τ υ : Type} {t : TokenTree τ}

theorem tokensAt_range (t : TokenTree τ) (k : Nat) : t.tokensAt (List.range k) = t.tokens.take k := by
  induction k with
  | zero => rfl
  | succ k ih =>
    have hlast : t.tokensAt [k] = t.tokens[k]?.toList := by
      rw [tokens, List.getElem?_map, Array.getElem?_toList]
      cases h : t.slots[k]? <;> simp [tokensAt, h]
    rw [List.range_succ, List.take_add_one, ← ih, ← hlast]
    exact List.filterMap_append

theorem length_tokens (t : TokenTree τ) : t.tokens.length = t.size := by
  simp [tokens, size]

variable (f : τ → υ)

@[simp] theorem size_map : (t.map f).size = t.size := by simp [size, map]

theorem tokens_map : (t.map f).tokens = t.tokens.map f := by simp [tokens, map]

theorem slots_map (i : TokenId) :
    (t.map f).slots[i]? = t.slots[i]?.map fun s => { s with token := f s.token } := by
  simp [map]

theorem itinerary_map (strategy : Strategy) (k : Nat) :
    (t.map f).itinerary strategy k = t.itinerary strategy k := by
  have hways : (t.map f).ways strategy = t.ways strategy := by
    funext id
    rw [ways, ways, slots_map]
    cases t.slots[id]? with
    | none => rfl
    | some s => cases strategy <;> rfl
  have honward : (t.map f).onward strategy = t.onward strategy := by
    funext ahead
    cases ahead with
    | nil => rfl
    | cons id rest => rw [onward, onward, hways]
  rw [itinerary_eq, itinerary_eq, aheadAt, aheadAt, honward]
  rfl

omit f in
theorem itinerary_hierarchical (k : Nat) : t.itinerary .hierarchical k = t.itinerary .immediate k := by
  have honward : t.onward .hierarchical = t.onward .immediate := by
    funext ahead
    cases ahead <;> rfl
  rw [itinerary_eq, itinerary_eq, aheadAt, aheadAt, honward]

theorem Closed.map (h : t.Closed) : (t.map f).Closed where
  link_lt i s hs id hid := by
    rw [slots_map] at hs
    obtain ⟨s', hs', rfl⟩ := Option.map_eq_some_iff.mp hs
    rw [size_map]
    exact h.link_lt i s' hs' id hid
  root_lt id hid := by
    rw [size_map]
    exact h.root_lt id hid
  empty_of_rootless hr := by
    rw [size_map]
    exact h.empty_of_rootless hr

/-- A guarded walk that visits all tokens one after the other ends behind the last one. -/
theorem endsAt_size {σ : Type} {t : TokenTree (Token σ)} {strategy : Strategy} {limit : Nat}
    (h : ∀ k, t.itinerary strategy k = if k < t.size then some k else none) (hl : t.size ≤ limit) :
    t.EndsAt strategy limit t.size none ∧ t.tokensAt (t.past strategy t.size) = t.tokens := by
  constructor
  · refine .complete ?_ fun j => ?_
    · rintro j ⟨id, hid, hor⟩
      rw [h j] at hid
      split at hid
      · cases hid
        rcases hor with hmem | hle
        · obtain ⟨i, hi, hij⟩ := List.mem_filterMap.mp hmem
          rw [List.mem_range] at hi
          rw [h i] at hij
          split at hij
          · cases hij
            exact Nat.lt_irrefl _ hi
          · cases hij
        · omega
      · cases hid
    · rw [h j]
      split <;> simp <;> omega
  · have hpast : t.past strategy t.size = List.range t.size := by
      rw [past, List.filterMap_congr (g := some), List.filterMap_some]
      intro k hk
      rw [h k, if_pos (List.mem_range.mp hk)]
    rw [hpast, tokensAt_range, ← length_tokens, List.take_length]

/-- With too little room for all of them it ends at its limit. -/
theorem endsAt_limit {σ : Type} {t : TokenTree (Token σ)} {strategy : Strategy} {limit : Nat}
    (h : ∀ k, t.itinerary strategy k = if k < t.size then some k else none) (hl : limit < t.size) :
    t.EndsAt strategy limit limit (some (.tokenLimit limit)) ∧
      t.tokensAt (t.past strategy limit) = t.tokens.take limit := by
  have hpast : ∀ k, k ≤ t.size → t.past strategy k = List.range k := by
    intro k hk
    rw [past, List.filterMap_congr (g := some), List.filterMap_some]
    intro j hj
    rw [h j, if_pos (Nat.lt_of_lt_of_le (List.mem_range.mp hj) hk)]
  have hhere : t.itinerary strategy limit = some limit := by rw [h, if_pos hl]
  constructor
  · refine .exceeded ⟨⟨limit, hhere, .inr le_rfl⟩, ?_⟩ hhere ?_
    · rintro j ⟨id, hid, hor⟩
      rw [h j] at hid
      split at hid
      · next hj =>
        cases hid
        rcases hor with hmem | hle
        · rw [hpast j (Nat.le_of_lt hj), List.mem_range] at hmem
          exact absurd hmem (Nat.lt_irrefl j)
        · exact hle
      · cases hid
    · rw [hpast limit (Nat.le_of_lt hl), List.mem_range]
      exact Nat.lt_irrefl limit
  · rw [hpast limit (Nat.le_of_lt hl), tokensAt_range]

end TokenTree

end Flowchart
