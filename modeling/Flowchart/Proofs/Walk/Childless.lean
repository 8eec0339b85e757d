import Flowchart.Engine
import Flowchart.Proofs.Run.Naming
import Flowchart.Proofs.Walk.Guarded

/-! The linear walk of a tree is the walk of the tree without its children. -/
namespace Flowchart

variable {σ : Type}

namespace TokenTree

def childless {τ : Type} (t : TokenTree τ) : TokenTree τ :=
  { t with slots := t.slots.map fun slot => { slot with children := [] } }

/-- The places whose tokens a walk resolves, in order. Resolving the last of them may fail. -/
def trail (t : TokenTree (Token σ)) (strategy : Strategy) (left : Nat) (ahead seen : List TokenId)
    (acc : Accumulator σ) (s : Setting σ) : List TokenId :=
  match ahead with
  | [] => []
  | id :: ahead =>
    match t.visit seen id with
    | .error _ => []
    | .ok slot =>
      match left with
      | 0 => []
      | left + 1 => id ::
        match slot.token.resolveInto acc s with
        | (.error _, _, _) => []
        | (.ok (), acc, s) =>
          t.trail strategy left (strategy.next slot ++ ahead) (id :: seen) acc s

/-- A walk is the resolving of the tokens on its trail, and then maybe a fault of its own. -/
theorem gather_eq_trail (t : TokenTree (Token σ)) (strategy : Strategy) (limit left : Nat)
    (ahead seen : List TokenId) (acc : Accumulator σ) (s : Setting σ) :
    ∃ stop : Option Fault, t.gather strategy limit left ahead seen acc s =
      match Token.resolveAll (t.tokensAt (t.trail strategy left ahead seen acc s)) acc s with
      | (.error f, s) => (.error f, s)
      | (.ok acc, s) => (match stop with | none => .ok acc | some f => .error f, s) := by
  induction left generalizing ahead seen acc s with
  | zero =>
    cases ahead with
    | nil => exact ⟨none, rfl⟩
    | cons id ahead =>
      rw [gather, trail]
      cases t.visit seen id with
      | error f => exact ⟨some f, rfl⟩
      | ok slot => exact ⟨some (.tokenLimit limit), rfl⟩
  | succ left ih =>
    cases ahead with
    | nil => exact ⟨none, rfl⟩
    | cons id ahead =>
      rw [gather, trail]
      cases hvisit : t.visit seen id with
      | error f => exact ⟨some f, rfl⟩
      | ok slot =>
        have hslot := (visit_eq_ok_iff.mp hvisit).1
        cases hinto : slot.token.resolveInto acc s with
        | mk outcome rest =>
          obtain ⟨acc', s'⟩ := rest
          cases outcome with
          | error f =>
            refine ⟨none, ?_⟩
            simp [tokensAt, hslot, Token.resolveAll, hinto]
          | ok =>
            obtain ⟨stop, hstop⟩ := ih (strategy.next slot ++ ahead) (id :: seen) acc' s'
            refine ⟨stop, ?_⟩
            simp only [hinto, tokensAt, List.filterMap_cons, hslot, Option.map_some,
              Token.resolveAll] at hstop ⊢
            exact hstop

section Childless

variable (t : TokenTree (Token σ))

theorem visit_childless (seen : List TokenId) (id : TokenId) :
    t.childless.visit seen id =
      (t.visit seen id).map fun slot => { slot with children := [] } := by
  unfold visit slot childless
  rw [Array.getElem?_map]
  cases t.slots[id]? with
  | none => rfl
  | some slot =>
    by_cases hseen : id ∈ seen
    · simp [hseen, bind, Except.bind, pure, Except.pure, throw, throwThe, MonadExceptOf.throw,
        Except.map]
    · simp [hseen, bind, Except.bind, pure, Except.pure, Except.map]

/-- Walking a tree without its children is walking it along its successors. -/
theorem gather_childless (limit left : Nat) (ahead seen : List TokenId) (acc : Accumulator σ)
    (s : Setting σ) :
    t.childless.gather .hierarchical limit left ahead seen acc s =
        t.gather .linear limit left ahead seen acc s ∧
      t.childless.trail .hierarchical left ahead seen acc s =
        t.trail .linear left ahead seen acc s := by
  induction left generalizing ahead seen acc s with
  | zero =>
    cases ahead with
    | nil => exact ⟨rfl, rfl⟩
    | cons id ahead =>
      rw [gather, gather, trail, trail, visit_childless]
      cases t.visit seen id <;> exact ⟨rfl, rfl⟩
  | succ left ih =>
    cases ahead with
    | nil => exact ⟨rfl, rfl⟩
    | cons id ahead =>
      rw [gather, gather, trail, trail, visit_childless]
      cases t.visit seen id with
      | error f => exact ⟨rfl, rfl⟩
      | ok slot =>
        simp only [Except.map]
        rcases slot.token.resolveInto acc s with ⟨f | _, acc, s⟩
        · exact ⟨rfl, rfl⟩
        · obtain ⟨hgather, htrail⟩ := ih (slot.successor.toList ++ ahead) (id :: seen) acc s
          exact ⟨hgather, congrArg (id :: ·) htrail⟩

theorem childless_eq_self (h : ∀ slot ∈ t.slots, slot.children = []) : t.childless = t := by
  have hslots : t.slots.map (fun slot => { slot with children := [] }) = t.slots.map id := by
    apply Array.map_congr_left
    intro slot hslot
    rw [← h slot hslot]
    rfl
  rw [Array.map_id] at hslots
  rw [childless, hslots]

end Childless

end TokenTree

def Engine.using (e : Engine) (strategy : Strategy) : Engine :=
  { e with config := { e.config with strategy } }

theorem Engine.plan_linear (e : Engine) (t : TokenTree (Token σ)) (stage : RunStage σ) :
    e.plan .linear t stage =
      ((e.plan .hierarchical t.childless stage).1.map fun p => { p with strategy := .linear },
        (e.plan .hierarchical t.childless stage).2) := by
  have hstart : t.childless.start = t.start := rfl
  rw [plan, plan, hstart]
  cases t.start with
  | error f => rfl
  | ok root =>
    dsimp only
    rw [(t.gather_childless ..).1]
    rcases t.gather .linear _ _ _ _ _ _ with ⟨f | acc, s⟩ <;> rfl

theorem Engine.strategy_of_plan {e : Engine} {strategy : Strategy} {t : TokenTree (Token σ)}
    {stage : RunStage σ} {p : Plan σ} (h : (e.plan strategy t stage).1 = .ok p) :
    p.strategy = strategy := by
  rw [plan] at h
  split at h
  · cases h
  · dsimp only at h
    split at h <;> cases h
    rfl

/-- Compiling a tree linearly is compiling it without its children hierarchically. -/
theorem Engine.compile_linear (e : Engine) (t : TokenTree (Token σ)) (stage : RunStage σ) :
    let s : Setting σ := ⟨stage.state.host, stage.signals⟩
    let limit := e.config.maxTokens
    let linear := (e.using .linear).compile t stage
    let cut := (e.using .hierarchical).compile t.childless stage
    t.trail .linear limit t.root.toList [] {} s =
        t.childless.trail .hierarchical limit t.childless.root.toList [] {} s ∧
      linear.2 = cut.2 ∧
      ((∃ f, linear.1 = .error f ∧ cut.1 = .error f) ∨
        ∃ p q, linear.1 = .ok (.plan p) ∧ cut.1 = .ok (.plan q) ∧ p.ExecutesLike q ∧
          p.label = "linear-plan" ∧ q.label = "hierarchical-plan") ∧
      ((∀ slot ∈ t.slots, slot.children = []) → t.childless = t) := by
  intro s limit linear cut
  have hlinear : linear = ((e.plan .linear t stage).1.map .plan, (e.plan .linear t stage).2) := rfl
  have hcut : cut = ((e.plan .hierarchical t.childless stage).1.map .plan,
    (e.plan .hierarchical t.childless stage).2) := rfl
  rw [hlinear, hcut, plan_linear]
  refine ⟨(t.gather_childless limit limit _ _ _ _).2.symm, rfl, ?_, t.childless_eq_self⟩
  cases hplan : (e.plan .hierarchical t.childless stage).1 with
  | error f => exact .inl ⟨f, rfl, rfl⟩
  | ok q =>
    refine .inr ⟨{ q with strategy := .linear }, q, rfl, rfl, Plan.executesLike .linear rfl, rfl, ?_⟩
    rw [Plan.label, strategy_of_plan hplan]
    rfl

end Flowchart
