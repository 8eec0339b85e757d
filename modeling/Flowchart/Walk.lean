import Flowchart.Config
import Flowchart.Token

/-! Walks over a token tree, which stop at a token reached twice and at the token limit. -/
namespace Flowchart

/-- Where a walk goes from a token; a linear walk leaves the children out. -/
def Strategy.next {τ : Type} (s : Strategy) (slot : TokenSlot τ) : List TokenId :=
  match s with
  | .linear => slot.successor.toList
  | _ => slot.children ++ slot.successor.toList

/-- The token at a place, unless the walk has seen it. -/
def TokenTree.visit {σ : Type} (t : TokenTree (Token σ)) (seen : List TokenId) (id : TokenId) :
    Except Fault (TokenSlot (Token σ)) := do
  let slot ← t.slot id
  if seen.contains id then throw (.tokenRevisited id slot.token.label)
  return slot

/-- What a compilation works on: the host's state and the signals. -/
structure Setting (σ : Type) where
  host : σ
  signals : Signals
deriving Inhabited

namespace Token

variable {σ : Type}

/-- The fault of a token that could not be resolved. -/
def resolved (t : Token σ) : Outcome → Outcome
  | .ok () => .ok ()
  | .error e => .error (.resolveFailed t.label e)

def resolveInto (t : Token σ) (acc : Accumulator σ) (s : Setting σ) :
    Outcome × Accumulator σ × Setting σ :=
  let (outcome, acc, host, signals) := t.resolve.run (acc.forToken t.label) s.host s.signals
  (t.resolved outcome, acc, ⟨host, signals⟩)

end Token

/-- Resolve the tokens of a walk into one accumulator; `left` more may be
visited, and `seen` were. -/
def TokenTree.gather {σ : Type} (t : TokenTree (Token σ)) (strategy : Strategy) (limit : Nat)
    (left : Nat) (ahead seen : List TokenId) (acc : Accumulator σ) (s : Setting σ) :
    Except Fault (Accumulator σ) × Setting σ :=
  match ahead with
  | [] => (.ok acc, s)
  | id :: ahead =>
    match t.visit seen id with
    | .error e => (.error e, s)
    | .ok slot =>
      match left with
      | 0 => (.error (.tokenLimit limit), s)
      | left + 1 =>
        match slot.token.resolveInto acc s with
        | (.error e, _, s) => (.error e, s)
        | (.ok (), acc, s) =>
          t.gather strategy limit left (strategy.next slot ++ ahead) (id :: seen) acc s

end Flowchart
