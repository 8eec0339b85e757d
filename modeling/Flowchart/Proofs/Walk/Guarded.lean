import Flowchart.Proofs.Run.Attend
import Flowchart.Proofs.Walk.Itinerary

/-! Guarded walks of token trees, which attend to the itinerary up to the position where they end. -/
namespace Flowchart

namespace Token

variable {σ : Type}

/-- Resolve tokens one after the other into one accumulator. -/
def resolveAll : List (Token σ) → Accumulator σ → Setting σ →
    Except Fault (Accumulator σ) × Setting σ
  | [], acc, s => (.ok acc, s)
  | token :: rest, acc, s =>
    match token.resolveInto acc s with
    | (.error e, _, s) => (.error e, s)
    | (.ok (), acc, s) => resolveAll rest acc s

theorem resolveAll_append (ts us : List (Token σ)) (acc : Accumulator σ) (s : Setting σ) :
    resolveAll (ts ++ us) acc s = match resolveAll ts acc s with
      | (.error e, s) => (.error e, s)
      | (.ok acc, s) => resolveAll us acc s := by
  induction ts generalizing acc s with
  | nil => rfl
  | cons token ts ih =>
    rw [List.cons_append, resolveAll, resolveAll]
    rcases token.resolveInto acc s with ⟨_ | _, acc, s⟩
    · rfl
    · exact ih acc s

/-- Resolving tokens fails only with a token that could not be resolved. -/
theorem resolveAll_eq_error {tokens : List (Token σ)} {acc : Accumulator σ} {s s' : Setting σ}
    {f : Fault} (h : resolveAll tokens acc s = (.error f, s')) :
    ∃ token ∈ tokens, ∃ e, f = .resolveFailed token.label e := by
  induction tokens generalizing acc s with
  | nil => cases h
  | cons token rest ih =>
    rw [resolveAll] at h
    obtain ⟨outcome, acc', s₁, hout⟩ : ∃ o a s₁, token.resolveInto acc s = (o, a, s₁) :=
      ⟨_, _, _, rfl⟩
    rw [hout] at h
    cases outcome with
    | error e =>
      cases h
      have hresolved : token.resolved (token.resolve.run (acc.forToken token.label) s.host
          s.signals).1 = .error f := congrArg (·.1) hout
      refine ⟨token, List.mem_cons_self, ?_⟩
      unfold resolved at hresolved
      split at hresolved
      · cases hresolved
      · next e _ => exact ⟨e, (Except.error.inj hresolved).symm⟩
    | ok =>
      obtain ⟨t, ht, e, he⟩ := ih h
      exact ⟨t, List.mem_cons_of_mem _ ht, e, he⟩

end Token

def Reporter.halt {σ : Type} (signal : Signal) (stop : Option Fault) (started : Nat) :
    RunActivity σ Progress :=
  match stop with
  | none => return ⟨started, .ok ()⟩
  | some f => do
    if ← .hasFired signal then
      return ⟨started, .error .cancelled⟩
    return ⟨started, .error f⟩

namespace TokenTree

variable {σ : Type} {t : TokenTree (Token σ)} {strategy : Strategy} {limit k : Nat}
  {stop : Option Fault}

def tokensAt {τ : Type} (t : TokenTree τ) (ids : List TokenId) : List τ :=
  ids.filterMap fun id => t.slots[id]?.map (·.token)

theorem visit_eq_ok {id : TokenId} {s : TokenSlot (Token σ)} {seen : List TokenId}
    (hs : t.slots[id]? = some s) (hnew : id ∉ seen) : t.visit seen id = .ok s := by
  unfold visit
  rw [slot_eq_ok_iff.mpr hs]
  simp [bind, Except.bind, hnew, pure, Except.pure]

theorem visit_eq_ok_iff {id : TokenId} {seen : List TokenId} {slot : TokenSlot (Token σ)} :
    t.visit seen id = .ok slot ↔ t.slots[id]? = some slot ∧ id ∉ seen := by
  constructor
  · intro h
    obtain ⟨slot', hslot, h⟩ := bind_eq_ok_iff.mp h
    rw [slot_eq_ok_iff] at hslot
    by_cases hseen : id ∈ seen
    · simp [hseen, throw, throwThe, MonadExceptOf.throw, bind, Except.bind] at h
    · simp only [List.contains_eq_mem, hseen, decide_false, Bool.false_eq_true, if_false] at h
      cases h
      exact ⟨hslot, hseen⟩
  · rintro ⟨hslot, hseen⟩
    exact visit_eq_ok hslot hseen

theorem visit_eq_error {id : TokenId} {s : TokenSlot (Token σ)} {seen : List TokenId}
    (hs : t.slots[id]? = some s) (hold : id ∈ seen) :
    t.visit seen id = .error (.tokenRevisited id s.token.label) := by
  unfold visit
  rw [slot_eq_ok_iff.mpr hs]
  simp [bind, Except.bind, hold, throw, throwThe, MonadExceptOf.throw]

section Walk

variable {r : Reporter} {signal : Signal} {left : Nat} {id : TokenId} {ahead seen : List TokenId}

theorem walk_of_visited {s : TokenSlot (Token σ)} (hv : t.visit seen id = .ok s) (started : Nat) :
    r.walk signal t limit (left + 1) (id :: ahead) seen started =
      r.attendTo signal s.token started >>=
        Progress.onward (r.walk signal t limit left (Strategy.immediate.next s ++ ahead) (id :: seen)) := by
  rw [Reporter.walk, Reporter.attendTo, bind_assoc]
  apply bind_congr
  intro fired
  cases fired with
  | true => rfl
  | false =>
    simp only [hv, Bool.false_eq_true, if_false, bind_assoc]
    apply bind_congr
    intro result
    cases s.token.resolved result.1 with
    | error f => rfl
    | ok =>
      simp only [bind_assoc]
      refine bind_congr fun _ => bind_congr fun p => ?_
      obtain ⟨started, f | _⟩ := p <;> rfl

theorem walk_of_refused {f : Fault} (hv : t.visit seen id = .error f) (started : Nat) :
    r.walk signal t limit left (id :: ahead) seen started = Reporter.halt signal (some f) started := by
  rw [Reporter.walk, Reporter.halt]
  apply bind_congr
  intro fired
  simp only [hv]

theorem walk_of_noRoom {s : TokenSlot (Token σ)} (hv : t.visit seen id = .ok s) (started : Nat) :
    r.walk signal t limit 0 (id :: ahead) seen started =
      Reporter.halt signal (some (.tokenLimit limit)) started := by
  rw [Reporter.walk, Reporter.halt]
  apply bind_congr
  intro fired
  simp only [hv]

theorem walk_induction_mem {P : (Nat → RunActivity σ Progress) → Prop}
    (halts : ∀ stop, P (Reporter.halt signal stop))
    (attends : ∀ slot ∈ t.slots, ∀ f, P f →
      P fun started => r.attendTo signal slot.token started >>= Progress.onward f)
    (limit left : Nat) (ahead seen : List TokenId) : P (r.walk signal t limit left ahead seen) := by
  induction left generalizing ahead seen with
  | zero =>
    cases ahead with
    | nil =>
      have hnone : r.walk signal t limit 0 [] seen = Reporter.halt signal none :=
        funext fun started => by rw [Reporter.walk, Reporter.halt]
      exact hnone ▸ halts none
    | cons id ahead =>
      cases hvisit : t.visit seen id with
      | error f => exact funext (walk_of_refused hvisit) ▸ halts (some f)
      | ok slot => exact funext (walk_of_noRoom hvisit) ▸ halts _
  | succ left ih =>
    cases ahead with
    | nil =>
      have hnone : r.walk signal t limit (left + 1) [] seen = Reporter.halt signal none :=
        funext fun started => by rw [Reporter.walk, Reporter.halt]
      exact hnone ▸ halts none
    | cons id ahead =>
      cases hvisit : t.visit seen id with
      | error f => exact funext (walk_of_refused hvisit) ▸ halts (some f)
      | ok slot =>
        have hslot : slot ∈ t.slots := Array.mem_of_getElem? (visit_eq_ok_iff.mp hvisit).1
        exact funext (walk_of_visited hvisit) ▸ attends slot hslot _ (ih _ _)

theorem walk_induction {P : (Nat → RunActivity σ Progress) → Prop}
    (halts : ∀ stop, P (Reporter.halt signal stop))
    (attends : ∀ token f, P f → P fun started => r.attendTo signal token started >>= Progress.onward f)
    (t : TokenTree (Token σ)) (limit left : Nat) (ahead seen : List TokenId) :
    P (r.walk signal t limit left ahead seen) :=
  walk_induction_mem halts (fun slot _ => attends slot.token) limit left ahead seen

theorem passes_walk {P : (α : Type) → RunActivity σ α → Prop} (h : Reporter.Passes P r signal)
    (resolved : ∀ token n, P Unit (r.send (.tokenResolved r.run token n))) (t : TokenTree (Token σ))
    (limit left : Nat) (ahead seen : List TokenId) (started : Nat) :
    P Progress (r.walk signal t limit left ahead seen started) := by
  refine walk_induction (P := fun f => ∀ n, P Progress (f n)) ?_ ?_ t limit left ahead seen started
  · intro stop n
    cases stop with
    | none => exact h.pure _
    | some f =>
      refine h.bind h.hasFired fun fired => ?_
      cases fired <;> exact h.pure _
  · intro token f ih n
    exact h.bind (h.attendTo resolved token n) fun p => h.onward ih p

end Walk

namespace EndsAt

/-- Before its end a guarded walk goes on from each position to the next. -/
theorem step (h : t.EndsAt strategy limit k stop) (hc : t.Closed) {j : Nat} (hj : j < k) :
    ∃ id rest s, t.aheadAt strategy j = id :: rest ∧
      t.visit (t.past strategy j).reverse id = .ok s ∧ limit - j = limit - (j + 1) + 1 ∧
      strategy.next s ++ rest = t.aheadAt strategy (j + 1) ∧
      id :: (t.past strategy j).reverse = (t.past strategy (j + 1)).reverse ∧
      t.tokensAt (t.past strategy (j + 1)) = t.tokensAt (t.past strategy j) ++ [s.token] := by
  obtain ⟨hno, id, hid⟩ := h.before hj
  have hs := Array.getElem?_eq_getElem (hc.itinerary_lt hid)
  have hnew : id ∉ t.past strategy j := fun hmem => hno ⟨id, hid, .inl hmem⟩
  have hahead := hid
  rw [itinerary_eq, List.head?_eq_some_iff] at hahead
  obtain ⟨rest, hahead⟩ := hahead
  refine ⟨id, rest, _, hahead, visit_eq_ok hs (by simpa using hnew), ?_, ?_, ?_, ?_⟩
  · have := h.le_limit
    omega
  · rw [aheadAt_succ, hahead, onward, ways, hs]
  · rw [past_succ hid, List.reverse_append]
    rfl
  · rw [past_succ hid, tokensAt, tokensAt, List.filterMap_append]
    simp [hs]

/-- At its end nothing lies ahead of a guarded walk, or the next token is not let through. -/
theorem last (h : t.EndsAt strategy limit k stop) (hc : t.Closed) :
    (t.aheadAt strategy k = [] ∧ stop = none) ∨
      ∃ id rest, t.aheadAt strategy k = id :: rest ∧
        ((∃ f, t.visit (t.past strategy k).reverse id = .error f ∧ stop = some f) ∨
          ∃ s, t.visit (t.past strategy k).reverse id = .ok s ∧ limit - k = 0 ∧
            stop = some (.tokenLimit limit)) := by
  cases h with
  | complete _ through =>
    have hend := (through k).mpr le_rfl
    rw [itinerary_eq, List.head?_eq_none_iff] at hend
    exact .inl ⟨hend, rfl⟩
  | @revisited id s _ here before slot =>
    rw [itinerary_eq, List.head?_eq_some_iff] at here
    obtain ⟨rest, hahead⟩ := here
    exact .inr ⟨id, rest, hahead, .inl ⟨_, visit_eq_error slot (by simpa using before), rfl⟩⟩
  | @exceeded id first here new =>
    have hs := Array.getElem?_eq_getElem (hc.itinerary_lt here)
    obtain ⟨id', hid', hor⟩ := first.1
    rw [here] at hid'
    cases hid'
    have hle : limit ≤ k := hor.resolve_left new
    rw [itinerary_eq, List.head?_eq_some_iff] at here
    obtain ⟨rest, hahead⟩ := here
    refine .inr ⟨id, rest, hahead, .inr ⟨_, visit_eq_ok hs (by simpa using new), ?_, rfl⟩⟩
    exact Nat.sub_eq_zero_of_le hle

/-- Gathering up to a position resolves the tokens before it. -/
theorem gather_upTo (h : t.EndsAt strategy limit k stop) (hc : t.Closed) (acc : Accumulator σ)
    (s : Setting σ) {j : Nat} (hj : j ≤ k) :
    t.gather strategy limit limit t.root.toList [] acc s =
      match Token.resolveAll (t.tokensAt (t.past strategy j)) acc s with
      | (.error f, s) => (.error f, s)
      | (.ok acc, s) => t.gather strategy limit (limit - j) (t.aheadAt strategy j)
          (t.past strategy j).reverse acc s := by
  -- What is ahead, what was seen and the room left stay those of the unguarded walk.
  induction j with
  | zero => rfl
  | succ j ih =>
    obtain ⟨id, rest, slot, hahead, hvisit, hleft, hnext, hseen, htokens⟩ := h.step hc hj
    rw [ih (Nat.le_of_succ_le hj), htokens, Token.resolveAll_append]
    rcases Token.resolveAll (t.tokensAt (t.past strategy j)) acc s with ⟨f | acc, s⟩
    · rfl
    · rw [hahead, hleft, ← hnext, ← hseen]
      simp only [gather, hvisit, Token.resolveAll]
      rcases slot.token.resolveInto acc s with ⟨f | _, acc, s⟩ <;> rfl

theorem gather_eq (h : t.EndsAt strategy limit k stop) (hc : t.Closed) (acc : Accumulator σ)
    (s : Setting σ) :
    t.gather strategy limit limit t.root.toList [] acc s =
      match Token.resolveAll (t.tokensAt (t.past strategy k)) acc s with
      | (.error f, s) => (.error f, s)
      | (.ok acc, s) => (match stop with | none => .ok acc | some f => .error f, s) := by
  rw [h.gather_upTo hc acc s le_rfl]
  rcases Token.resolveAll (t.tokensAt (t.past strategy k)) acc s with ⟨f | acc, s⟩
  · rfl
  · rcases h.last hc with ⟨hahead, rfl⟩ | ⟨id, rest, hahead, hrefused⟩
    · simp only [hahead, gather]
    · rcases hrefused with ⟨f, hvisit, rfl⟩ | ⟨slot, hvisit, hleft, rfl⟩
      · simp only [hahead, gather, hvisit]
      · simp only [hahead, gather, hvisit, hleft]

/-- Walking up to a position attends to the tokens before it. -/
theorem walk_upTo (h : t.EndsAt .immediate limit k stop) (hc : t.Closed) (r : Reporter)
    (signal : Signal) {j : Nat} (hj : j ≤ k) :
    r.walk signal t limit limit t.root.toList [] 0 =
      r.attend signal (t.tokensAt (t.past .immediate j)) 0 >>=
        Progress.onward (r.walk signal t limit (limit - j) (t.aheadAt .immediate j)
          (t.past .immediate j).reverse) := by
  induction j with
  | zero => rfl
  | succ j ih =>
    obtain ⟨id, rest, slot, hahead, hvisit, hleft, hnext, hseen, htokens⟩ := h.step hc hj
    rw [ih (Nat.le_of_succ_le hj), htokens, Reporter.attend_append, Progress.bind_onward_bind]
    simp only [Reporter.attend_singleton]
    rw [hahead, hleft, ← hnext, ← hseen]
    refine bind_congr fun p => congrArg (Progress.onward · p) (funext fun started => ?_)
    exact walk_of_visited hvisit started

theorem walk_eq (h : t.EndsAt .immediate limit k stop) (hc : t.Closed) (r : Reporter)
    (signal : Signal) :
    r.walk signal t limit limit t.root.toList [] 0 =
      r.attend signal (t.tokensAt (t.past .immediate k)) 0 >>=
        Progress.onward (Reporter.halt signal stop) := by
  rw [h.walk_upTo hc r signal le_rfl]
  refine bind_congr fun p => congrArg (Progress.onward · p) (funext fun started => ?_)
  rcases h.last hc with ⟨hahead, rfl⟩ | ⟨id, rest, hahead, hrefused⟩
  · rw [hahead, Reporter.walk, Reporter.halt]
  · rcases hrefused with ⟨f, hvisit, rfl⟩ | ⟨slot, hvisit, hleft, rfl⟩
    · rw [hahead, walk_of_refused hvisit]
    · rw [hahead, hleft, walk_of_noRoom hvisit]

end EndsAt

end TokenTree

end Flowchart
