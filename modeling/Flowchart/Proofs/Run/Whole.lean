import Flowchart.Engine
import Flowchart.Proofs.Walk.Guarded

/-! Activities that never break off, and runs of units that do not. -/
namespace Flowchart

variable {σ τ ω ψ α β : Type}

namespace Activity

/-- Whatever it finds, an activity comes to an end, with a result that has a property. -/
def Delivers (P : α → Prop) : Activity σ ω α → Prop
  | done a => P a
  | crash => False
  | get next => ∀ s, (next s).Delivers P
  | set _ next => next.Delivers P
  | emit _ next => next.Delivers P
  | fire _ next => next.Delivers P
  | poll _ next => ∀ fired, (next fired).Delivers P
  | wait _ _ next => ∀ cut, (next cut).Delivers P

abbrev Whole (a : Activity σ ω α) : Prop := a.Delivers fun _ => True

namespace Delivers

variable {P : α → Prop} {Q : β → Prop} {a : Activity σ ω α}

theorem bind {f : α → Activity σ ω β} (ha : a.Delivers P) (hf : ∀ x, P x → (f x).Delivers Q) :
    (a >>= f).Delivers Q := by
  change (a.bind f).Delivers Q
  induction a with
  | done x => exact hf x ha
  | crash => exact ha.elim
  | get next ih => exact fun s => ih s (ha s)
  | set s next ih => exact ih ha
  | emit o next ih => exact ih ha
  | fire signal next ih => exact ih ha
  | poll signal next ih => exact fun fired => ih fired (ha fired)
  | wait ms signal next ih => exact fun cut => ih cut (ha cut)

theorem embed {view : τ → σ} {update : σ → τ → τ} {item : ω → ψ} (h : a.Delivers P) :
    (a.embed view update item).Delivers P := by
  induction a with
  | done x => exact h
  | crash => exact h
  | get next ih => exact fun t => ih _ (h _)
  | set s next ih => exact fun _ => ih h
  | emit o next ih => exact ih h
  | fire signal next ih => exact ih h
  | poll signal next ih => exact fun fired => ih fired (h fired)
  | wait ms signal next ih => exact fun cut => ih cut (h cut)

theorem play_ends (h : a.Delivers P) (others : Company σ ω) (sc : Scene σ ω) :
    ∃ x sc', a.play others sc = (some x, sc') ∧ P x := by
  induction a generalizing sc with
  | done x => exact ⟨x, sc, rfl, h⟩
  | crash => exact h.elim
  | get next ih => exact ih _ (h _) sc
  | set s next ih => exact ih h _
  | emit o next ih => exact ih h _
  | fire signal next ih => exact ih h _
  | poll signal next ih => exact ih _ (h _) sc
  | wait ms signal next ih => exact ih _ (h _) _

end Delivers

theorem Whole.then {a : Activity σ ω α} {f : α → Activity σ ω β} (ha : a.Whole)
    (hf : ∀ x, (f x).Whole) : (a >>= f).Whole := Delivers.bind ha fun x _ => hf x

theorem Whole.exists_alone {a : Activity σ ω α} (h : a.Whole) (stage : Stage σ ω) :
    ∃ x, (a.alone stage).1 = some x := by
  obtain ⟨x, sc', hplay, -⟩ := Delivers.play_ends h .nobody { stage }
  exact ⟨x, by rw [alone, hplay]⟩

end Activity

section Fillings

/-- A filling puts in only units with a property, if those it takes out have it. -/
def Filling.PutsOnly (P : FlowUnit σ → Prop) : Filling σ α → Prop
  | done _ => True
  | push u next => P u ∧ next.PutsOnly P
  | clear next => next.PutsOnly P
  | drain next => ∀ entries : List (Entry σ), (∀ e ∈ entries, P e.unit) → (next entries).PutsOnly P
  | look next => ∀ labels, (next labels).PutsOnly P
  | get next => ∀ s, (next s).PutsOnly P
  | set _ next => next.PutsOnly P
  | fire _ next => next.PutsOnly P
  | poll _ next => ∀ fired, (next fired).PutsOnly P

def Accumulator.HoldsOnly (P : FlowUnit σ → Prop) (acc : Accumulator σ) : Prop :=
  ∀ e ∈ acc.entries.toList, P e.unit

variable {P : FlowUnit σ → Prop} {acc : Accumulator σ}

theorem Accumulator.HoldsOnly.push (h : acc.HoldsOnly P) {u : FlowUnit σ} (hu : P u) :
    (acc.push u).HoldsOnly P := by
  intro e he
  simp only [Accumulator.push, Array.toList_push, List.mem_append, List.mem_singleton] at he
  rcases he with he | rfl
  · exact h e he
  · exact hu

theorem Accumulator.HoldsOnly.clear : acc.clear.HoldsOnly P := by
  simp [Accumulator.HoldsOnly, Accumulator.clear]

theorem Filling.PutsOnly.within {f : Filling σ α} (hf : f.PutsOnly P) (hacc : acc.HoldsOnly P) :
    (f.within acc : Activity σ ω _).Delivers fun result => result.2.HoldsOnly P := by
  induction f generalizing acc with
  | done x => exact hacc
  | push u next ih => exact ih hf.2 (hacc.push hf.1)
  | clear next ih => exact ih hf .clear
  | drain next ih => exact ih _ (hf _ hacc) .clear
  | look next ih => exact ih _ (hf _) hacc
  | get next ih => exact fun s => ih s (hf s) hacc
  | set s next ih => exact ih hf hacc
  | fire signal next ih => exact ih hf hacc
  | poll signal next ih => exact fun fired => ih fired (hf fired) hacc

theorem Filling.PutsOnly.run {f : Filling σ α} (hf : f.PutsOnly P) (hacc : acc.HoldsOnly P) (host : σ)
    (signals : Signals) : (f.run acc host signals).2.1.HoldsOnly P := by
  induction f generalizing acc host signals with
  | done x => exact hacc
  | push u next ih => exact ih hf.2 (hacc.push hf.1) host signals
  | clear next ih => exact ih hf .clear host signals
  | drain next ih => exact ih _ (hf _ hacc) .clear host signals
  | look next ih => exact ih _ (hf _) hacc host signals
  | get next ih => exact ih host (hf host) hacc host signals
  | set s next ih => exact ih hf hacc s signals
  | fire signal next ih => exact ih hf hacc host _
  | poll signal next ih => exact ih _ (hf _) hacc host signals

end Fillings

def FlowUnit.Whole (u : FlowUnit σ) : Prop := ∀ signal, (u.execute signal).Whole

def TokenTree.Whole (t : TokenTree (Token σ)) : Prop :=
  ∀ slot ∈ t.slots, slot.token.resolve.PutsOnly FlowUnit.Whole

section Runs

open Activity

variable {r : Reporter} {signal : Signal} {t : TokenTree (Token σ)}

namespace Reporter

theorem whole_execute {e : Entry σ} (h : e.unit.Whole) (started : Nat) :
    (r.execute signal e started).Whole := by
  rw [execute_eq]
  refine Whole.then (fun _ => True.intro) fun fired => ?_
  cases fired with
  | true => exact True.intro
  | false =>
    refine Whole.then (a := r.send _) True.intro fun _ => Whole.then (.embed (h signal)) ?_
    exact conclude_passes (P := fun _ a => Whole a) (fun _ => True.intro) Whole.then
      (fun _ _ _ _ => True.intro) e started

theorem whole_executeAll {entries : List (Entry σ)} (h : ∀ e ∈ entries, e.unit.Whole)
    (started : Nat) : (r.executeAll signal started entries).Whole := by
  induction entries generalizing started with
  | nil => exact True.intro
  | cons e rest ih =>
    refine Whole.then (whole_execute (h e List.mem_cons_self) started) fun p => ?_
    obtain ⟨n, f | _⟩ := p
    · exact True.intro
    · exact ih (fun e he => h e (List.mem_cons_of_mem _ he)) n

theorem whole_attendTo {token : Token σ} (h : token.resolve.PutsOnly FlowUnit.Whole)
    (started : Nat) : (r.attendTo signal token started).Whole := by
  refine Whole.then (fun _ => True.intro) fun fired => ?_
  cases fired with
  | true => exact True.intro
  | false =>
    have hempty : ({ current := token.label } : Accumulator σ).HoldsOnly FlowUnit.Whole := by
      simp [Accumulator.HoldsOnly]
    refine Delivers.bind (.embed (h.within hempty)) fun result hresult => ?_
    obtain ⟨f | _, acc⟩ := result
    · exact True.intro
    · exact Whole.then (a := r.send _) True.intro fun _ => whole_executeAll hresult _

theorem whole_walk (h : t.Whole) (limit left : Nat) (ahead seen : List TokenId) (started : Nat) :
    (r.walk signal t limit left ahead seen started).Whole := by
  refine TokenTree.walk_induction_mem (P := fun f => ∀ n, (f n).Whole) ?_ ?_ limit left ahead seen
    started
  · intro stop n
    cases stop with
    | none => exact True.intro
    | some f =>
      refine Whole.then (fun _ => True.intro) fun fired => ?_
      cases fired <;> exact True.intro
  · intro slot hslot f hf n
    refine Whole.then (whole_attendTo (h slot hslot) n) fun p => ?_
    obtain ⟨n, e | _⟩ := p
    · exact True.intro
    · exact hf n

theorem whole_finish (p : Progress) : (r.finish p : RunActivity σ Outcome).Whole :=
  finish_passes (P := fun _ a => Whole a) (fun _ => True.intro) Whole.then
    (fun _ _ _ _ => True.intro) (fun _ => True.intro) p

end Reporter

theorem Token.holdsOnly_resolveInto {token : Token σ} (h : token.resolve.PutsOnly FlowUnit.Whole)
    {acc : Accumulator σ} (hacc : acc.HoldsOnly FlowUnit.Whole) (s : Setting σ) :
    (token.resolveInto acc s).2.1.HoldsOnly FlowUnit.Whole := by
  have hforToken : (acc.forToken token.label).HoldsOnly FlowUnit.Whole := hacc
  exact h.run hforToken s.host s.signals

theorem TokenTree.Whole.gather (h : t.Whole) {strategy : Strategy} {limit left : Nat}
    {ahead seen : List TokenId} {acc acc' : Accumulator σ} {s s' : Setting σ}
    (hacc : acc.HoldsOnly FlowUnit.Whole)
    (hgather : t.gather strategy limit left ahead seen acc s = (.ok acc', s')) :
    acc'.HoldsOnly FlowUnit.Whole := by
  fun_induction TokenTree.gather t strategy limit left ahead seen acc s with
  | case1 =>
    cases hgather
    exact hacc
  | case2 | case3 | case4 => cases hgather
  | case5 _ acc s id _ slot hvisit _ acc₁ s₁ hresolve ih =>
    have hslot : slot ∈ t.slots := Array.mem_of_getElem? (visit_eq_ok_iff.mp hvisit).1
    have hacc₁ := Token.holdsOnly_resolveInto (h slot hslot) hacc s
    rw [hresolve] at hacc₁
    exact ih hacc₁ hgather

theorem TokenTree.Whole.plan (h : t.Whole) {e : Engine} {strategy : Strategy}
    {stage stage' : RunStage σ} {p : Plan σ} (hplan : e.plan strategy t stage = (.ok p, stage')) :
    ∀ entry ∈ p.entries, entry.unit.Whole := by
  unfold Engine.plan at hplan
  split at hplan
  · cases hplan
  · dsimp only at hplan
    split at hplan
    · cases hplan
    · next acc s hgather =>
      cases hplan
      have hempty : ({} : Accumulator σ).HoldsOnly FlowUnit.Whole := by simp [Accumulator.HoldsOnly]
      exact h.gather hempty hgather

theorem Plan.whole_execute {p : Plan σ} (h : ∀ e ∈ p.entries, e.unit.Whole) (signal : Signal) :
    (p.execute signal).Whole := by
  refine Delivers.bind (P := fun _ => True) (fun _ => True.intro) fun w _ => ?_
  split
  · exact True.intro
  · refine Whole.then (a := Activity.set _ (.done ())) True.intro fun _ => ?_
    refine Whole.then (fun _ => True.intro) fun r => ?_
    exact Whole.then (Reporter.whole_executeAll h 0) Reporter.whole_finish

theorem Tour.whole_execute {tour : Tour σ} (h : tour.tree.Whole) (signal : Signal) :
    (tour.execute signal).Whole := by
  refine Whole.then (fun _ => True.intro) fun r => ?_
  split
  · exact Reporter.whole_finish _
  · exact Whole.then (Reporter.whole_walk h _ _ _ _ 0) Reporter.whole_finish

/-- What is compiled of a tree whose units never break off runs to an end. -/
theorem TokenTree.Whole.execute (h : t.Whole) {e : Engine} {stage stage' : RunStage σ}
    {c : Compiled σ} (hcompile : e.compile t stage = (.ok c, stage')) (signal : Signal) :
    (c.execute signal).Whole := by
  unfold Engine.compile at hcompile
  split at hcompile
  · cases hstart : t.start with
    | error f =>
      rw [hstart] at hcompile
      cases hcompile
    | ok root =>
      rw [hstart] at hcompile
      cases hcompile
      exact Tour.whole_execute h signal
  · next strategy _ =>
    cases hplan : e.plan e.config.strategy t stage with
    | mk result stage₁ =>
      rw [hplan] at hcompile
      cases result with
      | error f => cases hcompile
      | ok p =>
        cases hcompile
        exact Plan.whole_execute (h.plan hplan) signal

end Runs

end Flowchart
