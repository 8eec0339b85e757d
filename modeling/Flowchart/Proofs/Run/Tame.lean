import Flowchart.Proofs.Run.Attend

/-! Activities that neither break off nor fire a signal, and runs of such units. -/
namespace Flowchart

variable {σ τ ω ψ α β : Type}

def Company.Spares (others : Company σ ω) (signal : Signal) : Prop :=
  ∀ deeds stage, stage.signals.has signal = false → (others deeds stage).signals.has signal = false

namespace Activity

/-- Whatever it finds, an activity neither breaks off nor fires a signal. -/
def Tame : Activity σ ω α → Prop
  | done _ => True
  | crash => False
  | get next => ∀ s, (next s).Tame
  | set _ next => next.Tame
  | emit _ next => next.Tame
  | fire _ _ => False
  | poll _ next => ∀ fired, (next fired).Tame
  | wait _ _ next => ∀ cut, (next cut).Tame

namespace Tame

theorem pure (a : α) : Tame (Pure.pure a : Activity σ ω α) := True.intro

theorem hasFired (signal : Signal) : Tame (.hasFired signal : Activity σ ω Bool) :=
  fun _ => True.intro

theorem tell (o : ω) : Tame (.tell o : Activity σ ω Unit) := True.intro

theorem bind {a : Activity σ ω α} {f : α → Activity σ ω β} (ha : a.Tame) (hf : ∀ x, (f x).Tame) :
    (a >>= f).Tame := by
  change (a.bind f).Tame
  induction a with
  | done a => exact hf a
  | crash => exact ha
  | get next ih => exact fun s => ih s (ha s)
  | set s next ih => exact ih ha
  | emit o next ih => exact ih ha
  | fire signal next ih => exact ha
  | poll signal next ih => exact fun fired => ih fired (ha fired)
  | wait ms signal next ih => exact fun cut => ih cut (ha cut)

theorem embed {view : τ → σ} {update : σ → τ → τ} {item : ω → ψ} {a : Activity σ ω α} (h : a.Tame) :
    (a.embed view update item).Tame := by
  induction a with
  | done a => exact True.intro
  | crash => exact h
  | get next ih => exact fun t => ih _ (h _)
  | set s next ih => exact fun _ => ih h
  | emit o next ih => exact ih h
  | fire signal next ih => exact h
  | poll signal next ih => exact fun fired => ih fired (h fired)
  | wait ms signal next ih => exact fun cut => ih cut (h cut)

theorem play_ends {a : Activity σ ω α} (h : a.Tame) {others : Company σ ω} {signal : Signal}
    (hothers : others.Spares signal) {sc : Scene σ ω} (quiet : sc.stage.signals.has signal = false) :
    ∃ x sc', a.play others sc = (some x, sc') ∧ sc'.stage.signals.has signal = false := by
  induction a generalizing sc with
  | done a => exact ⟨a, sc, rfl, quiet⟩
  | crash => exact h.elim
  | get next ih => exact ih _ (h _) quiet
  | set s next ih => exact ih h quiet
  | emit o next ih => exact ih h quiet
  | fire signal next ih => exact h.elim
  | poll signal next ih => exact ih _ (h _) quiet
  | wait ms signal next ih => exact ih _ (h _) (hothers _ _ quiet)

end Tame

end Activity

namespace Reporter

open Activity

variable {r : Reporter} {signal : Signal}

theorem tame_execute {e : Entry σ} (h : (e.unit.execute signal).Tame) (started : Nat) :
    (r.execute signal e started).Tame := by
  rw [execute_eq]
  refine Tame.bind (.hasFired signal) fun fired => ?_
  cases fired with
  | true => exact .pure _
  | false =>
    refine Tame.bind (.tell _) fun _ => Tame.bind (.embed h) ?_
    exact conclude_passes Tame.pure Tame.bind (fun _ _ _ _ => .tell _) e started

theorem tame_executeAll {entries : List (Entry σ)}
    (h : ∀ e ∈ entries, (e.unit.execute signal).Tame) (started : Nat) :
    (r.executeAll signal started entries).Tame := by
  induction entries generalizing started with
  | nil => exact .pure _
  | cons e rest ih =>
    refine Tame.bind (tame_execute (h e List.mem_cons_self) started) fun p => ?_
    obtain ⟨n, f | _⟩ := p
    · exact .pure _
    · exact ih (fun e he => h e (List.mem_cons_of_mem _ he)) n

theorem tame_finish (p : Progress) : (r.finish p : RunActivity σ Outcome).Tame :=
  finish_passes Tame.pure Tame.bind (fun _ _ _ _ => .tell _) (fun _ => .tell _) p

end Reporter

end Flowchart
