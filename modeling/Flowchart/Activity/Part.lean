import Flowchart.Activity.Basic

/-! Parts of activities. Going on makes an activity a proper part of itself, and no activity has
parts within parts without end. -/
namespace Flowchart.Activity

variable {σ ω α : Type}

inductive Next : Activity σ ω α → Activity σ ω α → Prop
  | get (next : σ → Activity σ ω α) (s : σ) : Next (next s) (.get next)
  | set (s : σ) (next : Activity σ ω α) : Next next (.set s next)
  | emit (o : ω) (next : Activity σ ω α) : Next next (.emit o next)
  | fire (signal : Signal) (next : Activity σ ω α) : Next next (.fire signal next)
  | poll (signal : Signal) (next : Bool → Activity σ ω α) (b : Bool) : Next (next b) (.poll signal next)
  | wait (ms : Nat) (signal : Option Signal) (next : Bool → Activity σ ω α) (b : Bool) :
      Next (next b) (.wait ms signal next)

theorem next_wellFounded : WellFounded (Next : Activity σ ω α → Activity σ ω α → Prop) := by
  constructor
  intro a
  induction a with
  | done _ => exact ⟨_, fun _ h => nomatch h⟩
  | crash => exact ⟨_, fun _ h => nomatch h⟩
  | get next ih => exact ⟨_, fun _ h => by cases h; exact ih _⟩
  | set s next ih => exact ⟨_, fun _ h => by cases h; exact ih⟩
  | emit o next ih => exact ⟨_, fun _ h => by cases h; exact ih⟩
  | fire signal next ih => exact ⟨_, fun _ h => by cases h; exact ih⟩
  | poll signal next ih => exact ⟨_, fun _ h => by cases h; exact ih _⟩
  | wait ms signal next ih => exact ⟨_, fun _ h => by cases h; exact ih _⟩

/-- One activity is a proper part of another. -/
abbrev Part : Activity σ ω α → Activity σ ω α → Prop := Relation.TransGen Next

theorem part_of_next {a b c : Activity σ ω α} (h : a = b ∨ Part a b) (hn : Next b c) :
    Part a c := by
  obtain rfl | h := h
  · exact .single hn
  · exact .tail h hn

theorem burst_part (a : Activity σ ω α) (n : Nat) (stage : Stage σ ω) :
    (a.burst n stage).rest = a ∨ Part (a.burst n stage).rest a := by
  induction a generalizing n stage with
  | done _ => exact .inl rfl
  | crash => exact .inl rfl
  | get next ih => exact .inr (part_of_next (ih _ _ _) (.get next _))
  | set s next ih => exact .inr (part_of_next (ih _ _) (.set s next))
  | emit o next ih => exact .inr (part_of_next (ih _ _) (.emit o next))
  | fire signal next ih => exact .inr (part_of_next (ih _ _) (.fire signal next))
  | poll signal next ih => exact .inr (part_of_next (ih _ _ _) (.poll signal next _))
  | wait ms signal next ih =>
    rw [burst]
    split
    · exact .inl rfl
    · split
      · exact .inr (part_of_next (ih _ _ _) (.wait ms signal next _))
      · split
        · exact .inr (part_of_next (ih _ _ _) (.wait ms signal next _))
        · exact .inl rfl

/-- Whenever an activity goes on at a look, a proper part of it is left. -/
theorem look?_part {timeIsUp : Bool} {stage : Stage σ ω} {a : Activity σ ω α} {p : Pause σ ω α}
    (h : a.look? timeIsUp stage = some p) : Part p.rest a := by
  cases a with
  | done _ => cases h
  | crash => cases h
  | get next => cases h; exact part_of_next (burst_part (next _) _ _) (.get next _)
  | set s next => cases h; exact part_of_next (burst_part next _ _) (.set s next)
  | emit o next => cases h; exact part_of_next (burst_part next _ _) (.emit o next)
  | fire signal next => cases h; exact part_of_next (burst_part next _ _) (.fire signal next)
  | poll signal next => cases h; exact part_of_next (burst_part (next _) _ _) (.poll signal next _)
  | wait ms signal next =>
    rw [look?] at h
    split at h
    · cases h; exact part_of_next (burst_part _ _ _) (.wait ms signal next _)
    · split at h
      · cases h; exact part_of_next (burst_part _ _ _) (.wait ms signal next _)
      · cases h

inductive Shrinks : List (Activity σ ω α) → List (Activity σ ω α) → Prop
  | head {a b : Activity σ ω α} {rest : List (Activity σ ω α)} (h : Part a b) :
      Shrinks (a :: rest) (b :: rest)
  | tail {a : Activity σ ω α} {l m : List (Activity σ ω α)} (h : Shrinks l m) :
      Shrinks (a :: l) (a :: m)

theorem shrinks_acc_cons {a : Activity σ ω α} (ha : Acc Part a) :
    ∀ {l : List (Activity σ ω α)}, Acc Shrinks l → Acc Shrinks (a :: l) := by
  induction ha with
  | intro a _ iha =>
    intro l hl
    induction hl with
    | intro l hl ihl =>
      constructor
      intro m h
      cases h with
      | head h => exact iha _ h ⟨l, hl⟩
      | tail h => exact ihl _ h

theorem shrinks_wellFounded :
    WellFounded (Shrinks : List (Activity σ ω α) → List (Activity σ ω α) → Prop) := by
  constructor
  intro l
  induction l with
  | nil => exact ⟨_, fun _ h => nomatch h⟩
  | cons a l ih => exact shrinks_acc_cons (next_wellFounded.transGen.apply a) ih

theorem shrinks_set {l : List (Activity σ ω α)} {i : Nat} {a b : Activity σ ω α}
    (h : l[i]? = some b) (hp : Part a b) : Shrinks (l.set i a) l := by
  induction l generalizing i with
  | nil => simp at h
  | cons c l ih =>
    cases i with
    | zero =>
      simp only [List.length_cons, Nat.zero_lt_succ, List.getElem?_eq_getElem,
        List.getElem_cons_zero, Option.some.injEq] at h
      subst h
      exact .head hp
    | succ i => exact .tail (ih (by simpa using h))

end Flowchart.Activity
