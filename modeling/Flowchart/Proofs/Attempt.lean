/-! Attempts that can be refused: when one after another succeeds, and what a refusal leaves. -/
namespace Flowchart

variable {ε α β : Type}

theorem bind_eq_ok_iff {x : Except ε α} {f : α → Except ε β} {b : β} :
    (x >>= f) = .ok b ↔ ∃ a, x = .ok a ∧ f a = .ok b := by
  cases x with
  | error e => simp [bind, Except.bind]
  | ok a => simp [bind, Except.bind]

theorem bind_eq_error_iff {x : Except ε α} {f : α → Except ε β} {e : ε} :
    (x >>= f) = .error e ↔ x = .error e ∨ ∃ a, x = .ok a ∧ f a = .error e := by
  cases x with
  | error e' => simp [bind, Except.bind]
  | ok a => simp [bind, Except.bind]

/-- A row of attempts that fails has one that fails after all before it succeeded. -/
theorem exists_of_foldlM_eq_error {f : β → α → Except ε β} {l : List α} {b : β} {e : ε}
    (h : l.foldlM f b = .error e) :
    ∃ before a after b', l = before ++ a :: after ∧ before.foldlM f b = .ok b' ∧
      f b' a = .error e := by
  induction l generalizing b with
  | nil => cases h
  | cons a l ih =>
    rw [List.foldlM_cons, bind_eq_error_iff] at h
    rcases h with h | ⟨b₁, hb, h⟩
    · exact ⟨[], a, l, b, rfl, rfl, h⟩
    · obtain ⟨before, a', after, b', rfl, hbefore, ha'⟩ := ih h
      refine ⟨a :: before, a', after, b', rfl, ?_, ha'⟩
      rw [List.foldlM_cons, hb]
      exact hbefore

/-- A row of attempts succeeds just if what all of them make is good, where
parts of good things are good. -/
theorem foldlM_eq_ok_iff {f : β → α → Except ε β} (extend : β → List α → β) (Good : β → Prop)
    (hnil : ∀ b, extend b [] = b) (hcons : ∀ b a l, extend (extend b [a]) l = extend b (a :: l))
    (hpart : ∀ b l, Good (extend b l) → Good b)
    (hstep : ∀ b a b', Good b → (f b a = .ok b' ↔ b' = extend b [a] ∧ Good (extend b [a])))
    {l : List α} {b b' : β} (hb : Good b) :
    l.foldlM f b = .ok b' ↔ b' = extend b l ∧ Good (extend b l) := by
  induction l generalizing b with
  | nil =>
    rw [hnil, List.foldlM_nil]
    constructor
    · intro h
      cases h
      exact ⟨rfl, hb⟩
    · rintro ⟨rfl, _⟩
      rfl
  | cons a l ih =>
    rw [List.foldlM_cons, bind_eq_ok_iff]
    constructor
    · rintro ⟨b₁, h₁, h⟩
      obtain ⟨rfl, hgood⟩ := (hstep b a b₁ hb).mp h₁
      rw [ih hgood, hcons] at h
      exact h
    · rintro ⟨rfl, hgood⟩
      have hfirst : Good (extend b [a]) := hpart _ l (by rwa [hcons])
      refine ⟨_, (hstep b a _ hb).mpr ⟨rfl, hfirst⟩, (ih hfirst).mpr ?_⟩
      rw [hcons]
      exact ⟨rfl, hgood⟩

/-- What holds before an attempt, and after it if it succeeds, holds in any case. -/
theorem getD_toOption {P : α → Prop} {a : α} {attempt : Except ε α} (ha : P a)
    (hok : ∀ b, attempt = .ok b → P b) : P (attempt.toOption.getD a) := by
  cases attempt with
  | error e => exact ha
  | ok b => exact hok b rfl

end Flowchart
