/-! Cancellation signals. -/
namespace Flowchart

abbrev Signal := Nat

/-- The signals that have fired, in the order of their firing. A signal
fires once and stays fired. -/
structure Signals where
  fired : List Signal := []
deriving DecidableEq, Repr, Inhabited

namespace Signals

def has (s : Signals) (signal : Signal) : Bool := s.fired.contains signal

def fire (s : Signals) (signal : Signal) : Signals :=
  if s.has signal then s else ⟨s.fired ++ [signal]⟩

theorem has_fire (s : Signals) (a b : Signal) : (s.fire a).has b = (s.has b || b == a) := by
  unfold fire
  by_cases h : s.has a
  · by_cases hb : b = a <;> simp [h, hb]
  · rw [if_neg h]
    by_cases hb : b = a <;> simp [has, hb]

end Signals

end Flowchart
