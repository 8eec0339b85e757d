import Flowchart.Session.Basic

/-! The clock of a session. It moves to the next time at which a wait is over, with stops on its
way. -/
namespace Flowchart.Session

variable {σ : Type}

/-- When the waits of the foreground and of the jobs are over, or were over. -/
def deadlines (s : Session σ) : List Nat :=
  let front := match s.front with
    | .acting a wakeAt => if a.isWaiting then [wakeAt] else []
    | .awaiting _ => []
  front ++ (s.jobs.filter (·.activity.isWaiting)).map (·.wakeAt)

/-- Where the clock stops for a time: the last multiples of powers of 64, and the time itself. -/
def stops (time : Nat) : List Nat := (List.range 6).map fun k => time - time % Nat.pow 64 k

def nextStop? (s : Session σ) : Option Nat :=
  ((s.deadlines.flatMap stops).filter (s.clock < ·)).min?

/-- Let the clock move to a time while the thread rests, and call those whose time has come. -/
def moveTo (s : Session σ) (time : Nat) : Session σ :=
  let s := { s with clock := time, round := 0 }
  let s := s.enqueue (s.parked.filter (s.endsBy time))
  if s.frontEndsBy time then s.callFront else s

def timeUntil (now : Nat) : List Nat → Nat
  | [] => 0
  | deadline :: rest => (deadline - now) + timeUntil now rest

/-- How much time is left to all waits together. -/
def timeLeft (s : Session σ) : Nat := timeUntil s.clock s.deadlines

theorem le_of_mem_stops {stop time : Nat} (h : stop ∈ stops time) : stop ≤ time := by
  obtain ⟨k, -, rfl⟩ := List.mem_map.mp h
  exact Nat.sub_le _ _

theorem timeUntil_le {deadlines : List Nat} {a b : Nat} (h : a ≤ b) :
    timeUntil b deadlines ≤ timeUntil a deadlines := by
  induction deadlines with
  | nil => exact Nat.le_refl _
  | cons x l ih =>
    simp only [timeUntil]
    omega

theorem timeUntil_lt {deadlines : List Nat} {a b x : Nat} (hx : x ∈ deadlines) (h : a < b)
    (h' : b ≤ x) : timeUntil b deadlines < timeUntil a deadlines := by
  induction deadlines with
  | nil => cases hx
  | cons y l ih =>
    have hle : timeUntil b l ≤ timeUntil a l := timeUntil_le (Nat.le_of_lt h)
    simp only [timeUntil]
    cases hx with
    | head => omega
    | tail _ hx =>
      have := ih hx
      omega

theorem timeLeft_lt_of_stop {s : Session σ} {stop : Nat} (h : s.nextStop? = some stop) :
    timeUntil stop s.deadlines < s.timeLeft := by
  obtain ⟨hm, -⟩ := List.min?_eq_some_iff.mp h
  rw [List.mem_filter, List.mem_flatMap, decide_eq_true_eq] at hm
  obtain ⟨⟨time, ht, hs⟩, hc⟩ := hm
  exact timeUntil_lt ht hc (le_of_mem_stops hs)

end Flowchart.Session
