import Flowchart.Session.Clock

/-! Whose turn it is. Jobs take turns, and between two rounds the thread rests: it calls those who
gave way, or lets the clock move when nobody can go on. The foreground has its turn after a rest. -/
namespace Flowchart.Session

variable {σ : Type}

/-- After so many turns the thread rests even if there are jobs that can go on. -/
def turnsPerRound : Nat := 61

/-- Every so many turns the entrance comes before the queue. -/
def entranceInterval : Nat := 31

/-- Look at the foreground, and go on with it if it can. -/
def lookAtFront (s : Session σ) : Session σ :=
  match s.front with
  | .awaiting _ => { s with frontDue := false }
  | .acting a wakeAt =>
    match a.look? (wakeAt ≤ s.clock) s.stage with
    | none => { s with frontDue := false }
    | some p =>
      { s with
        front := .acting p.rest (s.clock + p.rest.delay)
        frontDue := p.rest.isOver
        frontGaveWay := p.gaveWay }.withStage p.stage

/-- Put a job where its activity leaves it, and call the foreground if it has waited for its end. -/
def leave (s : Session σ) (job : Nat) (gaveWay : Bool) : Session σ :=
  if gaveWay then { s with gaveWay := job :: s.gaveWay }
  else if s.isOver job then
    match s.front with
    | .awaiting n => if n = job then s.callFront else s
    | .acting .. => s
  else { s with parked := s.parked ++ [job] }

def lookAtJob (s : Session σ) (job : Nat) : Session σ :=
  match s.jobs[job]? with
  | none => s
  | some j =>
    let s := { s with parked := s.parked.erase job }
    match j.activity.look? (j.wakeAt ≤ s.clock) s.stage with
    | none => if j.activity.isOver then s else { s with parked := s.parked ++ [job] }
    | some p =>
      let s := s.withStage p.stage
      { s with jobs := s.jobs.set job (.of j.signal p.rest s.clock) }.leave job p.gaveWay

def fromQueue? (s : Session σ) : Option (Nat × Session σ) :=
  match s.queue with
  | job :: queue => some (job, { s with queue })
  | [] => none

def fromEntrance? (s : Session σ) : Option (Nat × Session σ) :=
  match s.entrance with
  | job :: entrance => some (job, { s with entrance })
  | [] => none

/-- The job whose turn it is. -/
def nextJob? (s : Session σ) : Option (Nat × Session σ) :=
  if s.turns % entranceInterval = 0 then s.fromEntrance?.or s.fromQueue?
  else s.fromQueue?.or s.fromEntrance?

/-- Rest without letting the clock move. Those who gave way are called, the last one first. -/
def yield (s : Session σ) : Session σ :=
  let s := { s with round := 0, stirred := false, gaveWay := [] }.enqueue s.gaveWay
  if s.frontGaveWay then { s with frontGaveWay := false }.callFront else s

/-- Rest when no job can go on. The clock stays when somebody gave way or was let in. -/
def rest? (s : Session σ) : Option (Session σ) :=
  if !s.gaveWay.isEmpty || s.frontGaveWay then some s.yield
  else
    match s.nextStop? with
    | some stop =>
      if s.stirred then some { s with round := 0, stirred := false }
      else some (s.moveTo stop)
    | none => if s.frontDue then some { s with round := 0 } else none

/-- The next thing to happen; `none` when the host has got what it waits for, or nothing can. -/
def next? (s : Session σ) : Option (Session σ) :=
  if s.frontDue && s.round == 0 then
    if s.frontOver then none else some s.lookAtFront
  else if s.round = turnsPerRound then some s.yield
  else
    let s := { s with turns := s.turns + 1 }
    match s.nextJob? with
    | some (job, s) => some ({ s with round := s.round + 1 }.lookAtJob job)
    | none => s.rest?

end Flowchart.Session
