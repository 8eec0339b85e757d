import Flowchart.Engine

/-! Sessions: a host and any number of jobs share a thread and a clock. Who waits is called when its
time has come, its signal fires, or the job it waits for ends. -/
namespace Flowchart

/-- An activity beside the foreground, with the signal that stops it. While it waits, `wakeAt` is
when its time is up. -/
structure Job (σ : Type) where
  signal : Signal
  activity : RunActivity σ Outcome
  wakeAt : Nat

/-- A job whose activity is taken up at a time. -/
def Job.of {σ : Type} (signal : Signal) (activity : RunActivity σ Outcome) (time : Nat) : Job σ :=
  { signal, activity, wakeAt := time + activity.delay }

/-- What the host itself is doing: an activity, or waiting for a job to end. -/
inductive Front (σ : Type)
  | acting (activity : RunActivity σ Outcome) (wakeAt : Nat)
  | awaiting (job : Nat)

/-- A session; jobs that can go on stand in the `queue` or the `entrance`,
those that wait are `parked`. -/
structure Session (σ : Type) where
  stage : RunStage σ
  nextSignal : Signal := 0
  clock : Nat := 0
  jobs : List (Job σ) := []
  queue : List Nat := []
  entrance : List Nat := []
  parked : List Nat := []
  /-- The jobs that gave way, the last one first. -/
  gaveWay : List Nat := []
  front : Front σ := .acting (.done (.ok ())) 0
  frontDue : Bool := false
  frontGaveWay : Bool := false
  /-- Whether anybody was let in, or the foreground called, since the clock last was to move. -/
  stirred : Bool := false
  round : Nat := 0
  turns : Nat := 0

namespace Session

variable {σ : Type}

/-- A session of a host that has done nothing yet. -/
def new (host : σ) : Session σ := { stage := { state := { host } } }

def awaits (s : Session σ) (signal : Signal) (job : Nat) : Bool :=
  match s.jobs[job]? with
  | some j => j.activity.awaits? = some signal
  | none => false

/-- Whether a job waits for a time that is no later than the given one. -/
def endsBy (s : Session σ) (time : Nat) (job : Nat) : Bool :=
  match s.jobs[job]? with
  | some j => j.activity.isWaiting && j.wakeAt ≤ time
  | none => false

def isOver (s : Session σ) (job : Nat) : Bool :=
  match s.jobs[job]? with
  | some j => j.activity.isOver
  | none => true

def frontAwaits (s : Session σ) (signal : Signal) : Bool :=
  match s.front with
  | .acting a _ => !s.frontGaveWay && a.awaits? = some signal
  | .awaiting _ => false

def frontEndsBy (s : Session σ) (time : Nat) : Bool :=
  match s.front with
  | .acting a wakeAt => a.isWaiting && wakeAt ≤ time
  | .awaiting _ => false

def frontOver (s : Session σ) : Bool :=
  match s.front with
  | .acting a _ => a.isOver
  | .awaiting job => s.isOver job

def absent (s : Session σ) (jobs : List Nat) : List Nat :=
  jobs.filter fun job => !s.queue.contains job && !s.entrance.contains job

def enqueue (s : Session σ) (jobs : List Nat) : Session σ :=
  { s with queue := s.queue ++ s.absent jobs }

def letIn (s : Session σ) (jobs : List Nat) : Session σ :=
  match s.absent jobs with
  | [] => s
  | jobs => { s with entrance := s.entrance ++ jobs, stirred := true }

def callFront (s : Session σ) : Session σ := { s with frontDue := true, stirred := true }

/-- The jobs that wait for some signals, signal by signal. -/
def waiters (s : Session σ) (signals : List Signal) : List Nat :=
  signals.flatMap fun signal => s.parked.filter (s.awaits signal)

/-- The signals that have fired on a stage but not yet in a session. -/
def firedOn (s : Session σ) (stage : RunStage σ) : List Signal :=
  stage.signals.fired.drop s.stage.signals.fired.length

/-- Put in place the stage that a look has left, and call those who wait for
the signals that have fired. -/
def withStage (s : Session σ) (stage : RunStage σ) : Session σ :=
  let fired := s.firedOn stage
  let s := { s with stage }.enqueue (s.waiters fired)
  if fired.any s.frontAwaits then s.callFront else s

/-- Put in place the stage that the host has left, and let in jobs whose signals have fired. -/
def withHostStage (s : Session σ) (stage : RunStage σ) : Session σ :=
  { s with stage }.letIn (s.waiters (s.firedOn stage))

end Session

end Flowchart
