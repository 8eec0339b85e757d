import Flowchart.Session.Settle

/-! What the host of a session can do. -/
namespace Flowchart

/-- A signal to be fired when so many milliseconds have passed. -/
structure Alarm where
  ms : Nat
  signal : Signal
deriving DecidableEq, Repr, Inhabited

namespace Session

variable {σ : Type}

def host (s : Session σ) : σ := s.stage.state.host

def change (s : Session σ) (f : σ → σ) : Session σ :=
  { s with stage := { s.stage with state := { s.stage.state with host := f s.host } } }

def newSignal (s : Session σ) : Signal × Session σ :=
  (s.nextSignal, { s with nextSignal := s.nextSignal + 1 })

def fire (s : Session σ) (signal : Signal) : Session σ :=
  s.withHostStage { s.stage with signals := s.stage.signals.fire signal }

def send (s : Session σ) (sink : Sink) (e : Event) : Bool × Session σ :=
  (sink.accepts, { s with stage := { s.stage with items := s.stage.items.push (.event sink e) } })

/-- Take away what was put out so far. -/
def takeItems (s : Session σ) : Array Report × Session σ :=
  (s.stage.items, { s with stage := { s.stage with items := #[] } })

/-- Let the foreground do something, or wait for something, until it is over. -/
def attend (s : Session σ) (front : Front σ) : Session σ :=
  { s with front, frontDue := true, frontGaveWay := false, round := 0 }.settle

def addJob (s : Session σ) (signal : Signal) (a : RunActivity σ Outcome) : Nat × Session σ :=
  (s.jobs.length, { s with jobs := s.jobs ++ [.of signal a s.clock] })

/-- Break off a job that is not over yet. It still has a turn, at which nothing happens. -/
def dismiss (s : Session σ) (job : Nat) : Session σ :=
  match s.jobs[job]? with
  | none => s
  | some j =>
    if j.activity.isOver then s
    else { s with jobs := s.jobs.set job { j with activity := .crash } }.enqueue [job]

/-- Do something under an alarm, which is a job of its own and is dismissed in the end. -/
def under {α : Type} (s : Session σ) (alarm : Option Alarm) (f : Session σ → α × Session σ) :
    α × Session σ :=
  match alarm with
  | none => f s
  | some alarm =>
    let ring : RunActivity σ Outcome :=
      .wait alarm.ms none fun _ => .fire alarm.signal (.done (.ok ()))
    let (job, s) := s.addJob alarm.signal ring
    let (a, s) := f (s.enqueue [job])
    (a, s.dismiss job)

/-- Carry out an activity in the foreground; no outcome if it breaks off. -/
def carryOut (s : Session σ) (a : RunActivity σ Outcome) : Option Outcome × Session σ :=
  let s := s.attend (.acting a (s.clock + a.delay))
  match s.front with
  | .acting a _ => (a.result?, s)
  | .awaiting _ => (none, s)

def perform (s : Session σ) (a : RunActivity σ Outcome) (alarm : Option Alarm := none) :
    Option Outcome × Session σ :=
  s.under alarm (·.carryOut a)

def pass (s : Session σ) (ms : Nat) : Session σ :=
  (s.carryOut (.wait ms none fun _ => .done (.ok ()))).2

def outcome (s : Session σ) (job : Nat) : Outcome :=
  match s.jobs[job]?.bind (·.activity.result?) with
  | some o => o
  | none => .error (.lost "the run broke off")

def await (s : Session σ) (job : Nat) (alarm : Option Alarm := none) : Outcome × Session σ :=
  s.under alarm fun s =>
    let s := s.attend (.awaiting job)
    (s.outcome job, s)

def fill {α : Type} (s : Session σ) (f : Filling σ α) (acc : Accumulator σ) :
    α × Accumulator σ × Session σ :=
  let w := s.stage.state
  let (a, acc, host, signals) := f.run acc w.host s.stage.signals
  (a, acc, s.withHostStage { s.stage with state := { w with host }, signals })

def compile (s : Session σ) (e : Engine) (t : TokenTree (Token σ)) :
    Except Fault (Compiled σ) × Session σ :=
  let (c, stage) := e.compile t s.stage
  (c, s.withHostStage stage)

/-- Make a plan of a tree by a strategy, whatever the settings say. -/
def plan (s : Session σ) (e : Engine) (strategy : Strategy) (t : TokenTree (Token σ)) :
    Except Fault (Plan σ) × Session σ :=
  let (p, stage) := e.plan strategy t s.stage
  (p, s.withHostStage stage)

def isSpent (s : Session σ) (p : Plan σ) : Bool := s.stage.state.spent.contains p.id

def run (s : Session σ) (e : Engine) (t : TokenTree (Token σ)) (signal : Signal)
    (alarm : Option Alarm := none) : Option Outcome × Session σ :=
  s.under alarm fun s =>
    let (c, stage) := e.compile t s.stage
    let s := s.withStage stage
    match c with
    | .error f => (some (.error f), s)
    | .ok c => s.carryOut (c.execute signal)

/-- Spawn a run of a compiled tree under a signal of its own. It begins when the host waits. -/
def launch (s : Session σ) (c : Compiled σ) : Nat × Session σ :=
  let (signal, s) := s.newSignal
  let (job, s) := s.addJob signal (c.execute signal)
  (job, s.letIn [job])

/-- Compile a tree and spawn a run of it. -/
def start (s : Session σ) (e : Engine) (t : TokenTree (Token σ)) :
    Except Fault Nat × Session σ :=
  match s.compile e t with
  | (.error f, s) => (.error f, s)
  | (.ok c, s) =>
    let (job, s) := s.launch c
    (.ok job, s)

def signal? (s : Session σ) (job : Nat) : Option Signal := s.jobs[job]?.map (·.signal)

def stop (s : Session σ) (job : Nat) : Session σ :=
  match s.signal? job with
  | some signal => s.fire signal
  | none => s

end Session

end Flowchart
