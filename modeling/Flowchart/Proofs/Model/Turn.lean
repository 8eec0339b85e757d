import Flowchart.Proofs.Model.Direct
import Flowchart.Proofs.Model.Pulling

/-! What a run does with the token of a library node whose guards are open: what the node does when
the flow is interpreted directly, and besides it notes the decision of a branch. -/
namespace Flowchart

namespace Activity.Yields

variable {signal : Signal} {α β : Type} {d d' : Desk} {effects : List Effect}

theorem inRun_ofPull {p : Pull α} {f : Except Fault α → Activity Desk LogLine β} {x : β}
    (h : Yields signal (f (p.run d).1).inRun (p.run d).2 x effects d') :
    Yields signal (Activity.inRun (.ofPull p >>= f)) d x effects d' := by
  apply inRun_get
  exact inRun_set h

variable {m : Model} {n : Node} {f : Fault}

theorem printUnit_ok {v : Option Json} (h : (n.input m.inputValue "value").run d = (.ok v, d')) :
    Yields signal (((Behaviour.printUnit m n).execute signal).inRun) d (.ok ())
      [.logged ⟨.info, s!"[{n.id}] {Json.printed v}"⟩] (d'.print (Json.printed v)) := by
  refine inRun_poll (inRun_ofPull ?_)
  rw [h]
  exact inRun_emit (inRun_get (inRun_set (.pure _)))

theorem printUnit_error (h : (n.input m.inputValue "value").run d = (.error f, d')) :
    Yields signal (((Behaviour.printUnit m n).execute signal).inRun) d (.error f) [] d' := by
  refine inRun_poll (inRun_ofPull ?_)
  rw [h]
  exact .pure _

theorem setUnit_ok {name : String} {v : Json}
    (h : (n.requireInput m.inputValue "value").run d = (.ok v, d')) :
    Yields signal (((Behaviour.setUnit m n name).execute signal).inRun) d (.ok ()) []
      { d' with board := d'.board.set name v } := by
  refine inRun_poll (inRun_ofPull ?_)
  rw [h]
  exact inRun_get (inRun_set (.pure _))

theorem setUnit_error {name : String}
    (h : (n.requireInput m.inputValue "value").run d = (.error f, d')) :
    Yields signal (((Behaviour.setUnit m n name).execute signal).inRun) d (.error f) [] d' := by
  refine inRun_poll (inRun_ofPull ?_)
  rw [h]
  exact .pure _

theorem delayUnit_ok {ms : Nat} : Yields signal (((Behaviour.delayUnit n ms).execute signal).inRun) d
    (.ok ()) [.waited ms] d := inRun_poll (inRun_wait (.pure _))

theorem failUnit_error {message : String} :
    Yields signal (((Behaviour.failUnit n message).execute signal).inRun) d
      (.error (.failed message)) [] d := inRun_poll (.pure _)

end Activity.Yields

namespace Desk

variable {d : Desk} {id node : String}

theorem lookup_filter_ne {α : Type} {entries : List (String × α)} (h : id ≠ node) :
    (entries.filter (·.1 ≠ node)).lookup id = entries.lookup id := by
  induction entries with
  | nil => rfl
  | cons x entries ih =>
    obtain ⟨key, value⟩ := x
    by_cases hkey : key = node
    · have hid : (id == key) = false := beq_false_of_ne (hkey ▸ h)
      rw [List.filter_cons_of_neg (by simpa using hkey), List.lookup_cons, hid, ih]
    · rw [List.filter_cons_of_pos (by simpa using hkey), List.lookup_cons, List.lookup_cons, ih]

theorem decision?_undecide_ne (h : id ≠ node) : (d.undecide node).decision? id = d.decision? id :=
  lookup_filter_ne h

theorem decision?_decide_ne (h : id ≠ node) (b : Bool) :
    (d.decide node b).decision? id = d.decision? id := by
  have hid : (id == node) = false := beq_false_of_ne h
  rw [decision?, decide, List.lookup_cons, hid]
  exact lookup_filter_ne h

theorem decision?_decide (b : Bool) : (d.decide node b).decision? node = some b := by
  simp [decision?, decide]

end Desk

/-- A desk is left as a node leaves it, apart from the decision by which its ports are open. -/
structure Behaviour.Turned (b : Behaviour) (n : Node) (p : Performance (Option Bool))
    (d d' : Desk) : Prop where
  desk : ∀ decisions, d'.withDecisions decisions = p.desk.withDecisions decisions
  others : ∀ id, id ≠ n.id → d'.decision? id = d.decision? id
  ways : ∀ choice, p.outcome = .ok choice → ∀ q, b.isOpen d' n.id q = q.isTaken choice

/-- What a library node does has nothing to do with what branches have decided. -/
theorem Behaviour.perform_withDecisions {m : Model} (hlib : m.OfLibrary) {n : Node} {b : Behaviour}
    (hb : Library.Declares b n) (d : Desk) (decisions : List (String × Bool)) :
    b.perform m n (d.withDecisions decisions) =
      { b.perform m n d with desk := (b.perform m n d).desk.withDecisions decisions } := by
  have hplain := hlib.plain_inputValue
  cases hb with
  | constant | add | getVariable | delay | fail => rfl
  | setVariable id name =>
    have hp := Node.plain_requireInput (n := Library.setVariable id) hplain "value"
    simp only [Behaviour.perform, hp.blind]
    rcases ((Library.setVariable id).requireInput m.inputValue "value").run d with ⟨f | v, d'⟩ <;> rfl
  | print id =>
    have hp := Node.plain_input (n := Library.print id) hplain "value"
    simp only [Behaviour.perform, hp.blind]
    rcases ((Library.print id).input m.inputValue "value").run d with ⟨f | v, d'⟩ <;> rfl
  | branch id =>
    have hp := Node.plain_requireBool (n := Library.branch id) hplain "condition"
    simp only [Behaviour.perform, hp.blind]
    rcases ((Library.branch id).requireBool m.inputValue "condition").run d with ⟨f | c, d'⟩ <;> rfl

theorem Behaviour.perform_uncancelled {m : Model} (hlib : m.OfLibrary) {n : Node} {b : Behaviour}
    (hb : Library.Declares b n) {d d' : Desk} {effects : List Effect} {f : Fault}
    (h : b.perform m n d = ⟨effects, .error f, d'⟩) : f.isCancelled = false := by
  have hplain := hlib.plain_inputValue
  cases hb with
  | constant | add | getVariable | delay => cases h
  | fail =>
    cases h
    rfl
  | setVariable id name =>
    have hp := Node.plain_requireInput (n := Library.setVariable id) hplain "value"
    unfold Behaviour.perform at h
    rcases hpull : ((Library.setVariable id).requireInput m.inputValue "value").run d with ⟨f | v, d'⟩
    · rw [hpull] at h
      cases h
      have hf := hp.uncancelled_of_run hpull
      exact hf
    · rw [hpull] at h
      cases h
  | print id =>
    have hp := Node.plain_input (n := Library.print id) hplain "value"
    unfold Behaviour.perform at h
    rcases hpull : ((Library.print id).input m.inputValue "value").run d with ⟨f | v, d'⟩
    · rw [hpull] at h
      cases h
      have hf := hp.uncancelled_of_run hpull
      exact hf
    · rw [hpull] at h
      cases h
  | branch id =>
    have hp := Node.plain_requireBool (n := Library.branch id) hplain "condition"
    unfold Behaviour.perform at h
    rcases hpull : ((Library.branch id).requireBool m.inputValue "condition").run d with ⟨f | c, d'⟩
    · rw [hpull] at h
      cases h
      have hf := hp.uncancelled_of_run hpull
      exact hf
    · rw [hpull] at h
      cases h

/-- A node without a decision to make leaves the decisions of the others alone. -/
theorem Behaviour.Turned.of_action {b : Behaviour} {n : Node} {p : Performance (Option Bool)}
    {d : Desk} (hdecisions : p.desk.decisions = d.decisions)
    (hchoice : ∀ choice, p.outcome = .ok choice → choice = none)
    (hopen : ∀ q, b.isOpen p.desk n.id q = true) : b.Turned n p d p.desk where
  desk _ := rfl
  others id _ := by rw [Desk.decision?, Desk.decision?, hdecisions]
  ways choice hc q := by
    rw [hchoice choice hc]
    exact hopen q

theorem Filling.run_ofPull {α β : Type} (p : Pull α) (k : Except Fault α → Filling Desk β)
    (acc : Accumulator Desk) (d : Desk) (signals : Signals) :
    (Filling.ofPull p >>= k).run acc d signals = (k (p.run d).1).run acc (p.run d).2 signals := rfl

theorem Filling.run_change {β : Type} (f : Desk → Desk) (k : Unit → Filling Desk β)
    (acc : Accumulator Desk) (d : Desk) (signals : Signals) :
    (Filling.change f >>= k).run acc d signals = (k ()).run acc (f d) signals := rfl

namespace NodeToken

variable {m : Model} {t : NodeToken} {n : Node} {b : Behaviour} {d : Desk}

theorem run_guarded (acc : Accumulator Desk) (signals : Signals) :
    (t.token m).resolve.run acc d signals =
      (match m.allOpen d t.guards with
        | .error f => (Pure.pure (.error f) : Filling Desk Outcome)
        | .ok false => Pure.pure (.ok ())
        | .ok true => m.resolve t.node).run acc d signals := rfl

theorem run_resolve (hn : m.graph.node? t.node = some n) (hb : m.behaviour? t.node = some b)
    (hopen : m.allOpen d t.guards = .ok true) (acc : Accumulator Desk) (signals : Signals) :
    (t.token m).resolve.run acc d signals = (b.resolve m n).run acc d signals := by
  rw [run_guarded, hopen]
  dsimp only
  rw [Model.resolve, hn, hb]

/-- A branch pulls its condition at a desk from which its decision has been taken. -/
theorem run_branch (hp : (n.requireBool m.inputValue "condition").Plain) (acc : Accumulator Desk)
    (signals : Signals) : (Behaviour.resolve m n .branch).run acc d signals =
      match (n.requireBool m.inputValue "condition").run d with
      | (.error f, d') => (.error f, acc, d'.withDecisions (d.undecide n.id).decisions, signals)
      | (.ok c, d') =>
        (.ok (), acc, (d'.withDecisions (d.undecide n.id).decisions).decide n.id c, signals) := by
  have hundecided : d.undecide n.id = d.withDecisions (d.undecide n.id).decisions := rfl
  unfold Behaviour.resolve
  rw [Filling.run_change, Filling.run_ofPull, hundecided, hp.blind]
  rcases (n.requireBool m.inputValue "condition").run d with ⟨f | c, d'⟩ <;> rfl

open Activity

theorem yields_closed (hclosed : m.allOpen d t.guards = .ok false) (r : Reporter) (signal : Signal)
    (started : Nat) : Yields signal (r.attendTo signal (t.token m) started) d ⟨started, .ok ()⟩ [] d := by
  have hrun : ∀ signals, (t.token m).resolve.run { current := (t.token m).label } d signals =
      (.ok (), { current := (t.token m).label }, d, signals) := by
    intro signals
    rw [run_guarded, hclosed]
    rfl
  exact .attendTo_ok hrun (.pure _)

theorem yields_idle (hrun : ∀ signals, (t.token m).resolve.run { current := t.node } d signals =
      (.ok (), { current := t.node }, d, signals)) (hperform : b.perform m n d = ⟨[], .ok none, d⟩)
    (hisOpen : ∀ q, b.isOpen d n.id q = true) (r : Reporter) (signal : Signal) (started : Nat) :
    ∃ started' d', Yields signal (r.attendTo signal (t.token m) started) d
      ⟨started', (b.perform m n d).outcome.map fun _ => ()⟩ (b.perform m n d).effects d' ∧
      b.Turned n (b.perform m n d) d d' := by
  rw [hperform]
  exact ⟨started, d, .attendTo_ok hrun (.pure _), .of_action rfl (by simp) hisOpen⟩

/-- The token of a branch pulls the condition and notes the decision. -/
theorem yields_branch {id : String}
    (hp : ((Library.branch id).requireBool m.inputValue "condition").Plain)
    (hrun : ∀ signals, (t.token m).resolve.run { current := t.node } d signals =
      (Behaviour.resolve m (Library.branch id) .branch).run { current := t.node } d signals)
    (hid : t.node = id) (r : Reporter) (signal : Signal) (started : Nat) :
    ∃ started' d', Yields signal (r.attendTo signal (t.token m) started) d
      ⟨started', (Behaviour.branch.perform m (Library.branch id) d).outcome.map fun _ => ()⟩
      (Behaviour.branch.perform m (Library.branch id) d).effects d' ∧
      Behaviour.branch.Turned (Library.branch id)
        (Behaviour.branch.perform m (Library.branch id) d) d d' := by
  have hbranch : ∀ signals, _ := fun signals => (hrun signals).trans (run_branch hp _ signals)
  subst hid
  unfold Behaviour.perform
  rcases hpull : ((Library.branch t.node).requireBool m.inputValue "condition").run d with
    ⟨f | c, d'⟩
  · rw [hpull] at hbranch
    refine ⟨started, _, .attendTo_error hbranch, fun _ => rfl, fun _ hne => ?_, nofun⟩
    exact Desk.decision?_undecide_ne hne
  · rw [hpull] at hbranch
    refine ⟨started, _, .attendTo_ok hbranch (.pure _), fun _ => rfl, fun _ hne => ?_, ?_⟩
    · rw [Desk.decision?_decide_ne hne]
      exact Desk.decision?_undecide_ne hne
    · intro choice hchoice q
      cases hchoice
      have hdecided :
          ((d'.withDecisions (d.undecide t.node).decisions).decide t.node c).decision? t.node =
            some c := Desk.decision?_decide c
      simp only [Behaviour.isOpen, Port.isTaken, Library.branch, hdecided]
      cases c <;> simp

/-- The token of a library node, with its guards open, does what the node does. -/
theorem yields_open (hlib : m.OfLibrary) (hn : m.graph.node? t.node = some n)
    (hb : m.behaviour? t.node = some b) (hopen : m.allOpen d t.guards = .ok true)
    (r : Reporter) (signal : Signal) (started : Nat) :
    ∃ started' d', Yields signal (r.attendTo signal (t.token m) started) d
      ⟨started', (b.perform m n d).outcome.map fun _ => ()⟩ (b.perform m n d).effects d' ∧
      b.Turned n (b.perform m n d) d d' := by
  obtain ⟨node, guards⟩ := t
  obtain rfl : n.id = node := by simpa using List.find?_some hn
  have hrun := run_resolve hn hb hopen { current := n.id }
  have hplain := hlib.plain_inputValue
  cases hlib.declares hn hb with
  | constant | add | getVariable => exact yields_idle hrun rfl (fun _ => rfl) r signal started
  | setVariable id name =>
    have hp := Node.plain_requireInput (n := Library.setVariable id) hplain "value"
    have hdecisions := hp.decisions_eq d
    unfold Behaviour.perform
    rcases hpull : ((Library.setVariable id).requireInput m.inputValue "value").run d with ⟨f | v, d'⟩
    · rw [hpull] at hdecisions
      have hf := hp.uncancelled_of_run hpull
      exact ⟨started + 1, d', .attendTo_unit hrun (.execute_error (.setUnit_error hpull) hf),
        .of_action hdecisions (by simp) fun _ => rfl⟩
    · rw [hpull] at hdecisions
      exact ⟨started + 1, _, .attendTo_unit hrun (.execute_ok (.setUnit_ok hpull)),
        .of_action hdecisions (by simp) fun _ => rfl⟩
  | print id =>
    have hp := Node.plain_input (n := Library.print id) hplain "value"
    have hdecisions := hp.decisions_eq d
    unfold Behaviour.perform
    rcases hpull : ((Library.print id).input m.inputValue "value").run d with ⟨f | v, d'⟩
    · rw [hpull] at hdecisions
      have hf := hp.uncancelled_of_run hpull
      exact ⟨started + 1, d', .attendTo_unit hrun (.execute_error (.printUnit_error hpull) hf),
        .of_action hdecisions (by simp) fun _ => rfl⟩
    · rw [hpull] at hdecisions
      exact ⟨started + 1, _, .attendTo_unit hrun (.execute_ok (.printUnit_ok hpull)),
        .of_action hdecisions (by simp) fun _ => rfl⟩
  | delay id ms =>
    exact ⟨started + 1, d, .attendTo_unit hrun (.execute_ok .delayUnit_ok),
      .of_action rfl (by simp [Behaviour.perform]) fun _ => rfl⟩
  | fail id message =>
    exact ⟨started + 1, d, .attendTo_unit hrun (.execute_error .failUnit_error rfl),
      .of_action rfl (by simp [Behaviour.perform]) fun _ => rfl⟩
  | branch id =>
    have hp := Node.plain_requireBool (n := Library.branch id) hplain "condition"
    exact yields_branch hp hrun rfl r signal started

end NodeToken

end Flowchart
