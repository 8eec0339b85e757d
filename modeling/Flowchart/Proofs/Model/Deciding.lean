import Flowchart.Proofs.Model.Selection
import Flowchart.Proofs.Model.Turn
import Flowchart.Proofs.Run.Alike

/-! What a token's turn has to do with decisions: resolving a branch notes its own one, and nothing else
that tokens and units of library nodes do reads a decision or changes one. -/
namespace Flowchart

def Desk.undecided (d : Desk) : Desk := d.withDecisions []

theorem Desk.eq_withDecisions {d d' : Desk} (h : d.undecided = d'.undecided) :
    d' = d.withDecisions d'.decisions := by
  have hwith : d.undecided.withDecisions d'.decisions = d'.undecided.withDecisions d'.decisions :=
    congrArg (·.withDecisions d'.decisions) h
  exact hwith.symm

/-- What branches have decided, and some of the variables. -/
def Desk.kept (V : String → Prop) (d : Desk) :
    List (String × Bool) × ({name : String // V name} → Option Json) :=
  (d.decisions, fun name => d.board.get? name)

theorem Desk.kept_congr {V : String → Prop} {d d' : Desk} (hdecisions : d'.decisions = d.decisions)
    (hboard : d'.board = d.board) : d'.kept V = d.kept V := by
  rw [kept, kept, hdecisions, hboard]

theorem Blackboard.get?_set_ne {b : Blackboard} {name other : String} (h : other ≠ name) (value : Json) :
    (b.set name value).get? other = b.get? other := by
  have hne : (other == name) = false := beq_false_of_ne h
  have hmap : ∀ entries : List (String × Json),
      (entries.map fun e => if e.1 = name then (e.1, value) else e).lookup other =
        entries.lookup other := by
    intro entries
    induction entries with
    | nil => rfl
    | cons entry entries ih =>
      obtain ⟨key, v⟩ := entry
      by_cases hkey : key = name
      · subst hkey
        simp only [List.map_cons, if_true, List.lookup_cons, hne, ih]
      · simp only [List.map_cons, if_neg hkey, List.lookup_cons, ih]
  unfold set
  split
  · exact hmap b.entries
  · simp [get?, List.lookup_append, List.lookup_cons, hne]

theorem Desk.kept_set {V : String → Prop} {name : String} (h : ¬ V name) (d : Desk) (value : Json) :
    Desk.kept V { d with board := d.board.set name value } = d.kept V := by
  refine Prod.ext rfl (funext fun other => Blackboard.get?_set_ne ?_ value)
  rintro rfl
  exact h other.2

/-- Pulling from desks that differ in decisions only gives the same and leaves such desks again. -/
theorem Pull.Plain.run_eq {α : Type} {p : Pull α} (hp : p.Plain) {d d' : Desk}
    (h : d.undecided = d'.undecided) :
    (p.run d).1 = (p.run d').1 ∧ (p.run d).2.undecided = (p.run d').2.undecided := by
  rw [Desk.eq_withDecisions h, hp.blind]
  exact ⟨rfl, rfl⟩

namespace Behaviour

def unit? (m : Model) (n : Node) : Behaviour → Option (FlowUnit Desk)
  | print => some (printUnit m n)
  | setVariable name => some (setUnit m n name)
  | delay ms => some (delayUnit n ms)
  | fail message => some (failUnit n message)
  | _ => none

def noting (node : String) : Except Fault Bool × Desk → Outcome × Desk
  | (.error f, d) => (.error f, d)
  | (.ok choice, d) => (.ok (), d.decide node choice)

/-- How resolving a node ends and the desk it leaves, which only a branch touches. -/
def settle (m : Model) (n : Node) (d : Desk) : Behaviour → Outcome × Desk
  | branch => noting n.id ((n.requireBool m.inputValue "condition").run (d.undecide n.id))
  | _ => (.ok (), d)

variable {m : Model} {n : Node} {b : Behaviour}

theorem run_settle (hb : Library.Declares b n) (acc : Accumulator Desk) (d : Desk)
    (signals : Signals) : (b.resolve m n).run acc d signals =
      ((b.settle m n d).1, (b.unit? m n).elim acc acc.push, (b.settle m n d).2, signals) := by
  cases hb with
  | branch id =>
    unfold resolve settle
    rw [Filling.run_change, Filling.run_ofPull]
    generalize ((Library.branch id).requireBool m.inputValue "condition").run _ = pulled
    rcases pulled with ⟨f | choice, d'⟩ <;> rfl
  | constant | add | getVariable | setVariable | print | delay | fail => rfl

theorem noting_alike (node : String) {x y : Except Fault Bool × Desk} (hresult : x.1 = y.1)
    (hdesk : x.2.undecided = y.2.undecided) : (noting node x).1 = (noting node y).1 ∧
      (noting node x).2.undecided = (noting node y).2.undecided := by
  obtain ⟨result, d⟩ := x
  obtain ⟨result', d'⟩ := y
  obtain rfl : result = result' := hresult
  cases result with
  | error f => exact ⟨rfl, hdesk⟩
  | ok choice => exact ⟨rfl, hdesk⟩

variable (hlib : m.OfLibrary) (hb : Library.Declares b n)
include hlib hb

theorem settle_alike {d d' : Desk} (h : d.undecided = d'.undecided) :
    (b.settle m n d).1 = (b.settle m n d').1 ∧
      (b.settle m n d).2.undecided = (b.settle m n d').2.undecided := by
  cases hb with
  | constant | add | getVariable | setVariable | print | delay | fail => exact ⟨rfl, h⟩
  | branch id =>
    have hp := Node.plain_requireBool (n := Library.branch id) hlib.plain_inputValue "condition"
    have hundecide : (d.undecide id).undecided = (d'.undecide id).undecided := h
    obtain ⟨hresult, hdesk⟩ := hp.run_eq hundecide
    exact noting_alike id hresult hdesk

/-- Resolving a node leaves the decisions of the others, and a branch notes what it pulls. -/
theorem settle_turns (hn : m.graph.node? n.id = some n) (hid : m.behaviour? n.id = some b)
    (guards : List (String × String)) {d : Desk} (hok : (b.settle m n d).1 = .ok ()) :
    m.Turns ⟨n.id, guards⟩ d (b.settle m n d).2 := by
  cases hb with
  | constant | add | getVariable | setVariable | print | delay | fail =>
    refine ⟨fun _ _ => rfl, fun _ hbranch => ?_⟩
    cases hid.symm.trans hbranch
  | branch id =>
    have hp := Node.plain_requireBool (n := Library.branch id) hlib.plain_inputValue "condition"
    have hsame : d.undecided = (d.undecide id).undecided := rfl
    have hcondition : m.condition (Library.branch id) d =
        (((Library.branch id).requireBool m.inputValue "condition").run (d.undecide id)).1 :=
      (hp.run_eq hsame).1
    have hdecisions := hp.decisions_eq (d.undecide id)
    change (noting id (((Library.branch id).requireBool m.inputValue "condition").run
      (d.undecide id))).1 = .ok () at hok
    change m.Turns _ d (noting id (((Library.branch id).requireBool m.inputValue "condition").run
      (d.undecide id))).2
    generalize ((Library.branch id).requireBool m.inputValue "condition").run (d.undecide id) =
      pulled at hcondition hdecisions hok
    obtain ⟨f | choice, d'⟩ := pulled
    · cases hok
    · constructor
      case others =>
        intro other hne
        have hkept : d'.decision? other = (d.undecide id).decision? other :=
          congrArg (List.lookup other) hdecisions
        have hdecide : (d'.decide id choice).decision? other = d'.decision? other :=
          Desk.decision?_decide_ne hne choice
        exact hdecide.trans (hkept.trans (Desk.decision?_undecide_ne hne))
      case decided =>
        intro _ _ n hn'
        cases hn.symm.trans hn'
        exact ⟨choice, hcondition, Desk.decision?_decide choice⟩

end Behaviour

section Units

open Activity

variable {m : Model} {n : Node} {signal : Signal} {s t : Desk} {V : String → Prop}

theorem Activity.Twin.ofPull {α β : Type} {p : Pull α} (hp : p.Plain) (hboard : p.LeavesBoard)
    {f : Except Fault α → Activity Desk LogLine β} (same : s.undecided = t.undecided)
    (hf : ∀ x s t, s.undecided = t.undecided →
      Twin ⟨Desk.undecided, some⟩ (Desk.kept V) (f x) s (f x) t) :
    Twin ⟨Desk.undecided, some⟩ (Desk.kept V) (.ofPull p >>= f) s (.ofPull p >>= f) t := by
  obtain ⟨hresult, hdesk⟩ := hp.run_eq same
  have hkept : ∀ d, (p.run d).2.kept V = d.kept V :=
    fun d => Desk.kept_congr (hp.decisions_eq d) (hboard d)
  refine .get (.set hdesk ⟨hkept s, hkept t⟩ ?_)
  change Twin _ _ (f (p.run s).1) _ (f (p.run t).1) _
  rw [hresult]
  exact hf _ _ _ hdesk

theorem FlowUnit.discreet_guarded {label : String} {body : Signal → Activity Desk LogLine Outcome}
    (h : ∀ s t, s.undecided = t.undecided →
      Twin ⟨Desk.undecided, some⟩ (Desk.kept V) (body signal) s (body signal) t) :
    (FlowUnit.guarded label body).Discreet Desk.undecided (Desk.kept V) signal := by
  intro s t same
  refine .poll fun fired => ?_
  cases fired with
  | true => exact .done
  | false => exact h s t same

/-- The units of library nodes have nothing to do with decisions, and write
to no variable but that of their node. -/
theorem Behaviour.unit?_keeps (hlib : m.OfLibrary) {b : Behaviour} {u : FlowUnit Desk}
    (hu : b.unit? m n = some u) (hV : ∀ name, b = .setVariable name → ¬ V name) (signal : Signal) :
    u.Discreet Desk.undecided (Desk.kept V) signal := by
  have hboard := hlib.leavesBoard_inputValue
  cases b with
  | print =>
    cases hu
    refine FlowUnit.discreet_guarded fun s t same => ?_
    refine .ofPull (Node.plain_input hlib.plain_inputValue "value")
      (Pull.LeavesBoard.passes.input fun p _ => hboard p.id) same fun x s t same => ?_
    cases x with
    | error f => exact .done
    | ok v =>
      refine .emit rfl (.get (.set ?_ ⟨rfl, rfl⟩ .done))
      exact congrArg (·.print (Json.printed v)) same
  | setVariable name =>
    cases hu
    refine FlowUnit.discreet_guarded fun s t same => ?_
    refine .ofPull (Node.plain_requireInput hlib.plain_inputValue "value")
      (Pull.LeavesBoard.passes.requireInput fun p _ => hboard p.id) same fun x s t same => ?_
    cases x with
    | error f => exact .done
    | ok v =>
      refine .get (.set ?_ ⟨Desk.kept_set (hV name rfl) s v, Desk.kept_set (hV name rfl) t v⟩ .done)
      exact congrArg (fun d : Desk => { d with board := d.board.set name v }) same
  | delay ms =>
    cases hu
    exact FlowUnit.discreet_guarded fun _ _ _ => .wait fun _ _ _ _ => .done
  | fail message =>
    cases hu
    exact FlowUnit.discreet_guarded fun _ _ _ => .done
  | constant | add | getVariable | branch | bare | custom => cases hu

theorem Behaviour.unit?_discreet (hlib : m.OfLibrary) {b : Behaviour} {u : FlowUnit Desk}
    (hu : b.unit? m n = some u) (signal : Signal) :
    u.Discreet Desk.undecided Desk.decisions signal := by
  have hkeeps := unit?_keeps (V := fun _ => False) hlib hu (fun _ _ => id) signal
  exact fun s t same => (hkeeps s t same).mono Prod.fst

end Units

namespace NodeToken

/-- The token is for a node of the model, and its guards are ports of nodes. -/
structure Placed (m : Model) (t : NodeToken) : Prop where
  node : ∃ n, m.graph.node? t.node = some n
  guards : ∀ guard ∈ t.guards, m.Knows guard

variable {m : Model} {t : NodeToken}

/-- A token whose guards are open settles its node and puts in its unit; another one does nothing. -/
theorem run_opens {n : Node} {b : Behaviour} (hn : m.graph.node? t.node = some n)
    (hb : m.behaviour? t.node = some b) (hdeclares : Library.Declares b n)
    (hknows : ∀ guard ∈ t.guards, m.Knows guard) (acc : Accumulator Desk) (d : Desk)
    (signals : Signals) : (t.token m).resolve.run acc d signals =
      if m.opens d t.guards then
        ((b.settle m n d).1, (b.unit? m n).elim acc acc.push, (b.settle m n d).2, signals)
      else (.ok (), acc, d, signals) := by
  have hall := Model.allOpen_eq hknows d
  cases hopens : m.opens d t.guards with
  | true =>
    rw [hopens] at hall
    rw [run_resolve hn hb hall, Behaviour.run_settle hdeclares, if_pos rfl]
  | false =>
    rw [hopens] at hall
    rw [run_guarded, hall]
    rfl

variable (hlib : m.OfLibrary) (h : t.Placed m)
include hlib h

theorem Placed.declares : ∃ n b, m.graph.node? t.node = some n ∧ m.behaviour? t.node = some b ∧
    Library.Declares b n ∧ n.id = t.node := by
  obtain ⟨n, hn⟩ := h.node
  have hid : n.id = t.node := by simpa using List.find?_some hn
  obtain ⟨b, hb, hdeclares⟩ := hlib n (List.mem_of_find?_eq_some hn)
  exact ⟨n, b, hn, hid ▸ hb, hdeclares, hid⟩

/-- What a turn that ends well does to decisions and signals. -/
theorem Placed.turns {acc acc' : Accumulator Desk} {d d' : Desk} {signals signals' : Signals}
    (hrun : (t.token m).resolve.run acc d signals = (.ok (), acc', d', signals')) :
    m.Turns t d d' ∧ signals' = signals := by
  obtain ⟨n, b, hn, hb, hdeclares, hid⟩ := h.declares hlib
  rw [run_opens hn hb hdeclares h.guards] at hrun
  cases hopens : m.opens d t.guards with
  | true =>
    rw [hopens, if_pos rfl] at hrun
    obtain ⟨hok, hrest⟩ := Prod.mk.inj hrun
    obtain ⟨-, hrest⟩ := Prod.mk.inj hrest
    obtain ⟨rfl, rfl⟩ := Prod.mk.inj hrest
    refine ⟨?_, rfl⟩
    have hturns := Behaviour.settle_turns hlib hdeclares (hid ▸ hn) (hid ▸ hb) t.guards hok
    rwa [hid] at hturns
  | false =>
    rw [hopens, if_neg Bool.false_ne_true] at hrun
    cases hrun
    refine ⟨⟨fun _ _ => rfl, fun hopen => ?_⟩, rfl⟩
    rw [Model.allOpen_eq h.guards, hopens] at hopen
    cases hopen

/-- From desks that differ in decisions only a turn goes in the same way, if
these agree on the guards. -/
theorem Placed.run_alike {d d' : Desk} (same : d.undecided = d'.undecided)
    (hopens : m.opens d t.guards = m.opens d' t.guards) (acc : Accumulator Desk)
    (signals : Signals) : ∃ outcome acc' e e',
      (t.token m).resolve.run acc d signals = (outcome, acc', e, signals) ∧
      (t.token m).resolve.run acc d' signals = (outcome, acc', e', signals) ∧
      e.undecided = e'.undecided := by
  obtain ⟨n, b, hn, hb, hdeclares, -⟩ := h.declares hlib
  rw [run_opens hn hb hdeclares h.guards, run_opens hn hb hdeclares h.guards, ← hopens]
  cases m.opens d t.guards with
  | true =>
    obtain ⟨hresult, hdesk⟩ := Behaviour.settle_alike hlib hdeclares same
    exact ⟨_, _, _, _, rfl, by rw [hresult]; rfl, hdesk⟩
  | false => exact ⟨_, _, _, _, rfl, rfl, same⟩

/-- The units that a token puts in have nothing to do with decisions. -/
theorem Placed.discreet {label : String} {d d' : Desk} {signals signals' : Signals}
    {outcome : Outcome} {acc : Accumulator Desk}
    (hrun : (t.token m).resolve.run { current := label } d signals = (outcome, acc, d', signals'))
    (signal : Signal) :
    ∀ e ∈ acc.entries.toList, e.unit.Discreet Desk.undecided Desk.decisions signal := by
  obtain ⟨n, b, hn, hb, hdeclares, -⟩ := h.declares hlib
  rw [run_opens hn hb hdeclares h.guards] at hrun
  have hacc : acc = { current := label } ∨
      ∃ u, b.unit? m n = some u ∧ acc = ({ current := label } : Accumulator Desk).push u := by
    cases hopens : m.opens d t.guards with
    | false =>
      rw [hopens, if_neg Bool.false_ne_true] at hrun
      cases hrun
      exact .inl rfl
    | true =>
      rw [hopens, if_pos rfl] at hrun
      obtain ⟨-, hrest⟩ := Prod.mk.inj hrun
      obtain ⟨rfl, -⟩ := Prod.mk.inj hrest
      cases hu : b.unit? m n with
      | none => exact .inl rfl
      | some u => exact .inr ⟨u, rfl, rfl⟩
  intro e he
  rcases hacc with rfl | ⟨u, hu, rfl⟩
  · cases he
  · have hunit : e = ⟨label, u⟩ := by simpa [Accumulator.push] using he
    subst hunit
    exact Behaviour.unit?_discreet hlib hu signal

end NodeToken

end Flowchart
