import Flowchart.Proofs.Model.Conditions
import Flowchart.Proofs.Run.Tame
import Flowchart.Proofs.Walk.Agreement

/-! Tokens of library nodes that put in the same units whatever the units have done, as long as these
leave alone the variables that branches read. -/
namespace Flowchart

namespace Filling.Emits

variable {label : String} {shown : List (String × String)} {s s' : Setting Desk}
  {units : List (FlowUnit Desk)}

theorem change {f : Desk → Desk} {k : Unit → Filling Desk Outcome}
    (h : (k ()).Emits label shown { s with host := f s.host } units s') :
    (Filling.change f >>= k).Emits label shown s units s' := .get (.set h)

theorem ofPull {α : Type} {p : Pull α} {k : Except Fault α → Filling Desk Outcome}
    (h : (k (p.run s.host).1).Emits label shown { s with host := (p.run s.host).2 } units s') :
    (Filling.ofPull p >>= k).Emits label shown s units s' := .get (.set h)

end Filling.Emits

section Turn

variable {m : Model} {n : Node} {b : Behaviour} {V : String → Prop}

namespace Behaviour

theorem settle_branch (id : String) (d : Desk) : branch.settle m (Library.branch id) d =
    noting id (((Library.branch id).requireBool m.inputValue "condition").run (d.undecide id)) := rfl

theorem emits_resolve (hb : Library.Declares b n) (label : String) (shown : List (String × String))
    {s : Setting Desk} (hok : (b.settle m n s.host).1 = .ok ()) :
    (b.resolve m n).Emits label shown s (b.unit? m n).toList
      ⟨(b.settle m n s.host).2, s.signals⟩ := by
  cases hb with
  | constant | add | getVariable => exact .done
  | setVariable | print | delay | fail => exact .push .done
  | branch id =>
    refine .change (.ofPull ?_)
    rw [settle_branch] at hok ⊢
    rw [show (Library.branch id).id = id from rfl]
    dsimp only
    generalize ((Library.branch id).requireBool m.inputValue "condition").run _ = pulled at hok ⊢
    obtain ⟨f | choice, d⟩ := pulled
    · cases hok
    · dsimp only
      refine .change ?_
      exact .done

theorem noting_kept (node : String) {result : Except Fault Bool} {d d' : Desk}
    (same : d.kept V = d'.kept V) :
    (noting node (result, d)).2.kept V = (noting node (result, d')).2.kept V := by
  cases result with
  | error f => exact same
  | ok choice =>
    obtain ⟨hdecisions, hboard⟩ := Prod.mk.inj same
    refine Prod.ext ?_ hboard
    change (node, choice) :: d.decisions.filter _ = (node, choice) :: d'.decisions.filter _
    rw [hdecisions]

theorem unit?_tame {u : FlowUnit Desk} (hu : b.unit? m n = some u) (signal : Signal) :
    (u.execute signal).Tame := by
  have hguarded : ∀ (label : String) (body : Signal → Activity Desk LogLine Outcome),
      (body signal).Tame → ((FlowUnit.guarded label body).execute signal).Tame := by
    intro label body h fired
    cases fired with
    | true => exact True.intro
    | false => exact h
  cases b with
  | print =>
    cases hu
    refine hguarded _ _ (Activity.Tame.bind (fun _ => True.intro) fun x => ?_)
    cases x with
    | error f => exact True.intro
    | ok v => exact fun _ => True.intro
  | setVariable name =>
    cases hu
    refine hguarded _ _ (Activity.Tame.bind (fun _ => True.intro) fun x => ?_)
    cases x with
    | error f => exact True.intro
    | ok v => exact fun _ => True.intro
  | delay ms =>
    cases hu
    exact hguarded _ _ fun _ => True.intro
  | fail message =>
    cases hu
    exact hguarded _ _ True.intro
  | constant | add | getVariable | branch | bare | custom => cases hu

variable (hwf : m.graph.WellFormed) (hlib : m.OfLibrary)
include hwf hlib

/-- A turn depends on the decisions so far and on what its branch reads, and
changes only the decisions. -/
theorem settle_kept (hn : m.graph.node? n.id = some n) (hb : m.behaviour? n.id = some b)
    (hdeclares : Library.Declares b n) (hV : ∀ name, m.Asks n.id name → V name) {d d' : Desk}
    (same : d.kept V = d'.kept V) : (b.settle m n d).1 = (b.settle m n d').1 ∧
      (b.settle m n d).2.kept V = (b.settle m n d').2.kept V ∧
      (b.settle m n d).2.undecided = d.undecided := by
  cases hdeclares with
  | constant | add | getVariable | setVariable | print | delay | fail => exact ⟨rfl, same, rfl⟩
  | branch id =>
    have hmem := ((Graph.node?_eq_some_iff hwf.nodes_nodup).mp hn).1
    have hagree : ∀ name, m.Asks id name →
        (d.undecide id).board.get? name = (d'.undecide id).board.get? name :=
      fun name hasks => congrFun (Prod.mk.inj same).2 ⟨name, hV name hasks⟩
    have hundecide : (d.undecide id).kept V = (d'.undecide id).kept V := by
      obtain ⟨hdecisions, hboard⟩ := Prod.mk.inj same
      refine Prod.ext ?_ hboard
      change d.decisions.filter _ = d'.decisions.filter _
      rw [hdecisions]
    obtain ⟨result, hd, hd'⟩ := Model.sameAt_condition hwf hlib hmem hb hagree
    rw [settle_branch, settle_branch, hd, hd']
    refine ⟨?_, noting_kept id hundecide, ?_⟩
    · cases result <;> rfl
    · cases result <;> rfl

end Behaviour

namespace NodeToken

variable {t : NodeToken}

/-- How the turn of a token ends at a desk, the unit it puts in, and the desk it leaves. -/
def turn (m : Model) (n : Node) (b : Behaviour) (guards : List (String × String)) (d : Desk) :
    Outcome × Option (FlowUnit Desk) × Desk :=
  if m.opens d guards then ((b.settle m n d).1, b.unit? m n, (b.settle m n d).2)
  else (.ok (), none, d)

theorem unit_of_turn {d : Desk} {u : FlowUnit Desk} (hu : u ∈ (turn m n b t.guards d).2.1) :
    b.unit? m n = some u := by
  unfold turn at hu
  cases hopens : m.opens d t.guards with
  | false =>
    rw [hopens] at hu
    cases hu
  | true =>
    rw [hopens] at hu
    exact hu

/-- A token takes its turn as its node and its guards have it. -/
structure TakesTurn (m : Model) (t : NodeToken) (n : Node) (b : Behaviour) : Prop where
  node : m.graph.node? t.node = some n
  id : n.id = t.node
  behaviour : m.behaviour? t.node = some b
  declares : Library.Declares b n
  knows : ∀ guard ∈ t.guards, m.Knows guard

theorem Placed.takesTurn (hlib : m.OfLibrary) (h : t.Placed m) : ∃ n b, t.TakesTurn m n b := by
  obtain ⟨n, b, hn, hb, hdeclares, hid⟩ := h.declares hlib
  exact ⟨n, b, hn, hid, hb, hdeclares, h.guards⟩

namespace TakesTurn

variable (h : t.TakesTurn m n b)
include h

theorem run_eq (acc : Accumulator Desk) (d : Desk) (signals : Signals) :
    (t.token m).resolve.run acc d signals = ((turn m n b t.guards d).1,
      (turn m n b t.guards d).2.1.elim acc acc.push, (turn m n b t.guards d).2.2, signals) := by
  rw [run_opens h.node h.behaviour h.declares h.knows, turn]
  cases m.opens d t.guards <;> rfl

theorem emits (label : String) (shown : List (String × String)) {s : Setting Desk}
    (hok : (turn m n b t.guards s.host).1 = .ok ()) :
    (t.token m).resolve.Emits label shown s (turn m n b t.guards s.host).2.1.toList
      ⟨(turn m n b t.guards s.host).2.2, s.signals⟩ := by
  refine .get ?_
  rw [Filling.bind, Model.allOpen_eq h.knows s.host]
  unfold turn at hok ⊢
  cases hopens : m.opens s.host t.guards with
  | false => exact .done
  | true =>
    rw [hopens] at hok
    dsimp only
    rw [Model.resolve, h.node, h.behaviour]
    exact Behaviour.emits_resolve h.declares label shown hok

theorem turn_kept (hwf : m.graph.WellFormed) (hlib : m.OfLibrary)
    (hV : ∀ name, m.Asks t.node name → V name) {d d' : Desk} (same : d.kept V = d'.kept V) :
    (turn m n b t.guards d).1 = (turn m n b t.guards d').1 ∧
      (turn m n b t.guards d).2.1 = (turn m n b t.guards d').2.1 ∧
      (turn m n b t.guards d).2.2.kept V = (turn m n b t.guards d').2.2.kept V ∧
      (turn m n b t.guards d).2.2.undecided = d.undecided := by
  have hdecisions : d.decisions = d'.decisions := (Prod.mk.inj same).1
  have hopens : m.opens d t.guards = m.opens d' t.guards :=
    Model.opens_congr fun guard _ => by rw [Desk.decision?, Desk.decision?, hdecisions]
  unfold turn
  rw [hopens]
  cases m.opens d' t.guards with
  | false => exact ⟨rfl, rfl, same, rfl⟩
  | true =>
    obtain ⟨houtcome, hkept, hundecided⟩ := Behaviour.settle_kept hwf hlib (h.id ▸ h.node)
      (h.id ▸ h.behaviour) h.declares (h.id ▸ hV) same
    exact ⟨houtcome, rfl, hkept, hundecided⟩

end TakesTurn

end NodeToken

end Turn

namespace Model

variable {m : Model} {V : String → Prop}

/-- Tokens put in the same units, whatever the units have done, as long as
these leave alone what is kept. -/
theorem emitAlike (hwf : m.graph.WellFormed) (hlib : m.OfLibrary) {tokens : List NodeToken}
    (hplaced : ∀ t ∈ tokens, t.Placed m) (hasks : ∀ t ∈ tokens, ∀ name, m.Asks t.node name → V name)
    (hsets : ∀ t ∈ tokens, ∀ name, m.behaviour? t.node = some (.setVariable name) → ¬ V name)
    (signal : Signal) {acc acc' : Accumulator Desk} {s s' : Setting Desk}
    (h : Token.resolveAll (tokens.map (·.token m)) acc s = (.ok acc', s')) :
    ∃ emitted, emitted.map (·.1) = tokens.map (·.token m) ∧
      Token.EmitAlike Desk.undecided (Desk.kept V) (s.host.kept V) emitted ∧
      ∀ e ∈ Entry.ofTokens emitted, e.unit.Discreet Desk.undecided (Desk.kept V) signal ∧
        (e.unit.execute signal).Tame := by
  induction tokens generalizing acc s with
  | nil => exact ⟨[], rfl, .nil, nofun⟩
  | cons t rest ih =>
    obtain ⟨n, b, hturn⟩ := (hplaced t List.mem_cons_self).takesTurn hlib
    have hasks' := hasks t List.mem_cons_self
    rw [List.map_cons, Token.resolveAll, Token.resolveInto, hturn.run_eq] at h
    dsimp only at h
    cases houtcome : (NodeToken.turn m n b t.guards s.host).1 with
    | error f =>
      rw [houtcome] at h
      cases h
    | ok =>
      rw [houtcome] at h
      obtain ⟨emitted, htokens, halike, hunits⟩ := ih
        (fun t ht => hplaced t (List.mem_cons_of_mem _ ht))
        (fun t ht => hasks t (List.mem_cons_of_mem _ ht))
        (fun t ht => hsets t (List.mem_cons_of_mem _ ht)) h
      refine ⟨(t.token m, (NodeToken.turn m n b t.guards s.host).2.1.toList) :: emitted, ?_, ?_, ?_⟩
      · rw [List.map_cons, List.map_cons, htokens]
      · refine .cons (fun shown s₁ same => ?_) halike
        obtain ⟨hsame, hunit, hkept, hundecided⟩ := hturn.turn_kept hwf hlib hasks' same
        have hemits := hturn.emits (t.token m).label shown (hsame.trans houtcome)
        rw [hunit] at hemits
        exact ⟨_, hemits, rfl, hkept, hundecided⟩
      · intro e he
        rcases List.mem_append.mp he with he | he
        · obtain ⟨u, hu, rfl⟩ := List.mem_map.mp he
          have hu := NodeToken.unit_of_turn (Option.mem_toList.mp hu)
          refine ⟨Behaviour.unit?_keeps hlib hu (fun name hb => ?_) signal,
            Behaviour.unit?_tame hu signal⟩
          exact hsets t List.mem_cons_self name (hb ▸ hturn.behaviour)
        · exact hunits e he

end Model

end Flowchart
