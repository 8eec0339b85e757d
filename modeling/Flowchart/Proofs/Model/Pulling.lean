import Flowchart.Model.Pull
import Flowchart.Proofs.Model.Library

/-! Pulls of values in a model of library nodes. They neither read nor change what branches have
decided, and they are never cancelled. -/
namespace Flowchart

def Desk.withDecisions (d : Desk) (decisions : List (String × Bool)) : Desk := { d with decisions }

/-- A pull has nothing to do with the decisions of branches and with cancellations. -/
structure Pull.Plain {α : Type} (p : Pull α) : Prop where
  blind : ∀ (d : Desk) (decisions : List (String × Bool)),
    p.run (d.withDecisions decisions) = ((p.run d).1, (p.run d).2.withDecisions decisions)
  uncancelled : ∀ (d : Desk) (f : Fault), (p.run d).1 = .error f → f.isCancelled = false

/-- A property of pulls passes from values to what is made of them. -/
structure Pull.Closed (P : (α : Type) → Pull α → Prop) : Prop where
  pure : ∀ {α : Type} (a : α), P α (pure a)
  throw : ∀ {α : Type} {f : Fault}, f.isCancelled = false → P α (throw f)
  bind : ∀ {α β : Type} {p : Pull α} {f : α → Pull β}, P α p → (∀ a, P β (f a)) → P β (p >>= f)

/-- It also passes from what library nodes do to whatever is pulled from them. -/
structure Pull.Passes (P : (α : Type) → Pull α → Prop) : Prop extends Pull.Closed P where
  count : ∀ node, P Unit (modify (·.countSum node))
  look : ∀ name, P Json (do return ((← get).board.get? name).getD .null)

def Pull.LeavesBoard {α : Type} (p : Pull α) : Prop := ∀ d, (p.run d).2.board = d.board

theorem Pull.run_bind {α β : Type} (p : Pull α) (f : α → Pull β) (d : Desk) :
    (p >>= f).run d = match p.run d with
      | (.ok a, d) => (f a).run d
      | (.error e, d) => (.error e, d) := by
  change (ExceptT.bindCont f (p.run d).1).run (p.run d).2 = _
  rcases p.run d with ⟨_ | _, _⟩ <;> rfl

namespace Pull.Plain

variable {α β : Type}

theorem decisions_eq {p : Pull α} (h : Plain p) (d : Desk) : (p.run d).2.decisions = d.decisions := by
  have := congrArg (fun x => x.2.decisions) (h.blind d d.decisions)
  exact this

theorem uncancelled_of_run {p : Pull α} (h : Plain p) {d d' : Desk} {f : Fault}
    (hd : p.run d = (.error f, d')) : f.isCancelled = false := by
  apply h.uncancelled d
  rw [hd]

theorem pure (a : α) : Plain (pure a) where
  blind _ _ := rfl
  uncancelled _ _ h := by cases h

theorem throw {f : Fault} (h : f.isCancelled = false) : Plain (throw f : Pull α) where
  blind _ _ := rfl
  uncancelled _ _ hf := by
    cases hf
    exact h

theorem bind {p : Pull α} {f : α → Pull β} (hp : Plain p) (hf : ∀ a, Plain (f a)) :
    Plain (p >>= f) := by
  constructor
  case blind =>
    intro d decisions
    rw [run_bind, run_bind, hp.blind]
    rcases p.run d with ⟨e | a, d₁⟩
    · rfl
    · exact (hf a).blind d₁ decisions
  case uncancelled =>
    intro d e he
    rw [run_bind] at he
    rcases hd : p.run d with ⟨e' | a, d₁⟩
    · rw [hd] at he
      cases he
      exact hp.uncancelled_of_run hd
    · rw [hd] at he
      exact (hf a).uncancelled d₁ e he

theorem passes : Passes fun _ p => p.Plain where
  pure := .pure
  throw := .throw
  bind := .bind
  count _ := ⟨fun _ _ => rfl, fun _ _ hf => by cases hf⟩
  look _ := ⟨fun _ _ => rfl, fun _ _ hf => by cases hf⟩

end Pull.Plain

theorem Pull.LeavesBoard.passes : Passes fun _ p => p.LeavesBoard where
  pure _ _ := rfl
  throw _ _ := rfl
  bind {_ _ p f} hp hf d := by
    have hfirst : (p.run d).2.board = d.board := hp d
    rw [run_bind]
    rcases hd : p.run d with ⟨e | a, d₁⟩
    · rw [hd] at hfirst
      exact hfirst
    · rw [hd] at hfirst
      exact (hf a d₁).trans hfirst
  count _ _ := rfl
  look _ _ := rfl

section Inputs

variable {P : (α : Type) → Pull α → Prop} {n : Node} {read : Reading} {name : String}

namespace Pull.Closed

variable (hP : Closed P) (h : ∀ p, n.portNamed? name = some p → P _ (read p.id))
include hP h

theorem input : P _ (n.input read name) := by
  unfold Node.input
  split
  · next p hp => exact h p hp
  · exact hP.throw rfl

theorem requireInput : P _ (n.requireInput read name) := by
  apply hP.bind (hP.input h)
  intro v
  cases v with
  | none => exact hP.throw rfl
  | some v => exact hP.pure v

theorem requireNumber : P _ (n.requireNumber read name) := by
  apply hP.bind (hP.requireInput h)
  intro v
  cases v.toFloat? with
  | none => exact hP.throw rfl
  | some x => exact hP.pure x

theorem requireBool : P _ (n.requireBool read name) := by
  apply hP.bind (hP.requireInput h)
  intro v
  cases v.toBool? with
  | none => exact hP.throw rfl
  | some x => exact hP.pure x

end Pull.Closed

theorem Pull.Passes.value (hP : Passes P) (h : ∀ port, P _ (read port)) {b : Behaviour}
    (hb : b.isCustom = false) (port : String) : P _ (b.value read n port) := by
  cases b with
  | constant value => exact hP.pure value
  | add =>
    apply hP.bind (hP.count n.id)
    intro _
    apply hP.bind (hP.requireNumber fun p _ => h p.id)
    intro x
    exact hP.bind (hP.requireNumber fun p _ => h p.id) fun y => hP.pure _
  | getVariable name => exact hP.look name
  | setVariable | print | delay | fail | branch | bare => exact hP.throw rfl
  | custom => cases hb

end Inputs

namespace Model.UsesLibrary

variable {m : Model} (huses : m.UsesLibrary)
include huses

theorem passes_value {P : (α : Type) → Pull α → Prop} (hP : Pull.Passes P) {read : Reading}
    (h : ∀ port, P _ (read port)) (node port : String) : P _ (m.value read node port) := by
  unfold Model.value
  cases hn : m.graph.node? node with
  | none => exact hP.throw rfl
  | some n =>
    cases hb : m.behaviour? node with
    | none => exact hP.throw rfl
    | some b => exact hP.value h (huses _ _ _ hn hb) port

theorem passes_read {P : (α : Type) → Pull α → Prop} (hP : Pull.Passes P) (depth : Nat)
    (port : String) : P _ (m.read depth port) := by
  induction depth generalizing port with
  | zero => exact hP.throw rfl
  | succ depth ih =>
    -- One level less deep, every reading that a node makes has the property.
    unfold Model.read
    cases m.graph.arriving? port with
    | none => exact hP.pure none
    | some c => exact hP.bind (huses.passes_value hP ih _ _) fun v => hP.pure (some v)

end Model.UsesLibrary

namespace Model.OfLibrary

variable {m : Model} (hlib : m.OfLibrary)
include hlib

theorem plain_inputValue (port : String) : (m.inputValue port).Plain :=
  hlib.usesLibrary.passes_read Pull.Plain.passes _ port

theorem leavesBoard_inputValue (port : String) : (m.inputValue port).LeavesBoard :=
  hlib.usesLibrary.passes_read Pull.LeavesBoard.passes _ port

end Model.OfLibrary

namespace Node

variable {n : Node} {read : Reading} (h : ∀ port, (read port).Plain)
include h

theorem plain_input (name : String) : (n.input read name).Plain := Pull.Plain.passes.input fun p _ => h p.id

theorem plain_requireInput (name : String) : (n.requireInput read name).Plain :=
  Pull.Plain.passes.requireInput fun p _ => h p.id

theorem plain_requireBool (name : String) : (n.requireBool read name).Plain :=
  Pull.Plain.passes.requireBool fun p _ => h p.id

end Node

end Flowchart
