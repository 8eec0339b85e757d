import Flowchart.Proofs.Model.Nesting
import Flowchart.Proofs.Model.Turn

/-! What pulls count: which sums they compute, and that they change nothing else. -/
namespace Flowchart

namespace Desk

variable {d : Desk} {node : String}

def countSums (d : Desk) (nodes : List String) : Desk := nodes.foldl countSum d

theorem sumCount_countSum (id : String) :
    (d.countSum node).sumCount id = d.sumCount id + if node = id then 1 else 0 := by
  unfold sumCount countSum
  rw [List.lookup_cons]
  by_cases h : node = id
  · subst h
    simp [sumCount]
  · have hid : (id == node) = false := beq_false_of_ne (Ne.symm h)
    rw [hid, lookup_filter_ne (Ne.symm h), if_neg h]
    rfl

theorem countSums_append (xs ys : List String) :
    d.countSums (xs ++ ys) = (d.countSums xs).countSums ys := List.foldl_append

@[simp] theorem board_countSums (nodes : List String) : (d.countSums nodes).board = d.board := by
  induction nodes generalizing d with
  | nil => rfl
  | cons node nodes ih => exact ih

theorem countSums_eq (nodes : List String) :
    d.countSums nodes = { d with sums := (d.countSums nodes).sums } := by
  induction nodes generalizing d with
  | nil => rfl
  | cons node nodes ih => exact ih

theorem sumCount_countSums (nodes : List String) (id : String) :
    (d.countSums nodes).sumCount id = d.sumCount id + nodes.count id := by
  induction nodes generalizing d with
  | nil => rfl
  | cons node nodes ih =>
    have hcons : d.countSums (node :: nodes) = (d.countSum node).countSums nodes := rfl
    rw [hcons, ih, sumCount_countSum, List.count_cons]
    by_cases h : node = id
    · simp [h]
      omega
    · simp [h]

end Desk

namespace Pull

variable {α β : Type} {P : String → Prop} {p : Pull α}

/-- What a pull comes to, and which sums it computes, depends on the
variables only; else it changes nothing. -/
def Tallies (P : String → Prop) (p : Pull α) : Prop :=
  ∃ (result : Blackboard → Except Fault α) (summed : Blackboard → List String),
    (∀ board, ∀ node ∈ summed board, P node) ∧
      ∀ d, p.run d = (result d.board, d.countSums (summed d.board))

theorem Tallies.closed (P : String → Prop) : Closed fun _ p => p.Tallies P where
  pure a := ⟨fun _ => .ok a, fun _ => [], by simp, fun _ => rfl⟩
  throw _ := ⟨fun _ => .error _, fun _ => [], by simp, fun _ => rfl⟩
  bind {α β p f} hp hf := by
    obtain ⟨result, summed, hsummed, hrun⟩ := hp
    choose onward more hmore hthen using hf
    refine ⟨fun board => (result board).bind (onward · board), fun board => summed board ++
      (match result board with
        | .ok a => more a board
        | .error _ => []), fun board node hnode => ?_, fun d => ?_⟩
    · rcases List.mem_append.mp hnode with hnode | hnode
      · exact hsummed board node hnode
      · cases hresult : result board with
        | ok a =>
          rw [hresult] at hnode
          exact hmore a board node hnode
        | error f =>
          rw [hresult] at hnode
          cases hnode
    · rw [run_bind, hrun]
      cases hresult : result d.board with
      | ok a =>
        dsimp only
        rw [hthen, Desk.board_countSums, ← Desk.countSums_append, hresult]
        rfl
      | error f =>
        simp only [hresult, List.append_nil]
        rfl

section Sums

variable {d : Desk} (h : p.Tallies P)
include h

theorem Tallies.desk_eq : (p.run d).2 = { d with sums := (p.run d).2.sums } := by
  obtain ⟨result, summed, -, hrun⟩ := h
  rw [hrun]
  exact Desk.countSums_eq _

theorem Tallies.sumCount_eq {node : String} (hnode : ¬ P node) :
    (p.run d).2.sumCount node = d.sumCount node := by
  obtain ⟨result, summed, hsummed, hrun⟩ := h
  have hnone : node ∉ summed d.board := fun hmem => hnode (hsummed _ _ hmem)
  rw [hrun, Desk.sumCount_countSums, List.count_eq_zero_of_not_mem hnone]
  rfl

/-- A pull does the same again where the variables are the same. -/
theorem Tallies.again {e : Desk} (hboard : e.board = d.board) : (p.run e).1 = (p.run d).1 ∧
    ∀ node, (p.run e).2.sumCount node + d.sumCount node =
      (p.run d).2.sumCount node + e.sumCount node := by
  obtain ⟨result, summed, -, hrun⟩ := h
  rw [hrun, hrun, hboard]
  refine ⟨rfl, fun node => ?_⟩
  rw [Desk.sumCount_countSums, Desk.sumCount_countSums]
  omega

end Sums

theorem run_bind_eq_ok {f : α → Pull β} {d d' : Desk} {b : β} :
    (p >>= f).run d = (.ok b, d') ↔ ∃ a d₁, p.run d = (.ok a, d₁) ∧ (f a).run d₁ = (.ok b, d') := by
  rw [run_bind]
  constructor
  · intro h
    rcases hd : p.run d with ⟨e | a, d₁⟩
    · rw [hd] at h
      cases h
    · rw [hd] at h
      exact ⟨a, d₁, rfl, h⟩
  · rintro ⟨a, d₁, hd, h⟩
    rw [hd]
    exact h

end Pull

section Inputs

variable {n : Node} {read : Reading} {d d' : Desk}

/-- A number that arrives at an input is the value of a port that was read. -/
theorem Node.exists_read {name : String} {x : Float}
    (h : (n.requireNumber read name).run d = (.ok x, d')) :
    ∃ p v, n.portNamed? name = some p ∧ (read p.id).run d = (.ok v, d') := by
  obtain ⟨v, d₁, hrequire, hnumber⟩ := Pull.run_bind_eq_ok.mp h
  obtain ⟨w, d₂, hinput, hvalue⟩ := Pull.run_bind_eq_ok.mp hrequire
  have hd₁ : d₁ = d' := by
    cases hv : v.toFloat? with
    | none =>
      rw [hv] at hnumber
      cases hnumber
    | some y =>
      rw [hv] at hnumber
      cases hnumber
      rfl
  have hd₂ : d₂ = d₁ := by
    cases w with
    | none => cases hvalue
    | some w =>
      cases hvalue
      rfl
  subst hd₁ hd₂
  unfold input at hinput
  cases hp : n.portNamed? name with
  | none =>
    rw [hp] at hinput
    cases hinput
  | some p =>
    rw [hp] at hinput
    exact ⟨p, w, rfl, hinput⟩

end Inputs

namespace Model

variable {m : Model}

def IsSum (m : Model) (node : String) : Prop := m.behaviour? node = some .add

theorem UsesLibrary.value_tallies (huses : m.UsesLibrary) {read : Reading}
    (h : ∀ port, (read port).Tallies m.IsSum) (node port : String) :
    (m.value read node port).Tallies m.IsSum := by
  have hclosed := Pull.Tallies.closed m.IsSum
  unfold value
  cases hn : m.graph.node? node with
  | none => exact hclosed.throw rfl
  | some n =>
    cases hb : m.behaviour? node with
    | none => exact hclosed.throw rfl
    | some b =>
      have hid : n.id = node := by simpa using List.find?_some hn
      cases b with
      | constant v => exact hclosed.pure v
      | add =>
        have hcount : (modify (·.countSum n.id) : Pull Unit).Tallies m.IsSum := by
          refine ⟨fun _ => .ok (), fun _ => [n.id], ?_, fun _ => rfl⟩
          simp [IsSum, hid, hb]
        apply hclosed.bind hcount
        intro _
        apply hclosed.bind (hclosed.requireNumber fun p _ => h p.id)
        intro x
        exact hclosed.bind (hclosed.requireNumber fun p _ => h p.id) fun y => hclosed.pure _
      | getVariable name =>
        exact ⟨fun board => .ok ((board.get? name).getD .null), fun _ => [], by simp, fun _ => rfl⟩
      | setVariable | print | delay | fail | branch | bare => exact hclosed.throw rfl
      | custom => cases huses _ _ _ hn hb

theorem UsesLibrary.read_tallies (huses : m.UsesLibrary) (depth : Nat) (port : String) :
    (m.read depth port).Tallies m.IsSum := by
  have hclosed := Pull.Tallies.closed m.IsSum
  induction depth generalizing port with
  | zero => exact hclosed.throw rfl
  | succ depth ih =>
    unfold read
    cases m.graph.arriving? port with
    | none => exact hclosed.pure none
    | some c => exact hclosed.bind (huses.value_tallies ih _ _) fun v => hclosed.pure (some v)

/-- A value that a node comes to is a sum of what its two inputs read, or nothing is counted. -/
theorem UsesLibrary.value_eq_ok (huses : m.UsesLibrary) {read : Reading} {node port : String}
    {d d' : Desk} {v : Json} (h : (m.value read node port).run d = (.ok v, d')) :
    (¬ m.IsSum node ∧ d' = d) ∨ ∃ n p q d₁ x y, m.graph.node? node = some n ∧ m.IsSum node ∧
      n.portNamed? "a" = some p ∧ n.portNamed? "b" = some q ∧
        (read p.id).run (d.countSum node) = (.ok x, d₁) ∧ (read q.id).run d₁ = (.ok y, d') := by
  unfold value at h
  cases hn : m.graph.node? node with
  | none =>
    rw [hn] at h
    cases h
  | some n =>
    cases hb : m.behaviour? node with
    | none =>
      rw [hn, hb] at h
      cases h
    | some b =>
      rw [hn, hb] at h
      have hid : n.id = node := by simpa using List.find?_some hn
      cases b with
      | add =>
        have hvalue : Behaviour.add.value read n port =
            (modify (·.countSum n.id) : Pull Unit) >>= fun _ => n.requireNumber read "a" >>= fun x =>
              n.requireNumber read "b" >>= fun y => pure (Json.ofFloat (x + y)) := rfl
        replace h : (Behaviour.add.value read n port).run d = (.ok v, d') := h
        rw [hvalue] at h
        obtain ⟨_, d₁, hcount, hnumbers⟩ := Pull.run_bind_eq_ok.mp h
        obtain ⟨x, d₂, hx, hsecond⟩ := Pull.run_bind_eq_ok.mp hnumbers
        obtain ⟨y, d₃, hy, hsum⟩ := Pull.run_bind_eq_ok.mp hsecond
        cases hcount
        cases hsum
        obtain ⟨p, x, hp, hx⟩ := Node.exists_read hx
        obtain ⟨q, y, hq, hy⟩ := Node.exists_read hy
        exact .inr ⟨n, p, q, d₂, x, y, rfl, hb, hp, hq, hid ▸ hx, hy⟩
      | constant | getVariable =>
        cases h
        exact .inl ⟨by simp [IsSum, hb], rfl⟩
      | setVariable | print | delay | fail | branch | bare => cases h
      | custom => cases huses _ _ _ hn hb

end Model

end Flowchart
