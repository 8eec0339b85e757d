import Flowchart.Model.Resolve
import Flowchart.Proofs.Run.Quiet

/-! Interpreting the flow of a model directly, node by node along the connections, without tokens. -/
namespace Flowchart

/-- What nodes did: their effects in order, how they ended, and the desk they left. -/
structure Performance (α : Type) where
  effects : List Effect
  outcome : Except Fault α
  desk : Desk

def Performance.after {α : Type} (p : Performance α) (effects : List Effect) : Performance α :=
  { p with effects := effects ++ p.effects }

/-- A node does what its behaviour says. A branch ends with what its condition is at that moment. -/
def Behaviour.perform (m : Model) (n : Node) (d : Desk) : Behaviour → Performance (Option Bool)
  | print =>
    match (n.input m.inputValue "value").run d with
    | (.error f, d) => ⟨[.began n.id], .error (.unitFailed n.id n.id f), d⟩
    | (.ok v, d) =>
      let line := Json.printed v
      ⟨[.began n.id, .logged ⟨.info, s!"[{n.id}] {line}"⟩], .ok none, d.print line⟩
  | setVariable name =>
    match (n.requireInput m.inputValue "value").run d with
    | (.error f, d) => ⟨[.began n.id], .error (.unitFailed n.id n.id f), d⟩
    | (.ok v, d) => ⟨[.began n.id], .ok none, { d with board := d.board.set name v }⟩
  | delay ms => ⟨[.began n.id, .waited ms], .ok none, d⟩
  | fail message => ⟨[.began n.id], .error (.unitFailed n.id n.id (.failed message)), d⟩
  | branch =>
    match (n.requireBool m.inputValue "condition").run d with
    | (.error f, d) => ⟨[], .error (.resolveFailed n.id f), d⟩
    | (.ok b, d) => ⟨[], .ok (some b), d⟩
  | _ => ⟨[], .ok none, d⟩

/-- Whether control takes a port: of two ports for the ways of a decision only the right one. -/
def Port.isTaken (choice : Option Bool) (p : Port) : Bool :=
  match choice with
  | none => true
  | some b => if p.name = "true" then b else if p.name = "false" then !b else true

namespace Model

variable {m : Model}

def beyond (m : Model) (n : Node) (p : Port) : List String :=
  (m.graph.connections.filter fun c => c.sourceNode = n.id ∧ c.sourcePort = p.id).map (·.targetNode)

/-- The nodes that control comes to: through the other ports that are taken,
and at last through `next`. -/
def followed (m : Model) (n : Node) (choice : Option Bool) : List String :=
  (n.flowOutputs.filter fun p => p.name ≠ Library.nextName ∧ p.isTaken choice).flatMap (m.beyond n) ++
    (n.flowOutputs.filter (·.name = Library.nextName)).flatMap (m.beyond n)

/-- Interpreting nodes one after the other, each with all that control comes to from it before the
next one, until one fails. -/
inductive Interprets (m : Model) : List String → Desk → Performance Unit → Prop
  | nil {d : Desk} : Interprets m [] d ⟨[], .ok (), d⟩
  | fails {id : String} {ids : List String} {d d' : Desk} {n : Node} {b : Behaviour}
      {effects : List Effect} {f : Fault}
      (node : m.graph.node? id = some n) (behaviour : m.behaviour? id = some b)
      (performs : b.perform m n d = ⟨effects, .error f, d'⟩) :
      Interprets m (id :: ids) d ⟨effects, .error f, d'⟩
  | stops {id : String} {ids : List String} {d d₁ d₂ : Desk} {n : Node} {b : Behaviour}
      {effects effects₁ : List Effect} {choice : Option Bool} {f : Fault}
      (node : m.graph.node? id = some n) (behaviour : m.behaviour? id = some b)
      (performs : b.perform m n d = ⟨effects, .ok choice, d₁⟩)
      (inner : Interprets m (m.followed n choice) d₁ ⟨effects₁, .error f, d₂⟩) :
      Interprets m (id :: ids) d ⟨effects ++ effects₁, .error f, d₂⟩
  | goes {id : String} {ids : List String} {d d₁ d₂ : Desk} {n : Node} {b : Behaviour}
      {effects effects₁ : List Effect} {choice : Option Bool} {p : Performance Unit}
      (node : m.graph.node? id = some n) (behaviour : m.behaviour? id = some b)
      (performs : b.perform m n d = ⟨effects, .ok choice, d₁⟩)
      (inner : Interprets m (m.followed n choice) d₁ ⟨effects₁, .ok (), d₂⟩)
      (outer : Interprets m ids d₂ p) :
      Interprets m (id :: ids) d (p.after (effects ++ effects₁))

namespace Interprets

variable {id : String} {ids : List String} {n : Node} {b : Behaviour} {d d₁ : Desk}
  {effects : List Effect} {p q : Performance Unit}

theorem eq_of_fails (node : m.graph.node? id = some n) (behaviour : m.behaviour? id = some b)
    {f : Fault} (performs : b.perform m n d = ⟨effects, .error f, d₁⟩)
    (h : m.Interprets (id :: ids) d p) : p = ⟨effects, .error f, d₁⟩ := by
  cases h <;> simp_all

theorem of_performs (node : m.graph.node? id = some n) (behaviour : m.behaviour? id = some b)
    {choice : Option Bool} (performs : b.perform m n d = ⟨effects, .ok choice, d₁⟩)
    (h : m.Interprets (id :: ids) d p) :
    (∃ effects₁ f d₂, m.Interprets (m.followed n choice) d₁ ⟨effects₁, .error f, d₂⟩ ∧
      p = ⟨effects ++ effects₁, .error f, d₂⟩) ∨
    ∃ effects₁ d₂ q, m.Interprets (m.followed n choice) d₁ ⟨effects₁, .ok (), d₂⟩ ∧
      m.Interprets ids d₂ q ∧ p = q.after (effects ++ effects₁) := by
  cases h with
  | fails node' behaviour' performs' => simp_all
  | stops node' behaviour' performs' inner =>
    cases node.symm.trans node'
    cases behaviour.symm.trans behaviour'
    cases performs.symm.trans performs'
    exact .inl ⟨_, _, _, inner, rfl⟩
  | goes node' behaviour' performs' inner outer =>
    cases node.symm.trans node'
    cases behaviour.symm.trans behaviour'
    cases performs.symm.trans performs'
    exact .inr ⟨_, _, _, inner, outer, rfl⟩

theorem unique (hp : m.Interprets ids d p) (hq : m.Interprets ids d q) : p = q := by
  induction hp generalizing q with
  | nil =>
    cases hq
    rfl
  | fails node behaviour performs => exact (eq_of_fails node behaviour performs hq).symm
  | stops node behaviour performs inner ih =>
    rcases of_performs node behaviour performs hq with
      ⟨_, _, _, inner', rfl⟩ | ⟨_, _, _, inner', _, rfl⟩
    · cases ih inner'
      rfl
    · cases ih inner'
  | goes node behaviour performs inner outer ih ih' =>
    rcases of_performs node behaviour performs hq with
      ⟨_, _, _, inner', rfl⟩ | ⟨_, _, _, inner', outer', rfl⟩
    · cases ih inner'
    · cases ih inner'
      cases ih' outer'
      rfl

/-- Nodes in a row are interpreted up to a failure among the first ones, or through all of these. -/
theorem of_append {ids' : List String} (h : m.Interprets (ids ++ ids') d p) :
    (∃ effects f d₁, m.Interprets ids d ⟨effects, .error f, d₁⟩ ∧ p = ⟨effects, .error f, d₁⟩) ∨
    ∃ effects d₁ q, m.Interprets ids d ⟨effects, .ok (), d₁⟩ ∧ m.Interprets ids' d₁ q ∧
      p = q.after effects := by
  induction ids generalizing d p with
  | nil => exact .inr ⟨[], d, p, .nil, h, rfl⟩
  | cons id ids ih =>
    cases h with
    | fails node behaviour performs => exact .inl ⟨_, _, _, .fails node behaviour performs, rfl⟩
    | stops node behaviour performs inner =>
      exact .inl ⟨_, _, _, .stops node behaviour performs inner, rfl⟩
    | goes node behaviour performs inner outer =>
      rcases ih outer with ⟨effects, f, d₁, hids, rfl⟩ | ⟨effects, d₁, q, hids, hids', rfl⟩
      · exact .inl ⟨_, _, _, .goes node behaviour performs inner hids, rfl⟩
      · refine .inr ⟨_, _, q, .goes node behaviour performs inner hids, hids', ?_⟩
        simp [Performance.after]

/-- What follows a node may as well be put before the nodes that come next. -/
theorem of_followed (node : m.graph.node? id = some n) (behaviour : m.behaviour? id = some b)
    {choice : Option Bool} (performs : b.perform m n d = ⟨effects, .ok choice, d₁⟩)
    (h : m.Interprets (m.followed n choice ++ ids) d₁ p) :
    m.Interprets (id :: ids) d (p.after effects) := by
  rcases of_append h with ⟨effects₁, f, d₂, inner, rfl⟩ | ⟨effects₁, d₂, q, inner, outer, rfl⟩
  · exact .stops node behaviour performs inner
  · have hgoes := Interprets.goes node behaviour performs inner outer
    have heq : (q.after effects₁).after effects = q.after (effects ++ effects₁) := by
      simp [Performance.after]
    exact heq ▸ hgoes

end Interprets

end Model

end Flowchart
