import Flowchart.Model.Resolve

/-! The token tree that control spans from a node of a graph. -/
namespace Flowchart

inductive Link
  | none
  | successorOf (id : TokenId)
  | childOf (id : TokenId)
deriving DecidableEq, Repr, Inhabited

def TokenTree.link {τ : Type} (t : TokenTree τ) (id : TokenId) : Link → TokenTree τ
  | .none => t
  | .successorOf p => t.linkSuccessor p id
  | .childOf p => t.linkChild p id

/-- A node that control comes to. -/
structure Arrival where
  node : String
  guards : List (String × String) := []
  link : Link := .none
deriving DecidableEq, Repr, Inhabited

namespace Graph

/-- Where control goes from a node: aside to the children of its token, in
port order, and on to its successor. -/
def departures (g : Graph) (n : Node) (guards : List (String × String)) (id : TokenId) :
    List Arrival :=
  let (onward, aside) := n.flowOutputs.partition (·.name = Library.nextName)
  let children := aside.filterMap fun p => (g.leaving? p.id).map fun c =>
    { node := c.targetNode, guards := guards ++ [(n.id, p.id)], link := .childOf id : Arrival }
  let successors := onward.filterMap fun p => (g.leaving? p.id).map fun c =>
    { node := c.targetNode, guards, link := .successorOf id : Arrival }
  children ++ successors.getLast?.toList

def nodesBut (id : String) (nodes : List Node) : List Node := nodes.filter (·.id ≠ id)

theorem length_nodesBut_lt {id : String} {nodes : List Node} {n : Node}
    (h : nodes.find? (·.id = id) = some n) : (nodesBut id nodes).length < nodes.length := by
  refine List.length_filter_lt_length_iff_exists.mpr ⟨n, List.mem_of_find?_eq_some h, ?_⟩
  have := List.find?_some h
  simpa using this

/-- Grow a tree by the nodes that control comes to. A node that is come to twice has no place. -/
def grow (g : Graph) (unseen : List Node) (ahead : List Arrival) (t : TokenTree NodeToken) :
    Except Fault (TokenTree NodeToken) :=
  match ahead with
  | [] => return t
  | a :: ahead =>
    match _h : unseen.find? (·.id = a.node) with
    | none =>
      if (g.node? a.node).isSome then throw (.duplicateFlowPath a.node)
      else throw (.nodeNotFound a.node)
    | some n =>
      let id := t.size
      let t := (t.push { node := a.node, guards := a.guards }).link id a.link
      g.grow (nodesBut a.node unseen) (g.departures n a.guards id ++ ahead) t
termination_by unseen.length
decreasing_by exact length_nodesBut_lt _h

def tokenTree (g : Graph) (start : String) : Except Fault (TokenTree NodeToken) :=
  g.grow g.nodes [{ node := start }] {}

end Graph

def Model.tokenTree (m : Model) (start : String) : Except Fault (TokenTree (Token Desk)) :=
  (m.graph.tokenTree start).map (·.map (·.token m))

end Flowchart
