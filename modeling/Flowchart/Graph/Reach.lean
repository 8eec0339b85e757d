import Flowchart.Graph.Basic

/-! Which nodes values can reach. -/
namespace Flowchart.Graph

def targetsFrom (n : String) (edges : List Connection) : List String :=
  (edges.filter (·.sourceNode = n)).map (·.targetNode)

def edgesBeside (n : String) (edges : List Connection) : List Connection :=
  edges.filter (¬ ·.sourceNode = n)

theorem length_targetsFrom_add (n : String) (edges : List Connection) :
    (targetsFrom n edges).length + (edgesBeside n edges).length = edges.length := by
  induction edges with
  | nil => rfl
  | cons e edges ih =>
    by_cases h : e.sourceNode = n <;> simp [targetsFrom, edgesBeside, h] at ih ⊢ <;> omega

/-- Whether a search from the nodes of a stack meets `goal`. An edge is used
up when its source is left. -/
def meets (goal : String) (stack : List String) (edges : List Connection) : Bool :=
  match stack with
  | [] => false
  | n :: stack =>
    if n = goal then true else meets goal (targetsFrom n edges ++ stack) (edgesBeside n edges)
termination_by stack.length + edges.length
decreasing_by
  have := length_targetsFrom_add n edges
  simp only [List.length_append, List.length_cons]
  omega

/-- Whether values can get from one node to another, or the nodes are the same. -/
def dataPath (g : Graph) (source target : String) : Bool := meets target [source] g.dataConnections

end Flowchart.Graph
