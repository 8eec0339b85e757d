import Flowchart.Graph.Reach

/-! Cycles among the data connections, found by peeling off nodes that nothing arrives at. -/
namespace Flowchart.Graph

/-- How many data connections that are not yet peeled off arrive at each node. -/
abbrev Counters := List (String × Nat)

/-- Every node that is declared or that a data connection arrives at, once. -/
def peelable (g : Graph) : List String :=
  (g.nodes.map (·.id) ++ g.dataConnections.map (·.targetNode)).eraseDups

def counters (g : Graph) : Counters :=
  g.peelable.map fun n => (n, (g.dataConnections.filter (·.targetNode = n)).length)

/-- Lower the first counter of a node by one; `none` if it is at zero or there is none. -/
def Counters.lower? (n : String) : Counters → Option (Counters × Nat)
  | [] => none
  | (k, c) :: rest =>
    if k = n then if c = 0 then none else some ((k, c - 1) :: rest, c - 1)
    else (lower? n rest).map fun (rest, v) => ((k, c) :: rest, v)

def Counters.total : Counters → Nat
  | [] => 0
  | (_, c) :: rest => c + total rest

/-- A peeling in progress: the counters, the nodes at zero that wait for their turn, and those whose
turn is over. -/
structure Peeling where
  counts : Counters
  ready : List String
  taken : List String

namespace Peeling

def weight (p : Peeling) : Nat := p.counts.total + p.ready.length

def release? (p : Peeling) (n : String) : Option Peeling :=
  (p.counts.lower? n).map fun (counts, v) =>
    { p with counts, ready := if v = 0 then p.ready ++ [n] else p.ready }

def releaseAll? (p : Peeling) : List String → Option Peeling
  | [] => some p
  | n :: rest => do (← p.release? n).releaseAll? rest

theorem lower?_total {n : String} {counts after : Counters} {v : Nat}
    (h : Counters.lower? n counts = some (after, v)) :
    after.total + 1 = counts.total := by
  induction counts generalizing after with
  | nil => simp [Counters.lower?] at h
  | cons kc rest ih =>
    obtain ⟨k, c⟩ := kc
    rw [Counters.lower?] at h
    split at h
    · split at h
      · simp at h
      · simp only [Option.some.injEq, Prod.mk.injEq] at h
        obtain ⟨rfl, _⟩ := h
        simp only [Counters.total]
        omega
    · simp only [Option.map_eq_some_iff, Prod.mk.injEq] at h
      obtain ⟨⟨rest', _⟩, hr, rfl, rfl⟩ := h
      have := ih hr
      simp only [Counters.total]
      omega

theorem release?_weight {p q : Peeling} {n : String} (h : p.release? n = some q) :
    q.weight ≤ p.weight := by
  simp only [release?, Option.map_eq_some_iff] at h
  obtain ⟨⟨counts, v⟩, hl, rfl⟩ := h
  have := lower?_total hl
  simp only [weight]
  split
  · simp only [List.length_append, List.length_cons, List.length_nil]
    omega
  · omega

theorem releaseAll?_weight {p q : Peeling} {ns : List String} (h : p.releaseAll? ns = some q) :
    q.weight ≤ p.weight := by
  induction ns generalizing p with
  | nil => simp_all [releaseAll?]
  | cons n rest ih =>
    simp only [releaseAll?, Option.bind_eq_bind, Option.bind_eq_some_iff] at h
    obtain ⟨r, hr, h⟩ := h
    exact Nat.le_trans (ih h) (release?_weight hr)

/-- Peel off nodes until none is ready; `none` if a counter would go below zero. -/
def run? (edges : List Connection) (p : Peeling) : Option Peeling :=
  match _hr : p.ready with
  | [] => some p
  | n :: rest =>
    match _hp : { p with ready := rest, taken := p.taken ++ [n] }.releaseAll? (targetsFrom n edges) with
    | none => none
    | some q => run? edges q
termination_by p.weight
decreasing_by
  have := releaseAll?_weight _hp
  simp only [weight, _hr, List.length_cons] at this ⊢
  omega

end Peeling

def peel? (g : Graph) : Option Peeling :=
  let counts := g.counters
  let ready := (counts.filter (·.2 = 0)).map (·.1)
  Peeling.run? g.dataConnections { counts, ready, taken := [] }

def hasDataCycle (g : Graph) : Bool :=
  match g.peel? with
  | some p => p.taken.length < g.peelable.length
  | none => true

end Flowchart.Graph
