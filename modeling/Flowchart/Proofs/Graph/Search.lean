import Flowchart.Proofs.Graph.Alarm

/-! A search that remembers which ids it has seen. It ends on every graph, and its answer is whether
values can get from one node to another. -/
namespace Flowchart.Graph
open Relation

/-- A search in progress: the ids that wait, the next one in front, and
those whose connections were followed. -/
structure Search where
  waiting : List String
  seen : List String

namespace Search

def start (source : String) : Search := { waiting := [source], seen := [] }

/-- One turn, which answers or goes on. An id's connections are followed
when it is met for the first time. -/
def turn (g : Graph) (goal : String) (s : Search) : Bool ⊕ Search :=
  match s.waiting with
  | [] => .inl false
  | n :: rest =>
    if n = goal then .inl true
    else if n ∈ s.seen then .inr { s with waiting := rest }
    else .inr { waiting := (targetsFrom n g.dataConnections).reverse ++ rest, seen := n :: s.seen }

inductive Answers (g : Graph) (goal : String) : Search → Nat → Bool → Prop
  | last {s : Search} {answer : Bool} (turn : s.turn g goal = .inl answer) :
      Answers g goal s 1 answer
  | next {s s' : Search} {turns : Nat} {answer : Bool} (turn : s.turn g goal = .inr s')
      (rest : Answers g goal s' turns answer) : Answers g goal s (turns + 1) answer

def unused (g : Graph) (s : Search) : List Connection :=
  g.dataConnections.filter (·.sourceNode ∉ s.seen)

/-- How many ids wait or may still be put there. -/
def work (g : Graph) (s : Search) : Nat := s.waiting.length + (s.unused g).length

variable {g : Graph} {goal : String} {s s' : Search} {turns turns' : Nat} {answer answer' : Bool}

theorem Answers.unique (h : Answers g goal s turns answer) (h' : Answers g goal s turns' answer') :
    turns = turns' ∧ answer = answer' := by
  induction h generalizing turns' with
  | last hturn =>
    cases h' with
    | last hturn' =>
      cases hturn.symm.trans hturn'
      exact ⟨rfl, rfl⟩
    | next hturn' _ => cases hturn.symm.trans hturn'
  | next hturn _ ih =>
    cases h' with
    | last hturn' => cases hturn.symm.trans hturn'
    | next hturn' hrest =>
      cases hturn.symm.trans hturn'
      obtain ⟨hturns, hanswer⟩ := ih hrest
      exact ⟨congrArg (· + 1) hturns, hanswer⟩

theorem unused_start (source : String) : (start source).unused g = g.dataConnections := by
  simp [unused, start]

theorem mem_unused {e : Connection} :
    e ∈ s.unused g ↔ e ∈ g.dataConnections ∧ e.sourceNode ∉ s.seen := by
  simp [unused]

theorem targetsFrom_unused_of_mem {n : String} (hn : n ∈ s.seen) : targetsFrom n (s.unused g) = [] := by
  rw [List.eq_nil_iff_forall_not_mem]
  intro m hm
  obtain ⟨e, he, rfl, _⟩ := mem_targetsFrom.mp hm
  exact (mem_unused.mp he).2 hn

theorem edgesBeside_unused_of_mem {n : String} (hn : n ∈ s.seen) :
    edgesBeside n (s.unused g) = s.unused g := by
  apply List.filter_eq_self.mpr
  intro e he
  have hne : e.sourceNode ≠ n := fun heq => (mem_unused.mp he).2 (heq ▸ hn)
  simpa using hne

theorem targetsFrom_unused {n : String} (hn : n ∉ s.seen) :
    targetsFrom n (s.unused g) = targetsFrom n g.dataConnections := by
  unfold targetsFrom unused
  rw [List.filter_filter]
  congr 1
  apply List.filter_congr
  intro e _
  by_cases he : e.sourceNode = n <;> simp [he, hn]

theorem unused_cons {n : String} {waiting : List String} :
    unused g { waiting, seen := n :: s.seen } = edgesBeside n (s.unused g) := by
  unfold edgesBeside unused
  rw [List.filter_filter]
  apply List.filter_congr
  intro e _
  simp [not_or]

/-- A turn that goes on uses up the unused connections that leave its id, seen before or not. -/
theorem of_turn_eq_inr (h : s.turn g goal = .inr s') : ∃ n rest, s.waiting = n :: rest ∧ n ≠ goal ∧
    s'.waiting.Perm (targetsFrom n (s.unused g) ++ rest) ∧
      s'.unused g = edgesBeside n (s.unused g) := by
  unfold turn at h
  split at h
  · cases h
  · next n rest hwaiting =>
    split_ifs at h with hgoal hseen
    · cases h
      refine ⟨n, rest, hwaiting, hgoal, ?_, (edgesBeside_unused_of_mem hseen).symm⟩
      rw [targetsFrom_unused_of_mem hseen, List.nil_append]
    · cases h
      refine ⟨n, rest, hwaiting, hgoal, ?_, unused_cons⟩
      rw [targetsFrom_unused hseen]
      exact (List.reverse_perm _).append_right rest

/-- A turn takes one id away, and what it puts in its place comes from the unused connections. -/
theorem work_of_turn (h : s.turn g goal = .inr s') : s'.work g + 1 = s.work g := by
  obtain ⟨n, rest, hwaiting, _, hperm, hunused⟩ := of_turn_eq_inr h
  have hlength := hperm.length_eq
  have husedUp := length_targetsFrom_add n (s.unused g)
  rw [List.length_append] at hlength
  rw [work, work, hlength, hunused, hwaiting, List.length_cons]
  omega

/-- A turn that goes on keeps what can be met from the ids that wait along unused connections. -/
theorem meets_of_turn (h : s.turn g goal = .inr s') :
    meets goal s'.waiting (s'.unused g) = meets goal s.waiting (s.unused g) := by
  obtain ⟨n, rest, hwaiting, hgoal, hperm, hunused⟩ := of_turn_eq_inr h
  rw [meets_perm hperm, hunused, hwaiting]
  conv_rhs => rw [meets, if_neg hgoal]

theorem meets_of_answer (h : s.turn g goal = .inl answer) :
    meets goal s.waiting (s.unused g) = answer := by
  unfold turn at h
  split at h
  · next hwaiting =>
    cases h
    rw [hwaiting, meets]
  · next n rest hwaiting =>
    split_ifs at h with hgoal
    cases h
    rw [hwaiting, meets, if_pos hgoal]

/-- Every search ends, and its answer is whether the goal can be met from the ids that wait. -/
theorem answers (g : Graph) (goal : String) (s : Search) : ∃ turns ≤ s.work g + 1,
    Answers g goal s turns (meets goal s.waiting (s.unused g)) := by
  induction hwork : s.work g using Nat.strong_induction_on generalizing s with
  | _ work ih =>
    cases hturn : s.turn g goal with
    | inl answer => exact ⟨1, by omega, .last (meets_of_answer hturn ▸ hturn)⟩
    | inr s' =>
      have hless := work_of_turn hturn
      obtain ⟨turns, hturns, hrest⟩ := ih _ (by omega) s' rfl
      rw [meets_of_turn hturn] at hrest
      exact ⟨turns + 1, by omega, .next hturn hrest⟩

end Search

/-- On every graph a search ends, and its one answer is whether values can
get from one node to the other. -/
theorem search_exact (g : Graph) (source target : String) :
    (∃ turns ≤ g.dataConnections.length + 2, ∀ k answer,
      Search.Answers g target (.start source) k answer ↔
        k = turns ∧ answer = g.dataPath source target) ∧
      (g.dataPath source target = true ↔
        target = source ∨ TransGen g.PassesValues source target) := by
  constructor
  · obtain ⟨turns, hturns, hanswers⟩ := Search.answers g target (.start source)
    have hwork : (Search.start source).work g = 1 + g.dataConnections.length := by
      rw [Search.work, Search.unused_start]
      rfl
    rw [Search.unused_start] at hanswers
    refine ⟨turns, by omega, fun k answer => ⟨fun h => h.unique hanswers, ?_⟩⟩
    rintro ⟨rfl, rfl⟩
    exact hanswers
  · rw [dataPath_iff, dataStep_eq_passesValues, reflTransGen_iff_eq_or_transGen]

/-- Both connections from `x` to itself put it back among the ids that wait. -/
example : Search.Answers tangle "z" (.start "y") 5 false :=
  .next rfl (.next rfl (.next rfl (.next rfl (.last rfl))))

end Flowchart.Graph
