import Mathlib.Logic.Relation
import Flowchart.Proofs.Model.Pulling

/-! Pulls that lead to pulls, and how far one gets that may go only so deep. -/
namespace Flowchart

namespace Pull

variable {α β : Type}

def Exhausted (p : Pull α) (d : Desk) : Prop := (p.run d).1 = .error .endlessPull

/-- A pull does the same as another one, or it is given up. -/
def Short (p p' : Pull α) : Prop := ∀ d, p.Exhausted d ∨ p.run d = p'.run d

namespace Short

theorem refl (p : Pull α) : Short p p := fun _ => .inr rfl

theorem trans {p p' p'' : Pull α} (h : Short p p') (h' : Short p' p'') : Short p p'' := by
  intro d
  rcases h d with hp | hp
  · exact .inl hp
  · rcases h' d with hp' | hp'
    · exact .inl ((congrArg Prod.fst hp).trans hp')
    · exact .inr (hp.trans hp')

theorem bind {p p' : Pull α} {f f' : α → Pull β} (hp : Short p p') (hf : ∀ a, Short (f a) (f' a)) :
    Short (p >>= f) (p' >>= f') := by
  intro d
  rcases hp d with hp | hp
  · left
    unfold Exhausted at hp ⊢
    rw [run_bind]
    rcases hd : p.run d with ⟨e | a, d₁⟩
    · rw [hd] at hp
      cases hp
      rfl
    · rw [hd] at hp
      cases hp
  · unfold Exhausted
    rw [run_bind, run_bind, ← hp]
    rcases p.run d with ⟨e | a, d₁⟩
    · exact .inr rfl
    · exact hf a d₁

end Short

/-- A pull goes by the variables alone and writes to none. -/
structure ByBoard (p : Pull α) : Prop where
  leaves : p.LeavesBoard
  same : ∀ d d', d.board = d'.board → (p.run d).1 = (p.run d').1

theorem ByBoard.passes : Passes fun _ p => p.ByBoard where
  pure a := ⟨fun _ => rfl, fun _ _ _ => rfl⟩
  throw _ := ⟨fun _ => rfl, fun _ _ _ => rfl⟩
  bind {_ _ p f} hp hf := by
    refine ⟨LeavesBoard.passes.bind hp.leaves fun a => (hf a).leaves, fun d d' hboard => ?_⟩
    have hfirst := hp.same d d' hboard
    have hleaves : (p.run d).2.board = (p.run d').2.board :=
      (hp.leaves d).trans (hboard.trans (hp.leaves d').symm)
    rw [run_bind, run_bind]
    rcases hd : p.run d with ⟨e | a, d₁⟩
    · rw [hd] at hfirst
      rcases hd' : p.run d' with ⟨e' | a', d₁'⟩
      · rw [hd'] at hfirst
        cases hfirst
        rfl
      · rw [hd'] at hfirst
        cases hfirst
    · rw [hd] at hfirst hleaves
      rcases hd' : p.run d' with ⟨e' | a', d₁'⟩
      · rw [hd'] at hfirst
        cases hfirst
      · rw [hd'] at hfirst hleaves
        cases hfirst
        exact (hf a).same d₁ d₁' hleaves
  count _ := ⟨fun _ => rfl, fun _ _ _ => rfl⟩
  look name := by
    refine ⟨fun _ => rfl, fun d d' hboard => ?_⟩
    change Except.ok ((d.board.get? name).getD .null) = Except.ok ((d'.board.get? name).getD .null)
    rw [hboard]

theorem ByBoard.exhausted_iff {p : Pull α} (h : p.ByBoard) {d d' : Desk} (hboard : d.board = d'.board) :
    p.Exhausted d ↔ p.Exhausted d' := by
  unfold Exhausted
  rw [h.same d d' hboard]

/-- A bind is given up in its first part, or in the second one where the first one gets. -/
theorem exhausted_bind_iff {p : Pull α} {f : α → Pull β} {d : Desk} : (p >>= f).Exhausted d ↔
    p.Exhausted d ∨ ∃ a, (p.run d).1 = .ok a ∧ (f a).Exhausted (p.run d).2 := by
  unfold Exhausted
  rw [run_bind]
  rcases p.run d with ⟨e | a, d₁⟩
  · simp
  · simp

theorem not_exhausted_pure {a : α} {d : Desk} : ¬ (pure a : Pull α).Exhausted d := nofun

end Pull

open Pull (Exhausted Short ByBoard)

section Inputs

variable {n : Node} {read read' : Reading} {name : String} {d : Desk}

theorem Node.requireNumber_short (h : ∀ port, Short (read port) (read' port)) (n : Node)
    (name : String) : Short (n.requireNumber read name) (n.requireNumber read' name) := by
  refine .bind (.bind ?_ fun _ => .refl _) fun _ => .refl _
  unfold input
  split
  · exact h _
  · exact .refl _

theorem Behaviour.value_short (h : ∀ port, Short (read port) (read' port)) {b : Behaviour}
    (hb : b.isCustom = false) (n : Node) (port : String) :
    Short (b.value read n port) (b.value read' n port) := by
  cases b with
  | add =>
    refine .bind (.refl _) fun _ => .bind (n.requireNumber_short h "a") fun x => ?_
    exact .bind (n.requireNumber_short h "b") fun y => .refl _
  | custom => cases hb
  | constant | getVariable | setVariable | print | delay | fail | branch | bare => exact .refl _

/-- A number that has to arrive at an input is given up just when the reading of its port is. -/
theorem Node.requireNumber_exhausted_iff : (n.requireNumber read name).Exhausted d ↔
    ∃ p, n.portNamed? name = some p ∧ (read p.id).Exhausted d := by
  have hinput : (n.input read name).Exhausted d ↔
      ∃ p, n.portNamed? name = some p ∧ (read p.id).Exhausted d := by
    unfold input
    cases n.portNamed? name with
    | none =>
      simp only [reduceCtorEq, false_and, exists_false, iff_false]
      exact nofun
    | some p => simp
  rw [← hinput, requireNumber, Pull.exhausted_bind_iff, requireInput, Pull.exhausted_bind_iff]
  constructor
  · rintro ((h | ⟨v, _, h⟩) | ⟨v, _, h⟩)
    · exact h
    · cases v with
      | none => cases h
      | some v => cases h
    · cases hv : v.toFloat? with
      | none =>
        rw [hv] at h
        cases h
      | some x =>
        rw [hv] at h
        cases h
  · exact fun h => .inl (.inl h)

/-- A sum is given up when its first number is, or when that arrives and its second number is. -/
theorem Behaviour.sum_exhausted_iff (h : ∀ port, (read port).ByBoard) (port : String) :
    (Behaviour.add.value read n port).Exhausted d ↔ (n.requireNumber read "a").Exhausted d ∨
      (∃ x, ((n.requireNumber read "a").run d).1 = .ok x) ∧ (n.requireNumber read "b").Exhausted d := by
  have hnumber : ∀ name, (n.requireNumber read name).ByBoard := fun name =>
    ByBoard.passes.requireNumber fun p _ => h p.id
  have hcounted : (d.countSum n.id).board = d.board := rfl
  have hleft : ((n.requireNumber read "a").run (d.countSum n.id)).2.board = d.board :=
    (hnumber "a").leaves _
  have hvalue : Behaviour.add.value read n port = (modify (·.countSum n.id) : Pull Unit) >>= fun _ =>
      n.requireNumber read "a" >>= fun x => n.requireNumber read "b" >>= fun y =>
        pure (Json.ofFloat (x + y)) := rfl
  rw [hvalue, Pull.exhausted_bind_iff]
  constructor
  · rintro (hcount | ⟨_, -, hsum⟩)
    · cases hcount
    have hsum : (n.requireNumber read "a" >>= fun x => n.requireNumber read "b" >>= fun y =>
        pure (Json.ofFloat (x + y))).Exhausted (d.countSum n.id) := hsum
    rcases Pull.exhausted_bind_iff.mp hsum with ha | ⟨x, ha, hb⟩
    · exact .inl (((hnumber "a").exhausted_iff hcounted).mp ha)
    · rcases Pull.exhausted_bind_iff.mp hb with hb | ⟨_, -, hend⟩
      · refine .inr ⟨⟨x, ?_⟩, ((hnumber "b").exhausted_iff hleft).mp hb⟩
        rw [← ha]
        exact ((hnumber "a").same _ _ hcounted).symm
      · exact absurd hend Pull.not_exhausted_pure
  · intro hsum
    refine .inr ⟨(), rfl, ?_⟩
    change (n.requireNumber read "a" >>= fun x => n.requireNumber read "b" >>= fun y =>
        pure (Json.ofFloat (x + y))).Exhausted (d.countSum n.id)
    refine Pull.exhausted_bind_iff.mpr ?_
    rcases hsum with ha | ⟨⟨x, ha⟩, hb⟩
    · exact .inl (((hnumber "a").exhausted_iff hcounted).mpr ha)
    · refine .inr ⟨x, ((hnumber "a").same _ _ hcounted).trans ha, ?_⟩
      exact Pull.exhausted_bind_iff.mpr (.inl (((hnumber "b").exhausted_iff hleft).mpr hb))

theorem Behaviour.not_exhausted_value {b : Behaviour} (hb : b.isCustom = false) (hadd : b ≠ .add)
    (port : String) : ¬ (b.value read n port).Exhausted d := by
  cases b with
  | add => exact absurd rfl hadd
  | custom => cases hb
  | constant | getVariable | setVariable | print | delay | fail | branch | bare => exact nofun

end Inputs

namespace Model

variable {m : Model} {d : Desk}

/-- The node has a sum whose first input is the port, or its second one when
a number arrives at the first. -/
inductive Draws (m : Model) (d : Desk) (node : String) : String → Prop
  | first {n : Node} {p : Port} (known : m.graph.node? node = some n)
      (sum : m.behaviour? node = some .add) (named : n.portNamed? "a" = some p) : Draws m d node p.id
  | second {n : Node} {p : Port} {depth : Nat} {x : Float} (known : m.graph.node? node = some n)
      (sum : m.behaviour? node = some .add)
      (arrives : ((n.requireNumber (m.read depth) "a").run d).1 = .ok x)
      (named : n.portNamed? "b" = some p) : Draws m d node p.id

/-- Pulling the value that arrives at one port leads to pulling the value that arrives at another. -/
def Nests (m : Model) (d : Desk) (port next : String) : Prop :=
  ∃ c, m.graph.arriving? port = some c ∧ m.Draws d c.sourceNode next

/-- The pull of the value that arrives at a port comes to an end: all pulls that it leads to do. -/
def PullEnds (m : Model) (d : Desk) (port : String) : Prop :=
  Acc (fun next port => m.Nests d port next) port

/-- Computing a value of a node comes to an end: all pulls that it leads to do. -/
def ValueEnds (m : Model) (d : Desk) (node : String) : Prop :=
  ∀ port, m.Draws d node port → m.PullEnds d port

/-- Whoever pulls the value that arrives at a port comes to a pull that leads to itself. -/
def ComesRound (m : Model) (d : Desk) (port : String) : Prop :=
  ∃ q, Relation.ReflTransGen (m.Nests d) port q ∧ Relation.TransGen (m.Nests d) q q

section Depth

variable (huses : m.UsesLibrary)
include huses

theorem value_short {read read' : Reading} (h : ∀ port, Short (read port) (read' port))
    (node port : String) : Short (m.value read node port) (m.value read' node port) := by
  unfold value
  cases hn : m.graph.node? node with
  | none => exact .refl _
  | some n =>
    cases hb : m.behaviour? node with
    | none => exact .refl _
    | some b => exact b.value_short h (huses _ _ _ hn hb) n port

theorem read_short_succ (depth : Nat) (port : String) :
    Short (m.read depth port) (m.read (depth + 1) port) := by
  induction depth generalizing port with
  | zero => exact fun _ => .inl rfl
  | succ depth ih =>
    rw [read, read]
    cases m.graph.arriving? port with
    | none => exact .refl _
    | some c => exact .bind (value_short huses ih _ _) fun _ => .refl _

theorem read_short {depth depth' : Nat} (h : depth ≤ depth') (port : String) :
    Short (m.read depth port) (m.read depth' port) := by
  induction depth', h using Nat.le_induction with
  | base => exact .refl _
  | succ depth' _ ih => exact ih.trans (read_short_succ huses depth' port)

theorem read_byBoard (depth : Nat) (port : String) : (m.read depth port).ByBoard :=
  huses.passes_read ByBoard.passes depth port

/-- A number that arrives at some depth arrives at every depth at which its pull is not given up. -/
theorem number_arrives {n : Node} {name : String} {depth depth' : Nat} {x : Float}
    (h : ((n.requireNumber (m.read depth) name).run d).1 = .ok x) :
    (n.requireNumber (m.read depth') name).Exhausted d ∨
      ((n.requireNumber (m.read depth') name).run d).1 = .ok x := by
  rcases Nat.le_total depth depth' with hle | hle
  · rcases n.requireNumber_short (read_short huses hle) name d with hup | hsame
    · cases h.symm.trans hup
    · exact .inr (by rw [← hsame, h])
  · rcases n.requireNumber_short (read_short huses hle) name d with hup | hsame
    · exact .inl hup
    · exact .inr (by rw [hsame, h])

theorem value_exhausted_iff {depth : Nat} {node port : String} :
    (m.value (m.read depth) node port).Exhausted d ↔
      ∃ q, m.Draws d node q ∧ (m.read depth q).Exhausted d := by
  have hread := read_byBoard huses depth
  constructor
  · intro h
    unfold value at h
    cases hn : m.graph.node? node with
    | none =>
      rw [hn] at h
      cases h
    | some n =>
      cases hb : m.behaviour? node with
      | none =>
        rw [hn, hb] at h
        cases h
      | some b =>
        rw [hn, hb] at h
        by_cases hadd : b = .add
        · subst hadd
          rcases (Behaviour.sum_exhausted_iff hread port).mp h with ha | ⟨⟨x, ha⟩, hb'⟩
          · obtain ⟨p, named, hp⟩ := Node.requireNumber_exhausted_iff.mp ha
            exact ⟨p.id, .first hn hb named, hp⟩
          · obtain ⟨p, named, hp⟩ := Node.requireNumber_exhausted_iff.mp hb'
            exact ⟨p.id, .second hn hb ha named, hp⟩
        · exact absurd h (Behaviour.not_exhausted_value (huses _ _ _ hn hb) hadd port)
  · rintro ⟨q, hdraws, hq⟩
    have hvalue : ∀ {n}, m.graph.node? node = some n → m.behaviour? node = some .add →
        m.value (m.read depth) node port = Behaviour.add.value (m.read depth) n port := by
      intro n hn hb
      rw [value, hn, hb]
    cases hdraws with
    | first known sum named =>
      rw [hvalue known sum, Behaviour.sum_exhausted_iff hread]
      exact .inl (Node.requireNumber_exhausted_iff.mpr ⟨_, named, hq⟩)
    | second known sum arrives named =>
      rw [hvalue known sum, Behaviour.sum_exhausted_iff hread]
      rcases number_arrives huses arrives with ha | ha
      · exact .inl ha
      · exact .inr ⟨⟨_, ha⟩, Node.requireNumber_exhausted_iff.mpr ⟨_, named, hq⟩⟩

/-- A pull is given up when one that it leads to is given up, one level less deep. -/
theorem read_succ_exhausted_iff {depth : Nat} {port : String} :
    (m.read (depth + 1) port).Exhausted d ↔
      ∃ q, m.Nests d port q ∧ (m.read depth q).Exhausted d := by
  rw [read]
  cases hc : m.graph.arriving? port with
  | none =>
    simp only [Nests, hc, reduceCtorEq, false_and, exists_false, iff_false]
    exact Pull.not_exhausted_pure
  | some c =>
    have hvalue : (do return some (← m.value (m.read depth) c.sourceNode c.sourcePort) :
        Pull (Option Json)).Exhausted d ↔
          (m.value (m.read depth) c.sourceNode c.sourcePort).Exhausted d := by
      rw [Pull.exhausted_bind_iff]
      exact ⟨fun h => h.resolve_right fun ⟨_, _, hend⟩ => Pull.not_exhausted_pure hend, .inl⟩
    rw [hvalue, value_exhausted_iff huses]
    constructor
    · rintro ⟨q, hdraws, hq⟩
      exact ⟨q, ⟨c, hc, hdraws⟩, hq⟩
    · rintro ⟨q, ⟨c', hc', hdraws⟩, hq⟩
      cases hc.symm.trans hc'
      exact ⟨q, hdraws, hq⟩

/-- A pull that is not given up at some depth comes to an end. -/
theorem pullEnds_of_read {depth : Nat} {port : String} (h : ¬ (m.read depth port).Exhausted d) :
    m.PullEnds d port := by
  induction depth generalizing port with
  | zero => exact absurd rfl h
  | succ depth ih =>
    refine .intro _ fun q hq => ih fun hexhausted => h ?_
    exact (read_succ_exhausted_iff huses).mpr ⟨q, hq, hexhausted⟩

end Depth

theorem PullEnds.not_comesRound {port : String} (h : m.PullEnds d port) : ¬ m.ComesRound d port := by
  induction h with
  | intro port _ ih =>
    rintro ⟨q, hto, hround⟩
    rcases hto.cases_head with rfl | ⟨next, hnext, hto⟩
    · obtain ⟨next, hnext, hback⟩ := Relation.TransGen.head'_iff.mp hround
      exact ih next hnext ⟨port, hback, hround⟩
    · exact ih next hnext ⟨q, hto, hround⟩

/-- Ports that connections arrive at are as many as the connections at most. -/
theorem length_le_of_arriving {trail : List String} (hnodup : trail.Nodup)
    (h : ∀ q ∈ trail, (m.graph.arriving? q).isSome) : trail.length ≤ m.graph.connections.length := by
  have hsub : trail ⊆ m.graph.connections.map (·.targetPort) := by
    intro q hq
    obtain ⟨c, hc⟩ := Option.isSome_iff_exists.mp (h q hq)
    have hmem : c ∈ m.graph.connections := List.mem_of_mem_filter (List.mem_of_find?_eq_some hc)
    have htarget : c.targetPort = q := by simpa using List.find?_some hc
    exact htarget ▸ List.mem_map_of_mem hmem
  have := (List.subperm_of_subset hnodup hsub).length_le
  rwa [List.length_map] at this

/-- A pull that is given up comes round, or its trail and the depth left are
no more than the connections. -/
theorem comesRound_or_length_le (huses : m.UsesLibrary) {depth : Nat} {port : String}
    {trail : List String} (h : (m.read depth port).Exhausted d) (hnodup : trail.Nodup)
    (harriving : ∀ q ∈ trail, (m.graph.arriving? q).isSome)
    (hleads : ∀ q ∈ trail, Relation.TransGen (m.Nests d) q port) :
    m.ComesRound d port ∨ trail.length + depth ≤ m.graph.connections.length := by
  induction depth generalizing port trail with
  | zero => exact .inr (length_le_of_arriving hnodup harriving)
  | succ depth ih =>
    obtain ⟨next, hnext, hexhausted⟩ := (read_succ_exhausted_iff huses).mp h
    by_cases hport : port ∈ trail
    · exact .inl ⟨port, .refl, hleads port hport⟩
    have hsomewhere : (m.graph.arriving? port).isSome := by
      obtain ⟨c, hc, _⟩ := hnext
      rw [hc]
      rfl
    have hstep : ∀ q ∈ port :: trail, Relation.TransGen (m.Nests d) q next := by
      intro q hq
      rcases List.mem_cons.mp hq with rfl | hq
      · exact .single hnext
      · exact (hleads q hq).tail hnext
    have hsome : ∀ q ∈ port :: trail, (m.graph.arriving? q).isSome := by
      intro q hq
      rcases List.mem_cons.mp hq with rfl | hq
      · exact hsomewhere
      · exact harriving q hq
    rcases ih hexhausted (List.nodup_cons.mpr ⟨hport, hnodup⟩) hsome hstep with
      ⟨q, hto, hround⟩ | hle
    · exact .inl ⟨q, .head hnext hto, hround⟩
    · rw [List.length_cons] at hle
      exact .inr (by omega)

section Ends

variable (huses : m.UsesLibrary)
include huses

theorem comesRound_of_exhausted {port : String} (h : (m.inputValue port).Exhausted d) :
    m.ComesRound d port := by
  refine (comesRound_or_length_le huses h .nil nofun nofun).resolve_right ?_
  simp [depth]

/-- The depth of a model is enough for every pull that comes to an end. -/
theorem pullEnds_iff {port : String} : m.PullEnds d port ↔ ¬ (m.inputValue port).Exhausted d :=
  ⟨fun h hexhausted => h.not_comesRound (comesRound_of_exhausted huses hexhausted),
    pullEnds_of_read huses⟩

theorem pullEnds_iff_not_comesRound {port : String} : m.PullEnds d port ↔ ¬ m.ComesRound d port :=
  ⟨PullEnds.not_comesRound, fun h =>
    (pullEnds_iff huses).mpr fun hexhausted => h (comesRound_of_exhausted huses hexhausted)⟩

theorem valueEnds_iff {node : String} (port : String) :
    m.ValueEnds d node ↔ ¬ (m.portValue node port).Exhausted d := by
  rw [portValue, inputValue, value_exhausted_iff huses]
  constructor
  · rintro h ⟨q, hdraws, hexhausted⟩
    exact (pullEnds_iff huses).mp (h q hdraws) hexhausted
  · exact fun h q hdraws => (pullEnds_iff huses).mpr fun hexhausted => h ⟨q, hdraws, hexhausted⟩

end Ends

end Model

end Flowchart
