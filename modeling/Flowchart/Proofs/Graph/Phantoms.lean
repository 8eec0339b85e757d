import Flowchart.Proofs.Graph.Alarm

/-! What a review raises its alarm for: a circle of data connections, and also values that are said
to come from a node that is not there. -/
namespace Flowchart.Graph
open Relation

/-- Values are said to come from an id that no node has, and none are said to go to it. -/
structure Phantom (g : Graph) (id : String) : Prop where
  undeclared : ∀ n ∈ g.nodes, n.id ≠ id
  sends : ∃ b, g.PassesValues id b
  unreached : ∀ a, ¬ g.PassesValues a id

variable {g : Graph}

theorem dataStep_of_mem {e : Connection} (he : e ∈ g.dataConnections) :
    g.PassesValues e.sourceNode e.targetNode := by
  have hstep : g.DataStep e.sourceNode e.targetNode := ⟨e, he, rfl, rfl⟩
  rwa [dataStep_eq_passesValues] at hstep

/-- A source that is not peeled off is a phantom. -/
theorem phantom_of_not_mem {e : Connection} (he : e ∈ g.dataConnections)
    (hout : e.sourceNode ∉ g.peelable) : g.Phantom e.sourceNode := by
  rw [mem_peelable, not_or] at hout
  obtain ⟨hnode, htarget⟩ := hout
  constructor
  case undeclared => exact fun n hn hid => hnode ⟨n, hn, hid⟩
  case sends => exact ⟨e.targetNode, dataStep_of_mem he⟩
  case unreached =>
    intro a ha
    rw [← dataStep_eq_passesValues] at ha
    obtain ⟨d, hd, _, htarget'⟩ := ha
    exact htarget ⟨d, hd, htarget'⟩

theorem Phantom.not_mem {id : String} (h : g.Phantom id) : id ∉ g.peelable := by
  rw [mem_peelable]
  rintro (⟨n, hn, hid⟩ | ⟨e, he, rfl⟩)
  · exact h.undeclared n hn hid
  · exact h.unreached _ (dataStep_of_mem he)

/-- The nodes cannot all be peeled off just when there is a circle or a phantom. -/
theorem hasDataCycle_iff : g.hasDataCycle = true ↔
    (∃ n, TransGen g.PassesValues n n) ∨ ∃ id, g.Phantom id := by
  constructor
  · intro halarm
    by_contra hno
    rw [not_or, not_exists, not_exists] at hno
    obtain ⟨hcircle, hphantom⟩ := hno
    have hquiet : g.hasDataCycle = false := by
      apply hasDataCycle_eq_false
      · intro e he
        by_contra hout
        exact hphantom _ (phantom_of_not_mem he hout)
      · rw [dataStep_eq_passesValues]
        exact hcircle
    rw [halarm] at hquiet
    cases hquiet
  · intro h
    by_contra hquiet
    have hquiet : g.hasDataCycle = false := Bool.eq_false_iff.mpr hquiet
    rcases h with ⟨n, hcircle⟩ | ⟨id, hphantom⟩
    · rw [← dataStep_eq_passesValues] at hcircle
      exact acyclic_of_hasDataCycle_eq_false hquiet n hcircle
    · -- An order of all nodes would have the phantom before the nodes it sends values to.
      obtain ⟨order, hknown, hforward⟩ := exists_ordered hquiet
      obtain ⟨b, hb⟩ := hphantom.sends
      rw [← dataStep_eq_passesValues] at hb
      have hlt : order.idxOf id < order.idxOf b := hforward _ _ hb
      have hle : order.idxOf b ≤ order.length := List.idxOf_le_length
      have hmem : id ∈ order := List.idxOf_lt_length_iff.mp (by omega)
      exact hphantom.not_mem (hknown hmem)

theorem dataCycle_mem_defects : .dataCycle ∈ g.defects ↔ g.hasDataCycle = true := by
  rw [← List.count_pos_iff, count_dataCycle_defects]
  cases g.hasDataCycle <;> simp

theorem Phantom.reported {id : String} (h : g.Phantom id) : .unknownNode id ∈ g.defects := by
  obtain ⟨_, c, hc, rfl, _⟩ := h.sends
  have hnode : g.node? c.sourceNode = none := by
    rw [node?, List.find?_eq_none]
    intro n hn
    simpa using h.undeclared n hn
  have hend : g.endpointDefect? c.sourceNode c.sourcePort = some (.unknownNode c.sourceNode) := by
    simp [endpointDefect?, endpoint, hnode, throw, throwThe, MonadExceptOf.throw]
  have hdangling : .unknownNode c.sourceNode ∈ g.danglingEnds := by
    rw [danglingEnds, List.mem_flatMap]
    exact ⟨c, hc, by simp [hend]⟩
  rw [defects]
  simp [hdangling]

/-- The alarm is raised just for circles and for phantoms, and a phantom is
reported for what it is too. -/
theorem alarm_raised_iff (g : Graph) :
    (.dataCycle ∈ g.defects ↔ (∃ n, TransGen g.PassesValues n n) ∨ ∃ id, g.Phantom id) ∧
      (∀ id, g.Phantom id → .unknownNode id ∈ g.defects) ∧
        (g.overfullPorts = [] → g.missingInputs = [] → (∀ n, ¬ TransGen g.PassesValues n n) →
          (g.defects = g.danglingEnds ↔ ∀ id, ¬ g.Phantom id)) := by
  refine ⟨dataCycle_mem_defects.trans hasDataCycle_iff, fun id h => h.reported, ?_⟩
  intro hfull hmissing hacyclic
  have halarm : g.hasDataCycle = true ↔ ∃ id, g.Phantom id := by
    rw [hasDataCycle_iff, or_iff_right]
    exact not_exists.mpr hacyclic
  rw [← not_exists, ← halarm, defects, hfull, hmissing]
  cases g.hasDataCycle <;> simp

section Single

variable {c : Connection} (hc : g.connections = [c])
include hc

theorem passesValues_of_single {a b : String} (h : g.PassesValues a b) :
    a = c.sourceNode ∧ b = c.targetNode := by
  obtain ⟨d, hd, rfl, rfl, _⟩ := h
  rw [hc, List.mem_singleton] at hd
  rw [hd]
  exact ⟨rfl, rfl⟩

theorem acyclic_of_single (hne : c.sourceNode ≠ c.targetNode) (n : String) :
    ¬ TransGen g.PassesValues n n := by
  intro hcircle
  obtain ⟨_, hfirst, _⟩ := TransGen.head'_iff.mp hcircle
  obtain ⟨_, _, hlast⟩ := TransGen.tail'_iff.mp hcircle
  have hsource : n = c.sourceNode := (passesValues_of_single hc hfirst).1
  have htarget : n = c.targetNode := (passesValues_of_single hc hlast).2
  exact hne (hsource.symm.trans htarget)

end Single

/-- Two nodes, and a number that is said to come from a third one. -/
def stray : Graph where
  id := "stray"
  name := "Stray"
  nodes := [⟨"five", "five", [.output "five.value" "value" .number]⟩,
    ⟨"sum", "sum", [.input "sum.term" "term" .number]⟩]
  connections := [⟨"nobody", "five.value", "sum", "sum.term"⟩]

/-- A review finds a circle where there is none and the only fault is an unknown node. -/
theorem stray_alarmed : (∀ n, ¬ TransGen stray.PassesValues n n) ∧
    ({ stray with connections := [] } : Graph).defects = [] ∧
      stray.defects = [.unknownNode "nobody", .dataCycle] := by
  refine ⟨acyclic_of_single rfl (by decide), ?_, ?_⟩ <;> decide +kernel

/-- The same nodes, and a number that is said to go to a third one. -/
def adrift : Graph := { stray with connections := [⟨"five", "five.value", "nobody", "sum.term"⟩] }

theorem phantom_stray : stray.Phantom "nobody" where
  undeclared := by decide
  sends := by
    use "sum", ⟨"nobody", "five.value", "sum", "sum.term"⟩, by decide, rfl, rfl
    exact ⟨_, rfl, by decide⟩
  unreached a ha := absurd (passesValues_of_single rfl ha).2 (by decide)

theorem not_phantom_adrift (id : String) : ¬ adrift.Phantom id := by
  intro h
  obtain ⟨b, hb⟩ := h.sends
  have hfive : id = "five" := (passesValues_of_single rfl hb).1
  exact h.undeclared ⟨"five", "five", [.output "five.value" "value" .number]⟩ (by decide) hfive.symm

theorem alarm_raised_stray : .dataCycle ∈ stray.defects ∧ .unknownNode "nobody" ∈ stray.defects ∧
    stray.defects ≠ stray.danglingEnds ∧ adrift.defects = adrift.danglingEnds := by
  obtain ⟨halarm, hreported, hstray⟩ := alarm_raised_iff stray
  obtain ⟨_, _, hadrift⟩ := alarm_raised_iff adrift
  have hstray := hstray (by decide +kernel) (by decide +kernel) (acyclic_of_single rfl (by decide))
  have hadrift := hadrift (by decide +kernel) (by decide +kernel) (acyclic_of_single rfl (by decide))
  refine ⟨halarm.mpr (.inr ⟨_, phantom_stray⟩), hreported _ phantom_stray, ?_, ?_⟩
  · intro heq
    exact hstray.mp heq _ phantom_stray
  · exact hadrift.mpr not_phantom_adrift

end Flowchart.Graph
