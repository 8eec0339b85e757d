import Flowchart.Proofs.Activity.Puts

/-! Activities that go on for a while and then make room for others. -/
namespace Flowchart.Activity

variable {σ ω α : Type}

def isAtState : Activity σ ω α → Bool
  | get _ | set .. => true
  | _ => false

/-- An activity goes on for a while and puts out some items; what it does to
the state is done at once. -/
inductive Stretch : Activity σ ω α → Stage σ ω → List ω → Activity σ ω α → Stage σ ω → Prop
  | stop {a : Activity σ ω α} {stage : Stage σ ω} (h : a.isAtState = false) :
      Stretch a stage [] a stage
  | get {next : σ → Activity σ ω α} {rest : Activity σ ω α} {stage stage' : Stage σ ω}
      {items : List ω} (h : Stretch (next stage.state) stage items rest stage') :
      Stretch (.get next) stage items rest stage'
  | set {s : σ} {next rest : Activity σ ω α} {stage stage' : Stage σ ω} {items : List ω}
      (h : Stretch next { stage with state := s } items rest stage') :
      Stretch (.set s next) stage items rest stage'
  | emit {o : ω} {next rest : Activity σ ω α} {stage stage' : Stage σ ω} {items : List ω}
      (h : Stretch next { stage with items := stage.items.push o } items rest stage') :
      Stretch (.emit o next) stage (o :: items) rest stage'
  | fire {signal : Signal} {next rest : Activity σ ω α} {stage stage' : Stage σ ω} {items : List ω}
      (h : Stretch next { stage with signals := stage.signals.fire signal } items rest stage') :
      Stretch (.fire signal next) stage items rest stage'
  | poll {signal : Signal} {next : Bool → Activity σ ω α} {rest : Activity σ ω α}
      {stage stage' : Stage σ ω} {items : List ω}
      (h : Stretch (next (stage.signals.has signal)) stage items rest stage') :
      Stretch (.poll signal next) stage items rest stage'
  | wait {ms : Nat} {signal : Option Signal} {next : Bool → Activity σ ω α} {rest : Activity σ ω α}
      {stage stage' : Stage σ ω} {items : List ω}
      (h : Stretch (next (signal.any stage.signals.has)) stage items rest stage') :
      Stretch (.wait ms signal next) stage items rest stage'

theorem stretch_burst (a : Activity σ ω α) (n : Nat) (stage : Stage σ ω) :
    ∃ items, Stretch a stage items (a.burst n stage).rest (a.burst n stage).stage := by
  induction a generalizing n stage with
  | done x => exact ⟨[], .stop rfl⟩
  | crash => exact ⟨[], .stop rfl⟩
  | get next ih =>
    obtain ⟨items, h⟩ := ih stage.state n stage
    exact ⟨items, .get h⟩
  | set s next ih =>
    obtain ⟨items, h⟩ := ih n { stage with state := s }
    exact ⟨items, .set h⟩
  | emit o next ih =>
    obtain ⟨items, h⟩ := ih n { stage with items := stage.items.push o }
    exact ⟨o :: items, .emit h⟩
  | fire signal next ih =>
    obtain ⟨items, h⟩ := ih n { stage with signals := stage.signals.fire signal }
    exact ⟨items, .fire h⟩
  | poll signal next ih =>
    obtain ⟨items, h⟩ := ih (stage.signals.has signal) n stage
    exact ⟨items, .poll h⟩
  | wait ms signal next ih =>
    rw [burst]
    split
    · exact ⟨[], .stop rfl⟩
    · split
      · next hfired =>
        obtain ⟨items, h⟩ := ih true n stage
        exact ⟨items, .wait (hfired ▸ h)⟩
      · next hquiet =>
        split
        · obtain ⟨items, h⟩ := ih false (n - 1) stage
          exact ⟨items, .wait (Bool.eq_false_iff.mpr hquiet ▸ h)⟩
        · exact ⟨[], .stop rfl⟩

theorem stretch_look? {a : Activity σ ω α} {timeIsUp : Bool} {stage : Stage σ ω} {p : Pause σ ω α}
    (h : a.look? timeIsUp stage = some p) : ∃ items, Stretch a stage items p.rest p.stage := by
  cases a with
  | done | crash => cases h
  | wait ms signal next =>
    rw [look?] at h
    split at h
    · next hfired =>
      cases h
      obtain ⟨items, h⟩ := stretch_burst (next true) patience stage
      exact ⟨items, .wait (hfired ▸ h)⟩
    · next hquiet =>
      split at h
      · cases h
        obtain ⟨items, h⟩ := stretch_burst (next false) (patience - 1) stage
        exact ⟨items, .wait (Bool.eq_false_iff.mpr hquiet ▸ h)⟩
      · cases h
  | get | set | emit | fire | poll =>
    cases h
    exact stretch_burst _ _ _

namespace Stretch

variable {a rest : Activity σ ω α} {stage stage' : Stage σ ω} {items : List ω}

theorem items_eq (h : Stretch a stage items rest stage') :
    stage'.items.toList = stage.items.toList ++ items := by
  induction h with
  | stop => simp
  | get _ ih | set _ ih | fire _ ih | poll _ ih | wait _ ih => exact ih
  | emit _ ih => simpa using ih

theorem of_get {next : σ → Activity σ ω α} (h : Stretch (.get next) stage items rest stage') :
    Stretch (next stage.state) stage items rest stage' := by
  cases h with
  | stop hstate => cases hstate
  | get h => exact h

theorem of_set {s : σ} {next : Activity σ ω α} (h : Stretch (.set s next) stage items rest stage') :
    Stretch next { stage with state := s } items rest stage' := by
  cases h with
  | stop hstate => cases hstate
  | set h => exact h

/-- What an activity puts out in a while comes before what it can still put out. -/
theorem puts (h : Stretch a stage items rest stage') {more : List ω} {x : α}
    (hrest : Puts rest more x) : Puts a (items ++ more) x := by
  induction h with
  | stop => exact hrest
  | get _ ih => exact .get _ (ih hrest)
  | set _ ih => exact .set (ih hrest)
  | emit _ ih => exact .emit (ih hrest)
  | fire _ ih => exact .fire (ih hrest)
  | poll _ ih => exact .poll _ (ih hrest)
  | wait _ ih => exact .wait _ (ih hrest)

end Stretch

end Flowchart.Activity
