import Mathlib.Logic.Relation
import Flowchart.Proofs.Activity.Puts
import Flowchart.Proofs.Activity.Scenes

/-! The course of an activity that is looked at from time to time. Whatever happens between the looks,
it is a play in some company. -/
namespace Flowchart

variable {σ ω α : Type}

/-- Whatever has fired among some signals has fired among others. -/
def Signals.Within (s t : Signals) : Prop := ∀ signal, s.has signal = true → t.has signal = true

namespace Signals.Within

theorem refl (s : Signals) : s.Within s := fun _ h => h

theorem trans {s t u : Signals} (h : s.Within t) (h' : t.Within u) : s.Within u :=
  fun signal hs => h' signal (h signal hs)

theorem fire (s : Signals) (signal : Signal) : s.Within (s.fire signal) := by
  intro other h
  rw [has_fire, h]
  rfl

end Signals.Within

namespace Activity

/-- An activity goes on from a scene to another, and others act only while it waits. -/
inductive Course : Activity σ ω α → Scene σ ω → Activity σ ω α → Scene σ ω → Prop
  | here (a : Activity σ ω α) (sc : Scene σ ω) : Course a sc a sc
  | get {next : σ → Activity σ ω α} {b : Activity σ ω α} {sc sc' : Scene σ ω}
      (h : Course (next sc.stage.state) sc b sc') : Course (.get next) sc b sc'
  | set {s : σ} {next b : Activity σ ω α} {sc sc' : Scene σ ω}
      (h : Course next { sc with stage := { sc.stage with state := s } } b sc') :
      Course (.set s next) sc b sc'
  | emit {o : ω} {next b : Activity σ ω α} {sc sc' : Scene σ ω}
      (h : Course next { stage := { sc.stage with items := sc.stage.items.push o }
                         deeds := sc.deeds ++ [.put o] } b sc') : Course (.emit o next) sc b sc'
  | fire {signal : Signal} {next b : Activity σ ω α} {sc sc' : Scene σ ω}
      (h : Course next
        { sc with stage := { sc.stage with signals := sc.stage.signals.fire signal } } b sc') :
      Course (.fire signal next) sc b sc'
  | poll {signal : Signal} {next : Bool → Activity σ ω α} {b : Activity σ ω α} {sc sc' : Scene σ ω}
      (h : Course (next (sc.stage.signals.has signal)) sc b sc') : Course (.poll signal next) sc b sc'
  | wait {ms : Nat} {signal : Option Signal} {next : Bool → Activity σ ω α} {b : Activity σ ω α}
      {sc sc' : Scene σ ω} {stage : Stage σ ω} (keeps : sc.stage.signals.Within stage.signals)
      (h : Course (next (signal.any stage.signals.has))
        { stage, deeds := sc.deeds ++ [.waited ms (signal.any stage.signals.has)] } b sc') :
      Course (.wait ms signal next) sc b sc'

def resume (stage : Stage σ ω) (deeds : List (Deed ω)) :
    Activity σ ω α → Activity σ ω α × Scene σ ω
  | wait ms signal next =>
    let cut := signal.any stage.signals.has
    (next cut, { stage, deeds := deeds ++ [.waited ms cut] })
  | a => (a, { stage, deeds })

/-- An activity on its stage is looked at, or something happens to the stage
that keeps what has fired. -/
inductive Looked : Activity σ ω α × Stage σ ω → Activity σ ω α × Stage σ ω → Prop
  | amid {a : Activity σ ω α} {stage stage' : Stage σ ω}
      (keeps : stage.signals.Within stage'.signals) : Looked (a, stage) (a, stage')
  | goesOn {a : Activity σ ω α} {timeIsUp : Bool} {stage : Stage σ ω} {p : Pause σ ω α}
      (goes : a.look? timeIsUp stage = some p) : Looked (a, stage) (p.rest, p.stage)

variable {a b c : Activity σ ω α} {sc sc₁ sc' : Scene σ ω} {stage : Stage σ ω}

theorem Course.trans (h : Course a sc b sc₁) (h' : Course b sc₁ c sc') : Course a sc c sc' := by
  induction h with
  | here => exact h'
  | get _ ih => exact .get (ih h')
  | set _ ih => exact .set (ih h')
  | emit _ ih => exact .emit (ih h')
  | fire _ ih => exact .fire (ih h')
  | poll _ ih => exact .poll (ih h')
  | wait keeps _ ih => exact .wait keeps (ih h')

section Looks

theorem course_burst (a : Activity σ ω α) (n : Nat) (stage : Stage σ ω) (deeds : List (Deed ω)) :
    ∃ deeds', Course a ⟨stage, deeds⟩ (a.burst n stage).rest ⟨(a.burst n stage).stage, deeds'⟩ := by
  induction a generalizing n stage deeds with
  | done | crash => exact ⟨deeds, .here _ _⟩
  | get next ih =>
    obtain ⟨deeds', h⟩ := ih stage.state n stage deeds
    exact ⟨deeds', .get h⟩
  | set s next ih =>
    obtain ⟨deeds', h⟩ := ih n { stage with state := s } deeds
    exact ⟨deeds', .set h⟩
  | emit o next ih =>
    obtain ⟨deeds', h⟩ := ih n { stage with items := stage.items.push o } (deeds ++ [.put o])
    exact ⟨deeds', .emit h⟩
  | fire signal next ih =>
    obtain ⟨deeds', h⟩ := ih n { stage with signals := stage.signals.fire signal } deeds
    exact ⟨deeds', .fire h⟩
  | poll signal next ih =>
    obtain ⟨deeds', h⟩ := ih (stage.signals.has signal) n stage deeds
    exact ⟨deeds', .poll h⟩
  | wait ms signal next ih =>
    have hpass : ∀ n, ∃ deeds', Course (.wait ms signal next) ⟨stage, deeds⟩
        ((next (signal.any stage.signals.has)).burst n stage).rest
        ⟨((next (signal.any stage.signals.has)).burst n stage).stage, deeds'⟩ := by
      intro n
      obtain ⟨deeds', h⟩ := ih (signal.any stage.signals.has) n stage _
      exact ⟨deeds', .wait (.refl _) h⟩
    rw [burst]
    split
    · exact ⟨deeds, .here _ _⟩
    · split
      · next hfired => exact hfired ▸ hpass n
      · next hquiet =>
        split
        · exact Bool.eq_false_iff.mpr hquiet ▸ hpass (n - 1)
        · exact ⟨deeds, .here _ _⟩

theorem burst_waiting_or_over (a : Activity σ ω α) (n : Nat) (stage : Stage σ ω) :
    (a.burst n stage).rest.isWaiting = true ∨ (a.burst n stage).rest.isOver = true := by
  induction a generalizing n stage with
  | done | crash => exact .inr rfl
  | get next ih => exact ih _ n stage
  | set s next ih => exact ih n _
  | emit o next ih => exact ih n _
  | fire signal next ih => exact ih n _
  | poll signal next ih => exact ih _ n stage
  | wait ms signal next ih =>
    rw [burst]
    split
    · exact .inl rfl
    · split
      · exact ih true n stage
      · split
        · exact ih false (n - 1) stage
        · exact .inl rfl

theorem within_burst (a : Activity σ ω α) (n : Nat) (stage : Stage σ ω) :
    stage.signals.Within (a.burst n stage).stage.signals := by
  induction a generalizing n stage with
  | done | crash => exact .refl _
  | get next ih => exact ih _ n stage
  | set s next ih => exact ih n { stage with state := s }
  | emit o next ih => exact ih n { stage with items := stage.items.push o }
  | fire signal next ih =>
    have := ih n { stage with signals := stage.signals.fire signal }
    exact (Signals.Within.fire stage.signals signal).trans this
  | poll signal next ih => exact ih _ n stage
  | wait ms signal next ih =>
    rw [burst]
    split
    · exact .refl _
    · split
      · exact ih true n stage
      · split
        · exact ih false (n - 1) stage
        · exact .refl _

variable {timeIsUp : Bool} {p : Pause σ ω α}

theorem look?_eq_some (h : a.look? timeIsUp stage = some p) (deeds : List (Deed ω)) :
    ∃ n, p = (a.resume stage deeds).1.burst n stage := by
  cases a with
  | done | crash => cases h
  | wait ms signal next =>
    rw [look?] at h
    split at h
    · next hfired =>
      cases h
      exact ⟨patience, by simp only [resume, hfired]⟩
    · next hquiet =>
      split at h
      · cases h
        exact ⟨patience - 1, by simp only [resume, Bool.eq_false_iff.mpr hquiet]⟩
      · cases h
  | get | set | emit | fire | poll =>
    cases h
    exact ⟨patience, rfl⟩

theorem within_look? (h : a.look? timeIsUp stage = some p) : stage.signals.Within p.stage.signals := by
  obtain ⟨n, rfl⟩ := look?_eq_some h []
  exact within_burst _ n stage

theorem course_look? (h : a.look? timeIsUp stage = some p) (deeds : List (Deed ω)) :
    ∃ deeds', Course (a.resume stage deeds).1 (a.resume stage deeds).2 p.rest ⟨p.stage, deeds'⟩ := by
  obtain ⟨n, rfl⟩ := look?_eq_some h deeds
  obtain ⟨deeds', hcourse⟩ := course_burst (a.resume stage deeds).1 n stage (a.resume stage deeds).2.deeds
  have hscene : (a.resume stage deeds).2 = ⟨stage, (a.resume stage deeds).2.deeds⟩ := by
    cases a <;> rfl
  exact ⟨deeds', hscene ▸ hcourse⟩

end Looks

/-- An activity that is looked at is still the same, or it has gone on and
waits again or is over. -/
theorem course_of_looked {x y : Activity σ ω α × Stage σ ω} (h : Relation.ReflTransGen Looked x y) :
    x.2.signals.Within y.2.signals ∧ (y.1 = x.1 ∨
      (y.1.isWaiting = true ∨ y.1.isOver = true) ∧
      ∃ first : Stage σ ω, x.2.signals.Within first.signals ∧ ∀ deeds, ∃ sc : Scene σ ω,
        Course (x.1.resume first deeds).1 (x.1.resume first deeds).2 y.1 sc ∧
        sc.stage.signals.Within y.2.signals) := by
  induction h with
  | refl => exact ⟨.refl _, .inl rfl⟩
  | tail _ hlook ih =>
    obtain ⟨hwithin, hbefore⟩ := ih
    cases hlook with
    | amid keeps =>
      refine ⟨hwithin.trans keeps, hbefore.imp_right fun ⟨hrest, first, hfirst, hcourse⟩ => ?_⟩
      refine ⟨hrest, first, hfirst, fun deeds => ?_⟩
      obtain ⟨sc, hsc, hsignals⟩ := hcourse deeds
      exact ⟨sc, hsc, hsignals.trans keeps⟩
    | @goesOn b timeIsUp stage p goes =>
      obtain ⟨n, hp⟩ := look?_eq_some goes []
      have hrest : p.rest.isWaiting = true ∨ p.rest.isOver = true := hp ▸ burst_waiting_or_over _ n stage
      refine ⟨hwithin.trans (within_look? goes), .inr ⟨hrest, ?_⟩⟩
      rcases hbefore with rfl | ⟨hwaits, first, hfirst, hcourse⟩
      · refine ⟨stage, hwithin, fun deeds => ?_⟩
        obtain ⟨deeds', hcourse⟩ := course_look? goes deeds
        exact ⟨_, hcourse, .refl _⟩
      · refine ⟨first, hfirst, fun deeds => ?_⟩
        obtain ⟨sc, hsc, hsignals⟩ := hcourse deeds
        obtain ⟨deeds', hnext⟩ := course_look? goes sc.deeds
        refine ⟨⟨p.stage, deeds'⟩, hsc.trans ?_, .refl _⟩
        cases b with
        | wait ms signal next => exact .wait hsignals hnext
        | done | crash => cases goes
        | get | set | emit | fire | poll => simp [isWaiting, isOver] at hwaits

section Company

theorem play_congr {others others' : Company σ ω} {k : Nat}
    (h : ∀ deeds stage, k ≤ deeds.length → others deeds stage = others' deeds stage)
    (a : Activity σ ω α) (sc : Scene σ ω) (hsc : k ≤ sc.deeds.length) :
    a.play others sc = a.play others' sc ∧ a.scenes others sc = a.scenes others' sc := by
  have hmore : ∀ (sc : Scene σ ω) d, k ≤ sc.deeds.length → k ≤ (sc.deeds ++ [d]).length := by
    intro sc d hsc
    rw [List.length_append]
    exact Nat.le_succ_of_le hsc
  induction a generalizing sc with
  | done | crash => exact ⟨rfl, rfl⟩
  | get next ih => exact ih _ sc hsc
  | poll signal next ih => exact ih _ sc hsc
  | set s next ih =>
    have := ih { sc with stage := { sc.stage with state := s } } hsc
    exact ⟨this.1, congrArg (sc :: ·) this.2⟩
  | emit o next ih =>
    have := ih { stage := { sc.stage with items := sc.stage.items.push o }
                 deeds := sc.deeds ++ [.put o] } (hmore sc _ hsc)
    exact ⟨this.1, congrArg (sc :: ·) this.2⟩
  | fire signal next ih =>
    have := ih { sc with stage := { sc.stage with signals := sc.stage.signals.fire signal } } hsc
    exact ⟨this.1, congrArg (sc :: ·) this.2⟩
  | wait ms signal next ih =>
    have := ih (signal.any (others sc.deeds sc.stage).signals.has)
      { stage := others sc.deeds sc.stage
        deeds := sc.deeds ++ [.waited ms (signal.any (others sc.deeds sc.stage).signals.has)] }
      (hmore sc _ hsc)
    simp only [play, scenes, ← h sc.deeds sc.stage hsc]
    exact ⟨this.1, congrArg (sc :: ·) this.2⟩

/-- A company can act at one moment as it is told, and later as another one. -/
theorem exists_company {others : Company σ ω} (hothers : others.KeepsFirings) (sc : Scene σ ω)
    {stage : Stage σ ω} (keeps : sc.stage.signals.Within stage.signals) :
    ∃ others' : Company σ ω, others'.KeepsFirings ∧ others' sc.deeds sc.stage = stage ∧
      ∀ deeds was, sc.deeds.length + 1 ≤ deeds.length → others' deeds was = others deeds was := by
  classical
  refine ⟨fun deeds was => if deeds = sc.deeds ∧ was = sc.stage then stage else others deeds was,
    ?_, if_pos ⟨rfl, rfl⟩, ?_⟩
  · intro deeds was signal hfired
    dsimp only
    split
    · next hnow => exact keeps signal (hnow.2 ▸ hfired)
    · exact hothers deeds was signal hfired
  · intro deeds was hlater
    refine if_neg fun hnow => ?_
    rw [hnow.1] at hlater
    omega

/-- A course is a play up to some scene, which others play to its end. -/
theorem Course.play_eq (h : Course a sc b sc') {later : Company σ ω} (hlater : later.KeepsFirings) :
    ∃ others : Company σ ω, others.KeepsFirings ∧ a.play others sc = b.play later sc' ∧
      ∀ s ∈ b.scenes later sc', s ∈ a.scenes others sc := by
  induction h with
  | here => exact ⟨later, hlater, rfl, fun _ hs => hs⟩
  | get _ ih | poll _ ih => exact ih
  | set _ ih | emit _ ih | fire _ ih =>
    obtain ⟨others, hkeeps, hplay, hscenes⟩ := ih
    exact ⟨others, hkeeps, hplay, fun s hs => List.mem_cons_of_mem _ (hscenes s hs)⟩
  | @wait ms signal next b sc sc' stage keeps _ ih =>
    obtain ⟨others, hkeeps, hplay, hscenes⟩ := ih
    obtain ⟨others', hkeeps', hnow, hafter⟩ := exists_company hkeeps sc keeps
    obtain ⟨hplay', hscenes'⟩ := play_congr hafter (next (signal.any stage.signals.has))
      { stage, deeds := sc.deeds ++ [.waited ms (signal.any stage.signals.has)] }
      (by simp)
    refine ⟨others', hkeeps', ?_, fun s hs => ?_⟩
    · simp only [play, hnow]
      exact hplay'.trans hplay
    · simp only [scenes, hnow]
      rw [hscenes']
      exact List.mem_cons_of_mem _ (hscenes s hs)

theorem play_of_over (h : a.isOver = true) (others : Company σ ω) (sc : Scene σ ω) :
    a.play others sc = (a.result?, sc) := by
  cases a with
  | done | crash => rfl
  | get | set | emit | fire | poll | wait => cases h

theorem resume_of_isWaiting (h : a.isWaiting = false) (stage : Stage σ ω) (deeds : List (Deed ω)) :
    a.resume stage deeds = (a, ⟨stage, deeds⟩) := by
  cases a with
  | wait => cases h
  | done | crash | get | set | emit | fire | poll => rfl

/-- In some company an activity is played to its end, and has come to `b` in a scene `mid`. -/
structure PlayedBy (others : Company σ ω) (a : Activity σ ω α) (sc : Scene σ ω) (b : Activity σ ω α)
    (mid : Scene σ ω) (stage : Stage σ ω) (result : Option α) (last : Scene σ ω) : Prop where
  keeps : others.KeepsFirings
  fresh : sc.deeds = []
  comes : Course a sc b mid
  plays : a.play others sc = (result, last)
  reaches : b.isOver = true ∧ mid = last ∨
    ∃ s ∈ a.scenes others sc, stage.signals.Within s.stage.signals ∧
      s.deeds.filterMap Deed.item? = mid.deeds.filterMap Deed.item?

/-- An activity that is looked at and over in the end was played from beginning to end. -/
theorem playedBy_of_looked {stage₁ stage₂ stage₃ : Stage σ ω} (fresh : a.isWaiting = false)
    (before : Relation.ReflTransGen Looked (a, stage₁) (b, stage₂))
    (after : Relation.ReflTransGen Looked (b, stage₂) (c, stage₃)) (hover : c.isOver = true) :
    ∃ (others : Company σ ω) (sc mid last : Scene σ ω),
      PlayedBy others a sc b mid stage₂ c.result? last := by
  have hnobody : (Company.nobody : Company σ ω).KeepsFirings := fun _ _ _ h => h
  obtain ⟨-, hbefore⟩ := course_of_looked before
  obtain ⟨-, hafter⟩ := course_of_looked after
  dsimp only at hbefore hafter
  rcases hbefore with rfl | ⟨hrest, first, -, hcourse⟩
  · rcases hafter with rfl | ⟨-, first, hfirst, hcourse⟩
    · exact ⟨Company.nobody, ⟨stage₁, []⟩, _, _, hnobody, rfl, .here _ _, play_of_over hover _ _,
        .inl ⟨hover, rfl⟩⟩
    · obtain ⟨last, hlast, -⟩ := hcourse []
      rw [resume_of_isWaiting fresh] at hlast
      obtain ⟨others, hkeeps, hplay, -⟩ := hlast.play_eq hnobody
      exact ⟨others, ⟨first, []⟩, _, last, hkeeps, rfl, .here _ _,
        hplay.trans (play_of_over hover _ _), .inr ⟨_, first_mem_scenes _ _, hfirst, rfl⟩⟩
  · obtain ⟨mid, hmid, hwithin⟩ := hcourse []
    rw [resume_of_isWaiting fresh] at hmid
    -- Nothing is left to happen to an activity that is over.
    have hended : b.isOver = true → b = c → ∃ (others : Company σ ω) (sc mid last : Scene σ ω),
        PlayedBy others a sc b mid stage₂ c.result? last := by
      rintro hb rfl
      obtain ⟨others, hkeeps, hplay, -⟩ := hmid.play_eq hnobody
      exact ⟨others, ⟨first, []⟩, mid, mid, hkeeps, rfl, hmid, hplay.trans (play_of_over hb _ _),
        .inl ⟨hb, rfl⟩⟩
    rcases hafter with rfl | ⟨-, later, hlater, hcourse⟩
    · exact hended hover rfl
    · obtain ⟨last, hlast, -⟩ := hcourse mid.deeds
      cases b with
      | done | crash =>
        refine hended rfl ?_
        cases hlast
        rfl
      | get | set | emit | fire | poll => simp [isWaiting, isOver] at hrest
      | wait ms signal next =>
        obtain ⟨others, hkeeps, hplay, -⟩ := hlast.play_eq hnobody
        have hpassed := hmid.trans (.wait (hwithin.trans hlater) (.here _ _))
        obtain ⟨others', hkeeps', hplay', hscenes⟩ := hpassed.play_eq hkeeps
        refine ⟨others', ⟨first, []⟩, mid, last, hkeeps', rfl, hmid,
          hplay'.trans (hplay.trans (play_of_over hover _ _)),
          .inr ⟨_, hscenes _ (first_mem_scenes _ _), hlater, ?_⟩⟩
        simp [Deed.item?]

end Company

end Activity

end Flowchart
