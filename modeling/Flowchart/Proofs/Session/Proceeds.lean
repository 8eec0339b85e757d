import Flowchart.Proofs.Activity.Course
import Flowchart.Proofs.Session.Runs

/-! How the jobs of a session get on, whatever its host does: each is looked at from time to time, and
no firing is taken back. -/
namespace Flowchart

variable {σ : Type}

section Firings

theorem Filling.within_run {α : Type} (f : Filling σ α) (acc : Accumulator σ) (host : σ)
    (signals : Signals) : signals.Within (f.run acc host signals).2.2.2 := by
  induction f generalizing acc host signals with
  | done x => exact .refl signals
  | push u next ih => exact ih _ host signals
  | clear next ih => exact ih _ host signals
  | drain next ih => exact ih _ _ host signals
  | look next ih => exact ih _ acc host signals
  | get next ih => exact ih _ acc host signals
  | set s next ih => exact ih acc s signals
  | fire signal next ih => exact (Signals.Within.fire signals signal).trans (ih acc host _)
  | poll signal next ih => exact ih _ acc host signals

theorem Token.within_resolveInto (token : Token σ) (acc : Accumulator σ) (s : Setting σ) :
    s.signals.Within (token.resolveInto acc s).2.2.signals :=
  token.resolve.within_run (acc.forToken token.label) s.host s.signals

theorem TokenTree.within_gather (t : TokenTree (Token σ)) (strategy : Strategy) (limit left : Nat)
    (ahead seen : List TokenId) (acc : Accumulator σ) (s : Setting σ) :
    s.signals.Within (t.gather strategy limit left ahead seen acc s).2.signals := by
  fun_induction gather t strategy limit left ahead seen acc s with
  | case1 | case2 | case3 => exact .refl _
  | case4 _ acc s _ _ slot _ _ f acc' s' hresolve =>
    have hwithin := slot.token.within_resolveInto acc s
    rw [hresolve] at hwithin
    exact hwithin
  | case5 _ acc s _ _ slot _ _ acc' s' hresolve ih =>
    have hwithin := slot.token.within_resolveInto acc s
    rw [hresolve] at hwithin
    exact hwithin.trans ih

namespace Engine

variable (e : Engine) (t : TokenTree (Token σ)) (stage : RunStage σ)

theorem within_plan (strategy : Strategy) :
    stage.signals.Within (e.plan strategy t stage).2.signals := by
  unfold plan
  split
  · exact .refl _
  · next root _ =>
    have hwithin := t.within_gather strategy e.config.maxTokens e.config.maxTokens [root] [] {}
      ⟨stage.state.host, stage.signals⟩
    dsimp only
    split
    · next h =>
      rw [h] at hwithin
      exact hwithin
    · next h =>
      rw [h] at hwithin
      exact hwithin

theorem within_compile : stage.signals.Within (e.compile t stage).2.signals := by
  unfold compile
  split
  · exact .refl _
  · exact e.within_plan t stage _

end Engine

end Firings

namespace Session

/-- The host changes its runs or its state, reports, or takes away what was reported. -/
inductive Does (s : Session σ) : Session σ → Prop
  | acts {t : Session σ} (h : s.Acts t) : Does s t
  | send (sink : Sink) (e : Event) : Does s (s.send sink e).2
  | takeItems : Does s s.takeItems.2

/-- A session comes about from another: signals stay fired, and jobs keep
theirs and are looked at. -/
structure Proceeds (s t : Session σ) : Prop where
  firings : s.stage.signals.Within t.stage.signals
  jobs : ∀ (i : Nat) (job : Job σ), s.jobs[i]? = some job →
    ∃ job', t.jobs[i]? = some job' ∧ job'.signal = job.signal ∧
      Relation.ReflTransGen Activity.Looked (job.activity, s.stage) (job'.activity, t.stage)

namespace Proceeds

variable {s t u : Session σ}

theorem of_kept (firings : s.stage.signals.Within t.stage.signals)
    (kept : ∀ (i : Nat) (job : Job σ), s.jobs[i]? = some job → t.jobs[i]? = some job) :
    s.Proceeds t :=
  ⟨firings, fun i job hjob => ⟨job, kept i job hjob, rfl, .single (.amid firings)⟩⟩

theorem refl (s : Session σ) : s.Proceeds s := .of_kept (.refl _) fun _ _ h => h

theorem trans (h : s.Proceeds t) (h' : t.Proceeds u) : s.Proceeds u := by
  refine ⟨h.firings.trans h'.firings, fun i job hjob => ?_⟩
  obtain ⟨job', hjob', hsignal, hlooked⟩ := h.jobs i job hjob
  obtain ⟨job'', hjob'', hsignal', hlooked'⟩ := h'.jobs i job' hjob'
  exact ⟨job'', hjob'', hsignal'.trans hsignal, hlooked.trans hlooked'⟩

theorem of_looks (h : s.Looks t) : s.Proceeds t := by
  obtain ⟨hfirings, hsignals, hactivities⟩ : s.stage.signals.Within t.stage.signals ∧
      t.signals = s.signals ∧ ∀ (i : Nat) (a : RunActivity σ Outcome), s.activities[i]? = some a →
        ∃ b, t.activities[i]? = some b ∧
          Relation.ReflTransGen Activity.Looked (a, s.stage) (b, t.stage) := by
    cases h with
    | rests stage activities signals =>
      refine ⟨stage ▸ .refl _, signals, fun i a ha => ⟨a, activities ▸ ha, ?_⟩⟩
      rw [stage]
    | @goesOn j b timeIsUp p here goes stage activities signals =>
      have hwithin := Activity.within_look? goes
      refine ⟨stage ▸ hwithin, signals, fun i a ha => ?_⟩
      rw [activities, stage]
      by_cases hij : j = i
      · subst hij
        obtain rfl := Option.some.inj (here.symm.trans ha)
        exact ⟨_, List.getElem?_set_self (List.getElem?_eq_some_iff.mp ha).1, .single (.goesOn goes)⟩
      · exact ⟨a, (List.getElem?_set_ne hij).trans ha, .single (.amid hwithin)⟩
  refine ⟨hfirings, fun i job hjob => ?_⟩
  have ha : s.activities[i + 1]? = some job.activity := by simp [activities, hjob]
  obtain ⟨b, hb, hlooked⟩ := hactivities (i + 1) job.activity ha
  have hsignal : t.signals[i]? = some job.signal := by
    rw [hsignals]
    simp [signals, hjob]
  cases hjob' : t.jobs[i]? with
  | none => simp [signals, hjob'] at hsignal
  | some job' =>
    obtain rfl : job'.activity = b := by simpa [activities, hjob'] using hb
    exact ⟨job', rfl, by simpa [signals, hjob'] using hsignal, hlooked⟩

theorem settle (s : Session σ) : s.Proceeds s.settle := by
  have hlooks := s.looks_settle
  generalize s.settle = t at hlooks
  induction hlooks with
  | refl => exact .refl s
  | tail _ h ih => exact ih.trans (.of_looks h)

theorem attend (s : Session σ) (front : Front σ) : s.Proceeds (s.attend front) := by
  refine .trans ?_ (settle _)
  exact .of_kept (.refl _) fun _ _ h => h

theorem carryOut (s : Session σ) (a : RunActivity σ Outcome) : s.Proceeds (s.carryOut a).2 := by
  rw [carryOut_eq_attend]
  exact attend s _

theorem letIn (s : Session σ) (jobs : List Nat) : s.Proceeds (s.letIn jobs) := by
  unfold Session.letIn
  split
  · exact refl s
  · exact .of_kept (.refl _) fun _ _ h => h

theorem host {stage : RunStage σ} (firings : s.stage.signals.Within stage.signals) :
    s.Proceeds (s.withHostStage stage) := by
  have hplaced : s.Proceeds { s with stage } := .of_kept firings fun _ _ h => h
  exact hplaced.trans (letIn _ _)

theorem addJob (s : Session σ) (signal : Signal) (a : RunActivity σ Outcome) :
    s.Proceeds (s.addJob signal a).2 :=
  .of_kept (.refl _) fun _ _ h =>
    (List.getElem?_append_left (List.getElem?_eq_some_iff.mp h).1).trans h

theorem under {α : Type} (alarm : Option Alarm) {f : Session σ → α × Session σ}
    (hf : ∀ s : Session σ, s.Proceeds (f s).2) (s : Session σ) : s.Proceeds (s.under alarm f).2 := by
  cases alarm with
  | none => exact hf s
  | some alarm =>
    let ring : RunActivity σ Outcome := .wait alarm.ms none fun _ => .fire alarm.signal (.done (.ok ()))
    let rung : Session σ := (s.addJob alarm.signal ring).2.enqueue [s.jobs.length]
    have hrung : s.Proceeds rung := (addJob s alarm.signal ring).trans (.of_kept (.refl _) fun _ _ h => h)
    have hafter := hrung.trans (hf rung)
    change s.Proceeds ((f rung).2.dismiss s.jobs.length)
    have hstage := ((f rung).2.dismiss_eq s.jobs.length).1
    refine ⟨hstage.symm ▸ hafter.firings, fun i job hjob => ?_⟩
    obtain ⟨job', hjob', hsignal, hlooked⟩ := hafter.jobs i job hjob
    have hne : s.jobs.length ≠ i := by
      rintro rfl
      simp at hjob
    refine ⟨job', ?_, hsignal, hstage.symm ▸ hlooked⟩
    unfold dismiss
    split
    · exact hjob'
    · split
      · exact hjob'
      · exact (List.getElem?_set_ne hne).trans hjob'

theorem launch (s : Session σ) (c : Compiled σ) : s.Proceeds (s.launch c).2 := by
  have hsignal : s.Proceeds s.newSignal.2 := .of_kept (.refl _) fun _ _ h => h
  exact (hsignal.trans (addJob _ _ _)).trans (letIn _ _)

theorem run (e : Engine) (t : TokenTree (Token σ)) (signal : Signal) (alarm : Option Alarm)
    (s : Session σ) : s.Proceeds (s.run e t signal alarm).2 := by
  refine under alarm (fun s => ?_) s
  have hwithin := e.within_compile t s.stage
  rcases hcompile : e.compile t s.stage with ⟨compiled, stage⟩
  rw [hcompile] at hwithin
  have hcompiled : s.Proceeds (s.withStage stage) := by
    refine .of_kept ?_ fun _ _ h => ?_
    · rw [withStage_stage]
      exact hwithin
    · rw [(s.withStage_jobs stage).1]
      exact h
  cases compiled with
  | error f => exact hcompiled
  | ok c => exact hcompiled.trans (carryOut _ _)

theorem of_acts (h : s.Acts t) : s.Proceeds t := by
  cases h with
  | change f => exact .of_kept (.refl _) fun _ _ h => h
  | newSignal => exact .of_kept (.refl _) fun _ _ h => h
  | fire signal => exact host (Signals.Within.fire _ _)
  | fill f acc => exact host (f.within_run acc _ _)
  | compile e tree => exact host (e.within_compile tree s.stage)
  | plan e strategy tree => exact host (e.within_plan tree s.stage strategy)
  | launch c => exact launch s c
  | perform c signal alarm => exact under alarm (fun s => carryOut s _) s
  | run e tree signal alarm => exact run e tree signal alarm s
  | pass ms => exact carryOut s _
  | await job alarm => exact under alarm (fun s => attend s _) s

theorem of_does (h : s.Does t) : s.Proceeds t := by
  cases h with
  | acts h => exact of_acts h
  | send sink e => exact .of_kept (.refl _) fun _ _ h => h
  | takeItems => exact .of_kept (.refl _) fun _ _ h => h

theorem of_history (h : Relation.ReflTransGen Does s t) : s.Proceeds t := by
  induction h with
  | refl => exact refl s
  | tail _ hdoes ih => exact ih.trans (of_does hdoes)

end Proceeds

end Session

end Flowchart
