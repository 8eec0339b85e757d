import Flowchart.Proofs.Activity.Stretch
import Flowchart.Proofs.Walk.Built

/-! How runs among others come by their ids, and what carries them. -/
namespace Flowchart

variable {σ α β : Type}

def World.runName (n : Nat) : String := s!"flow-run-{n}"

theorem World.runName_inj {m n : Nat} : runName m = runName n ↔ m = n := by
  refine ⟨fun h => ?_, congrArg runName⟩
  have hrepr : m.repr = n.repr := (String.append_right_inj "flow-run-").mp h
  have hdigits : Nat.toDigits 10 m = Nat.toDigits 10 n := by
    simpa only [Nat.repr_eq_ofList_toDigits, String.ofList_inj] using hrepr
  have hread : ∀ k, Nat.ofDigitChars 10 (Nat.toDigits 10 k) 0 = k := fun k =>
    Nat.ofDigitChars_toDigits (by decide) (by decide)
  rw [← hread m, hdigits, hread n]

def Report.run? : Report → Option String
  | event _ e => some e.run
  | log _ => none

namespace Activity

/-- An activity of a run puts out events of that run only, and leaves the count of runs alone. -/
def Numbered : RunActivity σ α → Option Nat → World σ → Prop
  | done _, _, _ | crash, _, _ => True
  | get next, n, w => (next w).Numbered n w
  | set w' next, n, w =>
    (w'.runsBegun = w.runsBegun ∧ next.Numbered n w') ∨
      n = none ∧ w'.runsBegun = w.runsBegun + 1 ∧ next.Numbered (some w'.runsBegun) w'
  | emit o next, n, _ => (∀ id ∈ o.run?, some id = n.map World.runName) ∧ ∀ w, next.Numbered n w
  | fire _ next, n, _ => ∀ w, next.Numbered n w
  | poll _ next, n, _ => ∀ fired w, (next fired).Numbered n w
  | wait _ _ next, n, _ => ∀ cut w, (next cut).Numbered n w

namespace Numbered

variable {k : Nat} {n : Option Nat} {w : World σ}

theorem bind {a : RunActivity σ α} {f : α → RunActivity σ β} (ha : a.Numbered (some k) w)
    (hf : ∀ x w, (f x).Numbered (some k) w) : (a >>= f).Numbered (some k) w := by
  change (a.bind f).Numbered (some k) w
  induction a generalizing w with
  | done x => exact hf x w
  | crash => exact True.intro
  | get next ih => exact ih _ ha
  | set w' next ih =>
    rcases ha with ⟨hkept, ha⟩ | ⟨hn, _⟩
    · exact .inl ⟨hkept, ih ha⟩
    · cases hn
  | emit o next ih => exact ⟨ha.1, fun w => ih (ha.2 w)⟩
  | fire signal next ih => exact fun w => ih (ha w)
  | poll signal next ih => exact fun fired w => ih fired (ha fired w)
  | wait ms signal next ih => exact fun cut w => ih cut (ha cut w)

theorem pure (x : α) : (Pure.pure x : RunActivity σ α).Numbered n w := True.intro

theorem hasFired (signal : Signal) : (Activity.hasFired signal : RunActivity σ Bool).Numbered n w :=
  fun _ _ => True.intro

theorem tell {o : Report} (h : ∀ id ∈ o.run?, some id = n.map World.runName) :
    (Activity.tell o : RunActivity σ Unit).Numbered n w :=
  ⟨h, fun _ => True.intro⟩

/-- A unit on its own puts out no events. -/
theorem inRun (a : Activity σ LogLine α) (w : World σ) : a.inRun.Numbered n w := by
  unfold Activity.inRun
  induction a generalizing w with
  | done x => exact True.intro
  | crash => exact True.intro
  | get next ih => exact ih _ w
  | set s next ih => exact .inl ⟨rfl, ih _⟩
  | emit o next ih => exact ⟨nofun, ih⟩
  | fire signal next ih => exact ih
  | poll signal next ih => exact ih
  | wait ms signal next ih => exact ih

end Numbered

/-- What a while does to the number of an activity: nothing, or the activity takes the next. -/
theorem Stretch.numbered {a rest : RunActivity σ α} {stage stage' : RunStage σ} {items : List Report}
    {n : Option Nat} (h : Stretch a stage items rest stage') (ha : a.Numbered n stage.state) :
    ∃ n', (∀ w, rest.Numbered n' w) ∧
      (∀ o ∈ items, ∀ id ∈ o.run?, some id = n'.map World.runName) ∧
      (n' = n ∧ stage'.state.runsBegun = stage.state.runsBegun ∨
        n = none ∧ n' = some (stage.state.runsBegun + 1) ∧
          stage'.state.runsBegun = stage.state.runsBegun + 1) := by
  induction h generalizing n with
  | @stop a stage hstop =>
    refine ⟨n, ?_, nofun, .inl ⟨rfl, rfl⟩⟩
    cases a with
    | get | set => cases hstop
    | done | crash => exact fun _ => True.intro
    | emit | fire | poll | wait => exact fun _ => ha
  | get _ ih => exact ih ha
  | set _ ih =>
    rcases ha with ⟨hkept, ha⟩ | ⟨rfl, htaken, ha⟩
    · rw [← hkept]
      exact ih ha
    · obtain ⟨n', hrest, hitems, ⟨rfl, hcount⟩ | ⟨hnone, _⟩⟩ := ih ha
      · exact ⟨_, hrest, hitems, .inr ⟨rfl, by rw [← htaken], hcount.trans htaken⟩⟩
      · cases hnone
  | @emit o next rest stage stage' items _ ih =>
    obtain ⟨n', hrest, hitems, hcount⟩ := ih (ha.2 _)
    refine ⟨n', hrest, ?_, hcount⟩
    intro o' ho' id hid
    rcases List.mem_cons.mp ho' with rfl | ho'
    · have hn := ha.1 id hid
      rcases hcount with ⟨rfl, _⟩ | ⟨rfl, _⟩
      · exact hn
      · cases hn
    · exact hitems o' ho' id hid
  | fire _ ih => exact ih (ha _)
  | poll _ ih => exact ih (ha _ _)
  | wait _ ih => exact ih (ha _ _)

end Activity

open Activity (Numbered)

namespace Reporter

variable {r : Reporter} {k : Nat} {signal : Signal}

section Carried

variable (hr : r.run = World.runName k)
include hr

theorem send_numbered {e : Event} (he : e.run = r.run) (w : World σ) :
    (r.send e : RunActivity σ Unit).Numbered (some k) w := by
  refine .tell fun id hid => ?_
  cases hid
  rw [he, hr]
  rfl

theorem execute_numbered (e : Entry σ) (started : Nat) (w : World σ) :
    (r.execute signal e started).Numbered (some k) w := by
  rw [execute_eq]
  refine (Numbered.hasFired signal).bind fun fired w => ?_
  cases fired with
  | true => exact .pure _
  | false =>
    refine (send_numbered hr rfl w).bind fun _ w => (Numbered.inRun _ w).bind fun outcome w => ?_
    exact conclude_passes (P := fun _ a => ∀ w, a.Numbered (some k) w) (fun _ _ => .pure _)
      (fun ha hf w => (ha w).bind fun x w => hf x w) (fun _ he _ _ => send_numbered hr he) e
      started outcome w

/-- To keep to a number passes from the steps of a run to the run. -/
theorem numbered_passes :
    Passes (fun _ (a : RunActivity σ _) => ∀ w, a.Numbered (some k) w) r signal where
  pure _ _ := .pure _
  bind ha hf w := (ha w).bind fun x w => hf x w
  hasFired _ := .hasFired signal
  inRun := .inRun
  execute := execute_numbered hr

theorem executeAll_numbered (entries : List (Entry σ)) (started : Nat) (w : World σ) :
    (r.executeAll signal started entries).Numbered (some k) w :=
  (numbered_passes hr).executeAll entries started w

theorem walk_numbered (t : TokenTree (Token σ)) (limit left : Nat) (ahead seen : List TokenId)
    (started : Nat) (w : World σ) :
    (r.walk signal t limit left ahead seen started).Numbered (some k) w :=
  TokenTree.passes_walk (numbered_passes hr) (fun _ _ => send_numbered hr rfl) t limit left ahead seen
    started w

theorem finish_numbered (p : Progress) (w : World σ) :
    (r.finish p : RunActivity σ Outcome).Numbered (some k) w :=
  finish_passes (P := fun _ a => ∀ w, a.Numbered (some k) w) (fun _ _ => .pure _)
    (fun ha hf w => (ha w).bind fun x w => hf x w) (fun _ he _ _ => send_numbered hr he)
    (fun _ _ => .tell nofun) p w

end Carried

/-- Whoever begins a run takes the next number. -/
theorem start_numbered {strategy : Strategy} {sink : Sink} {surfaceFailures : Bool}
    {f : Reporter → RunActivity σ α}
    (hf : ∀ k w, (f ⟨World.runName k, sink, surfaceFailures⟩).Numbered (some k) w) (w : World σ) :
    (start strategy sink surfaceFailures >>= f).Numbered none w := by
  refine .inr ⟨rfl, rfl, ?_, fun w' => hf _ w'⟩
  intro id hid
  cases hid
  rfl

end Reporter

theorem Tour.pass_numbered {tour : Tour σ} {r : Reporter} {k : Nat} (hr : r.run = World.runName k)
    (signal : Signal) (w : World σ) : (tour.pass r signal).Numbered (some k) w := by
  unfold pass
  split
  · exact .pure _
  · exact Reporter.walk_numbered hr _ _ _ _ _ _ w

theorem Compiled.execute_numbered (c : Compiled σ) (signal : Signal) (w : World σ) :
    (c.execute signal).Numbered none w := by
  cases c with
  | plan p =>
    have hread : ∀ f : World σ → RunActivity σ Outcome, (f w).Numbered none w →
        (Activity.read >>= f).Numbered none w := fun _ h => h
    refine hread _ ?_
    split
    · exact ⟨nofun, fun _ => True.intro⟩
    · refine .inl ⟨rfl, Reporter.start_numbered (fun k w => ?_) _⟩
      exact (Reporter.executeAll_numbered rfl _ _ w).bind (Reporter.finish_numbered rfl)
  | tour t =>
    have hexecute : (Compiled.tour t).execute signal = t.execute signal := rfl
    rw [hexecute, Tour.execute_eq]
    refine Reporter.start_numbered (fun k w => ?_) w
    exact (t.pass_numbered rfl signal w).bind (Reporter.finish_numbered rfl)

end Flowchart
