import Flowchart.Proofs.Activity.Puts
import Flowchart.Proofs.Walk.Built

/-! The grammar of a run's events. -/
namespace Flowchart

def Report.sentTo? (sink : Sink) : Report → Option Event
  | event s e => if s = sink then some e else none
  | log _ => none

def Event.unitsBegun (events : List Event) : Nat := (events.filterMap Event.startedUnit?).length

variable {σ : Type}

def Entry.names (e : Entry σ) : String × String := (e.token, e.unit.label)

/-- The events of units executed in a row, each begun and then completed;
the last may fail or stay open. -/
inductive Blocks (run : String) : List (String × String) → List Event → Outcome → Prop
  | through : Blocks run [] [] (.ok ())
  | barred {token unit : String} {work : List (String × String)} :
      Blocks run ((token, unit) :: work) [] (.error .cancelled)
  | completed {token unit : String} {work : List (String × String)} {events : List Event}
      {outcome : Outcome} (rest : Blocks run work events outcome) :
      Blocks run ((token, unit) :: work)
        (.unitStarted run unit token :: .unitCompleted run unit token :: events) outcome
  | failed {token unit : String} {work : List (String × String)} {f : Fault}
      (h : f.isCancelled = false) :
      Blocks run ((token, unit) :: work)
        [.unitStarted run unit token, .unitFailed run unit token f.message]
        (.error (.unitFailed unit token f))
  | left {token unit : String} {work : List (String × String)} :
      Blocks run ((token, unit) :: work) [.unitStarted run unit token] (.error .cancelled)

/-- The events of tokens attended to in a row, each with the count of its units. -/
inductive Segments (run : String) : List Event → Outcome → Prop
  | through : Segments run [] (.ok ())
  | halted (f : Fault) : Segments run [] (.error f)
  | onward {token : String} {units : List String} {events rest : List Event} {outcome : Outcome}
      (body : Blocks run (units.map (token, ·)) events (.ok ()))
      (next : Segments run rest outcome) :
      Segments run (.tokenResolved run token units.length :: (events ++ rest)) outcome
  | stopped {token : String} {units : List String} {events : List Event} {f : Fault}
      (body : Blocks run (units.map (token, ·)) events (.error f)) :
      Segments run (.tokenResolved run token units.length :: events) (.error f)

/-- The event that closes a run of `n` units, by how the run went, and what its caller is told. -/
inductive Closes (run : String) (surfaceFailures : Bool) (n : Nat) : Outcome → Event → Outcome → Prop
  | completed : Closes run surfaceFailures n (.ok ()) (.runCompleted run n) (.ok ())
  | hushed {f : Fault} (h : f.isCancelled = false) (quiet : surfaceFailures = false) :
      Closes run surfaceFailures n (.error f) (.runCompleted run n) (.ok ())
  | failed {f : Fault} (h : f.isCancelled = false) (told : surfaceFailures = true) :
      Closes run surfaceFailures n (.error f) (.runFailed run n f.message) (.error f)
  | cancelled {f : Fault} (h : f.isCancelled = true) :
      Closes run surfaceFailures n (.error f) (.runCancelled run n) (.error .cancelled)

/-- The events of a whole run of a compiled tree, and what its caller is told. -/
inductive Trace (run : String) : Compiled σ → List Event → Outcome → Prop
  | plan {p : Plan σ} {events : List Event} {ended outcome : Outcome} {last : Event}
      (body : Blocks run (p.entries.map Entry.names) events ended)
      (closed : Closes run p.surfaceFailures (Event.unitsBegun events) ended last outcome) :
      Trace run (.plan p) (.runStarted run p.strategy.name :: (events ++ [last])) outcome
  | tour {t : Tour σ} {events : List Event} {ended outcome : Outcome} {last : Event}
      (body : Segments run events ended)
      (closed : Closes run t.surfaceFailures (Event.unitsBegun events) ended last outcome) :
      Trace run (.tour t) (.runStarted run Strategy.immediate.name :: (events ++ [last])) outcome

namespace Closes

variable {run : String} {surfaceFailures : Bool} {n : Nat} {ended told : Outcome} {last : Event}

/-- A run is closed as cancelled just if its caller is told of a cancellation. -/
theorem cancelled_iff (h : Closes run surfaceFailures n ended last told) :
    last = .runCancelled run n ↔ told = .error .cancelled := by
  cases h with
  | completed | hushed | cancelled => simp
  | failed hf =>
    simp only [reduceCtorEq, false_iff]
    rintro ⟨⟩
    cases hf

theorem unitsBegun_eq (h : Closes run surfaceFailures n ended last told) :
    Event.unitsBegun [last] = 0 := by
  cases h <;> rfl

end Closes

theorem Trace.exists_mem {run : String} {c : Compiled σ} {events : List Event} {outcome : Outcome}
    (h : Trace run c events outcome) : ∃ e ∈ events, e.run = run := by
  cases h <;> exact ⟨_, List.mem_cons_self, rfl⟩

def Compiled.sink : Compiled σ → Sink
  | plan p => p.sink
  | tour t => t.sink

namespace Report

@[simp] theorem sentTo?_event (sink : Sink) (e : Event) : sentTo? sink (.event sink e) = some e := by
  simp [sentTo?]

@[simp] theorem sentTo?_log (sink : Sink) (line : LogLine) : sentTo? sink (.log line) = none := rfl

theorem filterMap_sentTo?_log (sink : Sink) (lines : List LogLine) :
    (lines.map Report.log).filterMap (sentTo? sink) = [] := by
  simp [List.filterMap_map, Function.comp_def, sentTo?]

end Report

theorem Event.unitsBegun_append (a b : List Event) :
    unitsBegun (a ++ b) = unitsBegun a + unitsBegun b := by
  simp [unitsBegun]

theorem Blocks.unitsBegun_eq {run : String} {work : List (String × String)} {events : List Event}
    (h : Blocks run work events (.ok ())) : Event.unitsBegun events = work.length := by
  generalize ho : (.ok () : Outcome) = o at h
  induction h with
  | through => rfl
  | completed _ ih =>
    have := ih ho
    simp only [Event.unitsBegun, List.length_cons, Event.startedUnit?, List.filterMap_cons] at this ⊢
    rw [this]
  | barred | failed | left => cases ho

namespace Segments

variable {run : String} {events rest : List Event} {outcome : Outcome}

theorem of_blocks {token : String} {units : List String}
    (h : Blocks run (units.map (token, ·)) events (.ok ())) :
    Segments run (.tokenResolved run token units.length :: events) (.ok ()) := by
  have hall : Segments run (.tokenResolved run token units.length :: (events ++ [])) (.ok ()) :=
    .onward h .through
  rwa [List.append_nil] at hall

theorem append (h : Segments run events (.ok ())) (hrest : Segments run rest outcome) :
    Segments run (events ++ rest) outcome := by
  generalize ho : (.ok () : Outcome) = o at h
  induction h with
  | through => exact hrest
  | onward body _ ih =>
    rw [List.cons_append, List.append_assoc]
    exact .onward body (ih ho)
  | halted | stopped => cases ho

end Segments

namespace Reporter

open Activity (Puts)

variable {r : Reporter} {signal : Signal} {items : List Report} {started ended : Nat}
  {outcome : Outcome}

theorem execute_puts {e : Entry σ} (work : List (String × String)) {p : Progress}
    (h : Puts (r.execute signal e started) items p) :
    (p.outcome = .ok () ∧ p.started = started + 1 ∧ items.filterMap (Report.sentTo? r.sink) =
      [.unitStarted r.run e.unit.label e.token, .unitCompleted r.run e.unit.label e.token]) ∨
    (∃ f, p.outcome = .error f ∧
      Blocks r.run (e.names :: work) (items.filterMap (Report.sentTo? r.sink)) (.error f) ∧
      p.started = started + Event.unitsBegun (items.filterMap (Report.sentTo? r.sink))) := by
  obtain ⟨fired, hgoes⟩ := Puts.of_hasFired_bind h
  cases fired with
  | true =>
    obtain ⟨rfl, rfl⟩ := hgoes.of_pure
    exact .inr ⟨_, rfl, .barred, rfl⟩
  | false =>
    obtain ⟨_, hbegun, rfl⟩ := Puts.of_tell_bind hgoes
    obtain ⟨result, _, _, hunit, hends, rfl⟩ := Puts.of_bind hbegun
    obtain ⟨lines, _, rfl⟩ := Puts.of_embed hunit
    cases result with
    | ok =>
      obtain ⟨_, hdone, rfl⟩ := Puts.of_tell_bind hends
      obtain ⟨rfl, rfl⟩ := hdone.of_pure
      refine .inl ⟨rfl, rfl, ?_⟩
      simp only [List.filterMap_cons, List.filterMap_append, Report.sentTo?_event,
        Report.filterMap_sentTo?_log]
      rfl
    | error f =>
      refine .inr ?_
      dsimp only at hends
      split at hends
      · obtain ⟨rfl, rfl⟩ := hends.of_pure
        refine ⟨_, rfl, ?_⟩
        simp only [List.append_nil, List.filterMap_cons, Report.sentTo?_event,
          Report.filterMap_sentTo?_log]
        exact ⟨.left, rfl⟩
      · next hf =>
        obtain ⟨_, hdone, rfl⟩ := Puts.of_tell_bind hends
        obtain ⟨rfl, rfl⟩ := hdone.of_pure
        refine ⟨_, rfl, ?_⟩
        simp only [List.filterMap_cons, List.filterMap_append, Report.sentTo?_event,
          Report.filterMap_sentTo?_log]
        exact ⟨.failed (Bool.eq_false_iff.mpr hf), rfl⟩

theorem executeAll_puts {entries : List (Entry σ)}
    (h : Puts (r.executeAll signal started entries) items ⟨ended, outcome⟩) :
    Blocks r.run (entries.map Entry.names) (items.filterMap (Report.sentTo? r.sink)) outcome ∧
      ended = started + Event.unitsBegun (items.filterMap (Report.sentTo? r.sink)) := by
  induction entries generalizing started items with
  | nil =>
    obtain ⟨hp, rfl⟩ := h.of_pure
    cases hp
    exact ⟨.through, rfl⟩
  | cons e rest ih =>
    obtain ⟨⟨n, result⟩, first, others, hfirst, hrest, rfl⟩ := Puts.of_bind h
    rw [List.filterMap_append]
    rcases execute_puts _ hfirst with ⟨hresult, hn, hevents⟩ | ⟨f, hresult, hblocks, hn⟩
    · cases hresult
      cases hn
      obtain ⟨hblocks, hended⟩ := ih hrest
      rw [hevents]
      refine ⟨.completed hblocks, ?_⟩
      rw [hended, Event.unitsBegun_append, ← Nat.add_assoc]
      rfl
    · cases hresult
      obtain ⟨hp, rfl⟩ := hrest.of_pure
      cases hp
      rw [List.filterMap_nil, List.append_nil]
      exact ⟨hblocks, hn⟩

/-- What is filled into an accumulator of one token is that token's. -/
theorem within_puts {α : Type} {f : Filling σ α} {acc acc' : Accumulator σ} {lines : List LogLine}
    {x : α} (h : Puts (f.within acc) lines (x, acc'))
    (hacc : ∀ e ∈ acc.entries.toList, e.token = acc.current) :
    lines = [] ∧ ∀ e ∈ acc'.entries.toList, e.token = acc.current := by
  induction f generalizing acc with
  | done x =>
    cases h
    exact ⟨rfl, hacc⟩
  | push u next ih =>
    have hpush : ∀ e ∈ (acc.push u).entries.toList, e.token = acc.current := by
      intro e he
      rw [Accumulator.push, Array.toList_push, List.mem_append, List.mem_singleton] at he
      rcases he with he | rfl
      · exact hacc e he
      · rfl
    have hnext : Puts (next.within (acc.push u)) lines (x, acc') := h
    obtain ⟨hlines, htokens⟩ := ih hnext hpush
    exact ⟨hlines, htokens⟩
  | clear next ih =>
    have hnext : Puts (next.within acc.clear) lines (x, acc') := h
    obtain ⟨hlines, htokens⟩ := ih hnext nofun
    exact ⟨hlines, htokens⟩
  | drain next ih =>
    have hnext : Puts ((next acc.entries.toList).within acc.clear) lines (x, acc') := h
    obtain ⟨hlines, htokens⟩ := ih _ hnext nofun
    exact ⟨hlines, htokens⟩
  | look next ih => exact ih _ h hacc
  | get next ih =>
    cases h with
    | get s h => exact ih s h hacc
  | set s next ih =>
    cases h with
    | set h => exact ih h hacc
  | fire signal next ih =>
    cases h with
    | fire h => exact ih h hacc
  | poll signal next ih =>
    cases h with
    | poll fired h => exact ih fired h hacc

/-- However many units were begun before, what is put out is a row of segments, and each unit begun
there is counted. -/
def PutsSegments (r : Reporter) (f : Nat → RunActivity σ Progress) : Prop :=
  ∀ {started items ended outcome}, Puts (f started) items ⟨ended, outcome⟩ →
    Segments r.run (items.filterMap (Report.sentTo? r.sink)) outcome ∧
      ended = started + Event.unitsBegun (items.filterMap (Report.sentTo? r.sink))

theorem attendTo_puts (token : Token σ) : r.PutsSegments (r.attendTo signal token) := by
  intro started items ended outcome h
  obtain ⟨fired, hgoes⟩ := Puts.of_hasFired_bind h
  cases fired with
  | true =>
    obtain ⟨hp, rfl⟩ := hgoes.of_pure
    cases hp
    exact ⟨.halted _, rfl⟩
  | false =>
    obtain ⟨⟨result, acc⟩, _, _, hresolve, hresolved, rfl⟩ := Puts.of_bind hgoes
    obtain ⟨lines, hwithin, rfl⟩ := Puts.of_embed hresolve
    obtain ⟨rfl, htokens⟩ := within_puts hwithin nofun
    cases result with
    | error f =>
      obtain ⟨hp, rfl⟩ := hresolved.of_pure
      cases hp
      exact ⟨.halted _, rfl⟩
    | ok =>
      obtain ⟨_, hunits, rfl⟩ := Puts.of_tell_bind hresolved
      obtain ⟨hblocks, hended⟩ := executeAll_puts hunits
      have hnames : acc.entries.toList.map Entry.names =
          (acc.entries.toList.map (·.unit.label)).map (token.label, ·) := by
        rw [List.map_map]
        exact List.map_congr_left fun e he => Prod.ext (htokens e he) rfl
      have hsize : acc.entries.size = (acc.entries.toList.map (·.unit.label)).length := by simp
      rw [hnames] at hblocks
      simp only [List.map_nil, List.nil_append, List.filterMap_cons, Report.sentTo?_event, hsize]
      refine ⟨?_, hended⟩
      cases outcome with
      | ok => exact Segments.of_blocks hblocks
      | error f => exact .stopped hblocks

theorem halt_puts (stop : Option Fault) :
    r.PutsSegments (halt signal stop : Nat → RunActivity σ Progress) := by
  intro started items ended outcome h
  cases stop with
  | none =>
    obtain ⟨hp, rfl⟩ := h.of_pure
    cases hp
    exact ⟨.through, rfl⟩
  | some f =>
    obtain ⟨fired, hgoes⟩ := Puts.of_hasFired_bind h
    cases fired with
    | true | false =>
      obtain ⟨hp, rfl⟩ := hgoes.of_pure
      cases hp
      exact ⟨.halted _, rfl⟩

theorem walk_puts (t : TokenTree (Token σ)) (limit left : Nat) (ahead seen : List TokenId) :
    r.PutsSegments (r.walk signal t limit left ahead seen) := by
  refine TokenTree.walk_induction (P := r.PutsSegments) halt_puts ?_ t limit left ahead seen
  intro token f ih started items ended outcome h
  obtain ⟨⟨n, result⟩, first, rest, htoken, hgoes, rfl⟩ := Puts.of_bind h
  obtain ⟨hsegment, hn⟩ := attendTo_puts token htoken
  rw [List.filterMap_append]
  cases result with
  | error f =>
    obtain ⟨hp, rfl⟩ := hgoes.of_pure
    cases hp
    rw [List.filterMap_nil, List.append_nil]
    exact ⟨hsegment, hn⟩
  | ok =>
    obtain ⟨hsegments, hended⟩ := ih hgoes
    refine ⟨hsegment.append hsegments, ?_⟩
    rw [hended, hn, Event.unitsBegun_append, Nat.add_assoc]

theorem finish_puts {p : Progress} {told : Outcome}
    (h : Puts (r.finish p : RunActivity σ Outcome) items told) :
    ∃ last, items.filterMap (Report.sentTo? r.sink) = [last] ∧
      Closes r.run r.surfaceFailures p.started p.outcome last told := by
  obtain ⟨n, result⟩ := p
  cases result with
  | ok =>
    obtain ⟨_, hdone, rfl⟩ := Puts.of_tell_bind h
    obtain ⟨rfl, rfl⟩ := hdone.of_pure
    exact ⟨_, by simp, .completed⟩
  | error f =>
    unfold finish at h
    dsimp only at h
    split at h
    · next hf =>
      obtain ⟨_, hlogged, rfl⟩ := Puts.of_tell_bind h
      obtain ⟨_, hdone, rfl⟩ := Puts.of_tell_bind hlogged
      obtain ⟨rfl, rfl⟩ := hdone.of_pure
      exact ⟨_, by simp [List.filterMap_cons], .cancelled hf⟩
    · next hf =>
      have hf : f.isCancelled = false := Bool.eq_false_iff.mpr hf
      obtain ⟨_, hlogged, rfl⟩ := Puts.of_tell_bind h
      split at hlogged
      · next htold =>
        obtain ⟨_, hdone, rfl⟩ := Puts.of_tell_bind hlogged
        obtain ⟨rfl, rfl⟩ := hdone.of_pure
        exact ⟨_, by simp [List.filterMap_cons], .failed hf htold⟩
      · next hquiet =>
        obtain ⟨_, hdone, rfl⟩ := Puts.of_tell_bind hlogged
        obtain ⟨rfl, rfl⟩ := hdone.of_pure
        exact ⟨_, by simp [List.filterMap_cons], .hushed hf (Bool.eq_false_iff.mpr hquiet)⟩

theorem start_puts {strategy : Strategy} {sink : Sink} {surfaceFailures : Bool}
    {f : Reporter → RunActivity σ Outcome} {told : Outcome}
    (h : Puts (start strategy sink surfaceFailures >>= f) items told) :
    ∃ run rest, Puts (f ⟨run, sink, surfaceFailures⟩) rest told ∧
      items = .event sink (.runStarted run strategy.name) :: rest := by
  obtain ⟨r, _, rest, hstart, hf, rfl⟩ := Puts.of_bind h
  obtain ⟨w, hset⟩ := Puts.of_read_bind hstart
  obtain ⟨_, hdone, rfl⟩ := Puts.of_tell_bind (Puts.of_set_bind hset)
  obtain ⟨rfl, rfl⟩ := hdone.of_pure
  exact ⟨_, rest, hf, rfl⟩

end Reporter

open Activity (Puts)

variable {signal : Signal} {items : List Report} {outcome : Outcome}

theorem Tour.pass_puts {tour : Tour σ} {r : Reporter} {p : Progress}
    (h : Puts (tour.pass r signal) items p) :
    Segments r.run (items.filterMap (Report.sentTo? r.sink)) p.outcome ∧
      p.started = Event.unitsBegun (items.filterMap (Report.sentTo? r.sink)) := by
  unfold pass at h
  cases hstart : tour.tree.start with
  | error f =>
    rw [hstart] at h
    obtain ⟨rfl, rfl⟩ := h.of_pure
    exact ⟨.halted f, rfl⟩
  | ok root =>
    rw [hstart] at h
    obtain ⟨hsegments, hstarted⟩ := Reporter.walk_puts _ _ _ _ _ h
    exact ⟨hsegments, hstarted.trans (Nat.zero_add _)⟩

/-- What a run of a compiled tree puts out is a trace, unless it is a plan that was spent. -/
theorem Compiled.execute_puts {c : Compiled σ} (h : Puts (c.execute signal) items outcome) :
    (outcome = .error (.planConsumed c.label) ∧ items.filterMap (Report.sentTo? c.sink) = []) ∨
      ∃ run, Trace run c (items.filterMap (Report.sentTo? c.sink)) outcome := by
  cases c with
  | plan p =>
    obtain ⟨w, hgoes⟩ := Puts.of_read_bind h
    split at hgoes
    · obtain ⟨_, hdone, rfl⟩ := Puts.of_tell_bind hgoes
      obtain ⟨rfl, rfl⟩ := hdone.of_pure
      exact .inl ⟨rfl, by simp [List.filterMap_cons]⟩
    · obtain ⟨run, _, hruns, rfl⟩ := Reporter.start_puts (Puts.of_set_bind hgoes)
      obtain ⟨⟨n, ended⟩, _, _, hall, hfinish, rfl⟩ := Puts.of_bind hruns
      obtain ⟨hblocks, hn⟩ := Reporter.executeAll_puts hall
      obtain ⟨last, hlast, hcloses⟩ := Reporter.finish_puts hfinish
      refine .inr ⟨run, ?_⟩
      simp only [Compiled.sink, List.filterMap_cons, Report.sentTo?_event,
        List.filterMap_append] at hlast ⊢
      rw [hlast]
      exact .plan hblocks ((hn.trans (Nat.zero_add _)) ▸ hcloses)
  | tour t =>
    have hexecute : (Compiled.tour t).execute signal = t.execute signal := rfl
    rw [hexecute, Tour.execute_eq] at h
    obtain ⟨run, _, hruns, rfl⟩ := Reporter.start_puts h
    obtain ⟨p, _, _, hpass, hfinish, rfl⟩ := Puts.of_bind hruns
    obtain ⟨hsegments, hn⟩ := Tour.pass_puts hpass
    obtain ⟨last, hlast, hcloses⟩ := Reporter.finish_puts hfinish
    refine .inr ⟨run, ?_⟩
    simp only [Compiled.sink, List.filterMap_cons, Report.sentTo?_event,
      List.filterMap_append] at hlast ⊢
    rw [hlast]
    exact .tour hsegments (hn ▸ hcloses)

end Flowchart
