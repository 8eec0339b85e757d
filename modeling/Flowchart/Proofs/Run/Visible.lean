import Flowchart.Proofs.Run.Interleaving
import Flowchart.Proofs.Walk.Preorder

/-! What the log and the events of a run that resolves its tokens itself show of how it ended. -/
namespace Flowchart

variable {σ : Type}

def Event.isAlarm : Event → Bool
  | unitFailed .. | runFailed .. | runCancelled .. => true
  | _ => false

def Scene.lines (sc : Scene (World σ) Report) : List LogLine :=
  sc.deeds.filterMap fun d => d.item?.bind Report.line?

/-- The line that a run writes into the log when it stops on a failure. -/
def Reporter.stopLine (r : Reporter) (f : Fault) : LogLine :=
  ⟨.error, s!"Flow run {r.run} stopped: {f.message}"⟩

/-- A run comes through: every token of its walk is resolved, every unit
executed, and all of that ends well. -/
def Compiled.Completes (c : Compiled σ) (signal : Signal) (others : Company (World σ) Report)
    (sc : Scene (World σ) Report) : Prop :=
  ∃ v, (c.reporter sc).ComesTo signal c.tree others (c.outset sc) v ∧ v.agenda.isClear = true

section Alarms

variable {run : String} {work : List (String × String)} {events : List Event} {ended : Outcome}
  {e : Event}

/-- While units are executed the only alarm is that of the unit that failed. -/
theorem Blocks.alarm (h : Blocks run work events ended) (he : e ∈ events) (halarm : e.isAlarm = true) :
    ∃ unit token source, ended = .error (.unitFailed unit token source) ∧
      e = .unitFailed run unit token source.message := by
  induction h with
  | through | barred => cases he
  | completed _ ih =>
    rcases List.mem_cons.mp he with rfl | he
    · cases halarm
    rcases List.mem_cons.mp he with rfl | he
    · cases halarm
    · exact ih he
  | @failed token unit _ f other =>
    rcases List.mem_cons.mp he with rfl | he
    · cases halarm
    · exact ⟨unit, token, f, rfl, List.mem_singleton.mp he⟩
  | left =>
    rw [List.mem_singleton.mp he] at halarm
    cases halarm

theorem Segments.alarm (h : Segments run events ended) (he : e ∈ events) (halarm : e.isAlarm = true) :
    ∃ unit token source, ended = .error (.unitFailed unit token source) ∧
      e = .unitFailed run unit token source.message := by
  induction h with
  | through | halted => cases he
  | onward body _ ih =>
    rcases List.mem_cons.mp he with rfl | he
    · cases halarm
    rcases List.mem_append.mp he with he | he
    · obtain ⟨_, _, _, hended, _⟩ := body.alarm he halarm
      cases hended
    · exact ih he
  | stopped body =>
    rcases List.mem_cons.mp he with rfl | he
    · cases halarm
    · exact body.alarm he halarm

end Alarms

namespace Reporter

variable {r : Reporter} {signal : Signal} {t : TokenTree (Token σ)}
  {others : Company (World σ) Report} {limit : Nat} {u v : Stand σ} {result : Option Outcome}

/-- If a run ends well, it has come to where nothing is left to do. -/
def ComesThrough (r : Reporter) (signal : Signal) (t : TokenTree (Token σ)) (limit : Nat)
    (others : Company (World σ) Report) (u : Stand σ) : Prop :=
  ∀ n final, (r.goOn signal t limit u.agenda u.started).play others u.scene =
    (some ⟨n, .ok ()⟩, final) → ∃ v, r.ComesTo signal t others u v ∧ v.agenda.isClear = true

theorem comesThrough (u : Stand σ) : r.ComesThrough signal t limit others u := by
  refine goOn_induction r signal t others ?fired ?clear ?refused ?noRoom ?takes u
  case fired =>
    intro u fired n final hplay
    rw [play_goOn_fired fired] at hplay
    split at hplay
    · next hclear => exact ⟨u, .refl, hclear⟩
    · cases hplay
  case clear => exact fun u hclear n final _ => ⟨u, .refl, hclear⟩
  case refused =>
    intro id ahead seen left started sc f quiet hvisit n final hplay
    rw [play_goOn_refused quiet hvisit] at hplay
    cases hplay
  case noRoom =>
    intro id ahead seen started sc slot quiet hvisit n final hplay
    rw [play_goOn_noRoom quiet hvisit] at hplay
    cases hplay
  case takes =>
    intro u v result takes ih n final hplay
    rw [play_goOn_takes takes] at hplay
    rcases result with _ | ⟨f | _⟩
    · cases hplay
    · cases hplay
    · obtain ⟨w, comes, hclear⟩ := ih n final hplay
      exact ⟨w, .head takes comes, hclear⟩

theorem sent_takes (h : r.Takes signal t others u (some (.ok ())) v) :
    (∃ unit token, u.agenda.ahead = v.agenda.ahead ∧ u.agenda.seen = v.agenda.seen ∧
      u.agenda.left = v.agenda.left ∧ v.scene.sent r.sink = u.scene.sent r.sink ++
        [.unitStarted r.run unit token, .unitCompleted r.run unit token]) ∨
    ∃ id slot ahead n, u.agenda.ahead = id :: ahead ∧ u.agenda.left = v.agenda.left + 1 ∧
      v.agenda.ahead = Strategy.immediate.next slot ++ ahead ∧ v.agenda.seen = id :: u.agenda.seen ∧
      t.visit u.agenda.seen id = .ok slot ∧
      v.scene.sent r.sink = u.scene.sent r.sink ++ [.tokenResolved r.run slot.token.label n] := by
  have hsent := h.sent
  generalize some (Except.ok ()) = result at h
  cases h with
  | unit => exact .inl ⟨_, _, rfl, rfl, rfl, hsent⟩
  | @token id ahead seen left started slot units sc sc' outcome quiet visits resolves =>
    have hslot := (TokenTree.visit_eq_ok_iff.mp visits).1
    refine .inr ⟨id, slot, ahead, units.length, rfl, rfl, rfl, rfl, visits, ?_⟩
    simpa [Stand.step, Step.events, TokenTree.tokensAt, hslot] using hsent

/-- From where a run comes to its end the tokens ahead of it are resolved in
pre-order, each of them once. -/
theorem ComesTo.preorder (h : r.ComesTo signal t others u v) (hclear : v.agenda.isClear = true) :
    ∃ ids, t.Preorder u.agenda.ahead ids ∧ ids.Nodup ∧ (∀ id ∈ ids, id ∉ u.agenda.seen) ∧
      ids.length ≤ u.agenda.left ∧ (v.scene.sent r.sink).filterMap Event.resolvedToken? =
        (u.scene.sent r.sink).filterMap Event.resolvedToken? ++ (t.tokensAt ids).map (·.label) := by
  induction h using Relation.ReflTransGen.head_induction_on with
  | refl =>
    simp only [Agenda.isClear, Bool.and_eq_true, List.isEmpty_iff] at hclear
    rw [hclear.2]
    exact ⟨[], .nil, .nil, by simp, Nat.zero_le _, (List.append_nil _).symm⟩
  | @head u w takes _ ih =>
    obtain ⟨ids, hlisted, hnodup, hnew, hroom, hresolved⟩ := ih
    rcases sent_takes takes with ⟨unit, token, hahead, hseen, hleft, hsent⟩ |
      ⟨id, slot, ahead, n, hahead, hleft, hnext, hseen, hvisit, hsent⟩
    · refine ⟨ids, hahead ▸ hlisted, hnodup, hseen ▸ hnew, hleft ▸ hroom, ?_⟩
      rw [hresolved, hsent, List.filterMap_append]
      simp [Event.resolvedToken?]
    · obtain ⟨here, hid⟩ := TokenTree.visit_eq_ok_iff.mp hvisit
      rw [hnext] at hlisted
      rw [hseen] at hnew
      refine ⟨id :: ids, ?_, ?_, ?_, ?_, ?_⟩
      · rw [hahead]
        exact TokenTree.Preorder.cons_iff.mpr ⟨slot, ids, here, rfl, hlisted⟩
      · exact List.nodup_cons.mpr ⟨fun hmem => hnew id hmem List.mem_cons_self, hnodup⟩
      · intro next hnext
        rcases List.mem_cons.mp hnext with rfl | hnext
        · exact hid
        · exact fun hold => hnew next hnext (List.mem_cons_of_mem _ hold)
      · rw [hleft, List.length_cons]
        omega
      · rw [hresolved, hsent, List.filterMap_append, List.append_assoc]
        simp [TokenTree.tokensAt, here, Event.resolvedToken?]

/-- A failure that is no cancellation is written into the log when the run is closed. -/
theorem stopLine_mem_finish {n : Nat} {f : Fault} {told : Outcome} {sc final : Scene (World σ) Report}
    (other : f.isCancelled = false)
    (h : (r.finish ⟨n, .error f⟩).play others sc = (some told, final)) :
    r.stopLine f ∈ final.lines := by
  have hclose : (r.finish ⟨n, .error f⟩ : RunActivity σ Outcome) =
      .tell (.log (r.stopLine f)) >>= fun _ =>
        if r.surfaceFailures then r.send (.runFailed r.run n f.message) >>= fun _ => return .error f
        else r.send (.runCompleted r.run n) >>= fun _ => return .ok () := by
    unfold finish
    simp only [other, Bool.false_eq_true, if_false]
    cases r.surfaceFailures <;> rfl
  rw [hclose] at h
  cases hsurface : r.surfaceFailures with
  | true | false =>
    rw [hsurface] at h
    cases h
    simp [Scene.lines, Deed.item?, Report.line?]

end Reporter

namespace Compiled

/-- What the events and the log lines of a run show of how it ended. -/
structure Shows (c : Compiled σ) (signal : Signal) (others : Company (World σ) Report)
    (sc : Scene (World σ) Report) (told : Outcome) (events : List Event) (lines : List LogLine) :
    Prop where
  ends : c.Completes signal others sc ∨ told = .error .cancelled ∨
    ∃ f, c.StopsOn signal others sc f
  /-- If it comes through, the tokens were resolved in pre-order and their
  units begun and completed. -/
  completes : c.Completes signal others sc → told = .ok () ∧ (∀ f, ¬ c.StopsOn signal others sc f) ∧
    ∃ ids body n, c.tree.WalksOnce c.limit ids ∧
      events = .runStarted (c.reporter sc).run Strategy.immediate.name ::
        (body ++ [.runCompleted (c.reporter sc).run n]) ∧
      Segments (c.reporter sc).run body (.ok ()) ∧
      body.filterMap Event.resolvedToken? = (c.tree.tokensAt ids).map (·.label)
  cancels : (∃ n, .runCancelled (c.reporter sc).run n ∈ events) ↔ told = .error .cancelled
  logs : ∀ f, c.StopsOn signal others sc f → (c.reporter sc).stopLine f ∈ lines
  /-- There is an event for the failure of a unit just if it stops on one. -/
  blames : ∀ f, c.StopsOn signal others sc f →
    ((∃ unit token error, .unitFailed (c.reporter sc).run unit token error ∈ events) ↔
      ∃ unit token source, f = .unitFailed unit token source)
  /-- There is one for the failure of the run just if failures are told. -/
  surfaces : ∀ f, c.StopsOn signal others sc f →
    ((∃ n error, .runFailed (c.reporter sc).run n error ∈ events) ↔ c.surfaceFailures = true)
  /-- If they are not, the run closes as if it had come through. -/
  hushes : ∀ f, c.StopsOn signal others sc f → c.surfaceFailures = false →
    told = .ok () ∧ ∃ n, events.getLast? = some (.runCompleted (c.reporter sc).run n)
  /-- Without an alarm it came through, provided that failures are told or
  no line says that it stopped. -/
  quiet : (∀ e ∈ events, e.isAlarm = false) →
    (c.surfaceFailures = true ∨ ∀ f, (c.reporter sc).stopLine f ∉ lines) →
      c.Completes signal others sc

variable {t : Tour σ} {signal : Signal} {others : Company (World σ) Report} {start : RunStage σ}
  {final : Scene (World σ) Report} {told : Outcome}

/-- How the walk of a run ended, and what the run put out: `body` between
its first and its last event. -/
structure Ended (c : Compiled σ) (signal : Signal) (others : Company (World σ) Report)
    (sc : Scene (World σ) Report) (told : Outcome) (events : List Event) (lines : List LogLine)
    (ended : Outcome) (n : Nat) (body : List Event) (last : Event) : Prop where
  events_eq : events = .runStarted (c.reporter sc).run Strategy.immediate.name :: (body ++ [last])
  segments : Segments (c.reporter sc).run body ended
  closes : Closes (c.reporter sc).run c.surfaceFailures n ended last told
  completes_iff : c.Completes signal others sc ↔ ended = .ok ()
  stopsOn_iff : ∀ f, c.StopsOn signal others sc f ↔ ended = .error f ∧ f.isCancelled = false
  resolved : c.Completes signal others sc → ∃ ids, c.tree.WalksOnce c.limit ids ∧
    body.filterMap Event.resolvedToken? = (c.tree.tokensAt ids).map (·.label)
  blamed : ∀ unit token source, c.StopsOn signal others sc (.unitFailed unit token source) →
    .unitFailed (c.reporter sc).run unit token source.message ∈ body
  logged : ∀ f, ended = .error f → f.isCancelled = false → (c.reporter sc).stopLine f ∈ lines

theorem ended_of_tour (hc : t.tree.Closed) (hroot : t.tree.root ≠ none)
    (hplay : ((tour t).execute signal).play others { stage := start } = (some told, final)) :
    ∃ ended n body last, (tour t).Ended signal others { stage := start } told (final.sent t.sink)
      final.lines ended n body last := by
  let c : Compiled σ := tour t
  let sc : Scene (World σ) Report := { stage := start }
  have hready : c.Ready sc := hroot
  rw [play_ready hready] at hplay
  obtain ⟨⟨n, ended⟩, sc₁, hgoOn, hfinish⟩ := Activity.play_bind_eq_some_iff.mp hplay
  obtain ⟨told', last, final', hfinish', -, -, hlast, hcloses⟩ :=
    (c.reporter sc).play_finish others ⟨n, ended⟩ sc₁
  obtain ⟨rfl, rfl⟩ : told' = told ∧ final' = final := by
    rw [hfinish] at hfinish'
    cases hfinish'
    exact ⟨rfl, rfl⟩
  obtain ⟨items, hputs, hbody⟩ := Activity.Puts.sent_eq hgoOn t.sink
  have hsegments : Segments (c.reporter sc).run (items.filterMap (Report.sentTo? t.sink)) ended :=
    (Reporter.walk_puts t.tree t.limit t.limit t.tree.root.toList [] hputs).1
  generalize items.filterMap (Report.sentTo? t.sink) = body at hbody hsegments
  have houtset : (c.outset sc).scene.sent t.sink =
      [.runStarted (c.reporter sc).run Strategy.immediate.name] := c.sent_outset sc
  have hstopped : ∀ f, c.StopsOn signal others sc f → ended = .error f ∧ f.isCancelled = false ∧
      ∀ unit token source, f = .unitFailed unit token source →
        .unitFailed (c.reporter sc).run unit token source.message ∈ sc₁.sent t.sink := by
    rintro f ⟨-, u, comes, hstops⟩
    obtain ⟨m, sc₂, hstop, other, hnames⟩ := hstops.play_goOn
    rw [← Reporter.play_goOn_comesTo comes, hgoOn] at hstop
    cases hstop
    refine ⟨rfl, other, fun unit token source hf => ?_⟩
    have hsent : sc₁.sent t.sink = _ := hnames unit token source hf
    rw [hsent]
    simp
  have hcame : ∀ v, (c.reporter sc).ComesTo signal c.tree others (c.outset sc) v →
      v.agenda.isClear = true → ended = .ok () ∧ v.scene = sc₁ := by
    intro v comes hclear
    rw [Reporter.play_goOn_comesTo comes, Reporter.play_goOn_clear hclear] at hgoOn
    cases hgoOn
    exact ⟨rfl, rfl⟩
  refine ⟨ended, n, body, last, ?_⟩
  constructor
  case events_eq =>
    have hlast : final'.sent t.sink = sc₁.sent t.sink ++ [last] := hlast
    rw [hlast, hbody, houtset]
    rfl
  case segments => exact hsegments
  case closes => exact hcloses
  case completes_iff =>
    constructor
    · rintro ⟨v, comes, hclear⟩
      exact (hcame v comes hclear).1
    · rintro rfl
      exact Reporter.comesThrough _ n sc₁ hgoOn
  case stopsOn_iff =>
    intro f
    constructor
    · intro h
      obtain ⟨hended, other, -⟩ := hstopped f h
      exact ⟨hended, other⟩
    · rintro ⟨rfl, other⟩
      have hclosed : c.tree.Closed := hc
      exact ⟨True.intro, Reporter.settles hclosed _ (within_outset hclosed sc) n f sc₁ other hgoOn⟩
  case resolved =>
    rintro ⟨v, comes, hclear⟩
    obtain ⟨ids, hlisted, hnodup, -, hroom, hresolved⟩ := comes.preorder hclear
    refine ⟨ids, ⟨⟨hroot, hlisted⟩, hnodup, hroom⟩, ?_⟩
    have hresolved : (v.scene.sent t.sink).filterMap Event.resolvedToken? =
        ((c.outset sc).scene.sent t.sink).filterMap Event.resolvedToken? ++ _ := hresolved
    rw [(hcame v comes hclear).2, hbody, houtset, List.filterMap_append,
      List.filterMap_cons_none rfl] at hresolved
    exact hresolved
  case blamed =>
    intro unit token source h
    obtain ⟨-, -, hmem⟩ := hstopped _ h
    have hmem := hmem unit token source rfl
    rw [hbody, houtset] at hmem
    simpa using hmem
  case logged =>
    rintro f rfl other
    exact Reporter.stopLine_mem_finish other hfinish

theorem StopsOn.not_completes {c : Compiled σ} {sc : Scene (World σ) Report} {f : Fault}
    (h : c.StopsOn signal others sc f) : ¬ c.Completes signal others sc := by
  rintro ⟨v, comes', hclear⟩
  obtain ⟨-, u, comes, hstops⟩ := h
  obtain ⟨n, final, hstop, -⟩ := hstops.play_goOn
  rw [← Reporter.play_goOn_comesTo comes, Reporter.play_goOn_comesTo comes',
    Reporter.play_goOn_clear hclear] at hstop
  cases hstop

theorem Ended.shows {c : Compiled σ} {sc : Scene (World σ) Report} {events body : List Event}
    {lines : List LogLine} {ended : Outcome} {n : Nat} {last : Event}
    (h : c.Ended signal others sc told events lines ended n body last) :
    c.Shows signal others sc told events lines := by
  -- Only the last event and that of a unit that failed can be alarms.
  have halarm : ∀ e ∈ events, e.isAlarm = true → e = last ∨ ∃ unit token source,
      ended = .error (.unitFailed unit token source) ∧
        e = .unitFailed (c.reporter sc).run unit token source.message := by
    intro e he halarm
    rw [h.events_eq] at he
    rcases List.mem_cons.mp he with rfl | he
    · cases halarm
    rcases List.mem_append.mp he with he | he
    · exact .inr (h.segments.alarm he halarm)
    · exact .inl (List.mem_singleton.mp he)
  have hlast : last ∈ events := by simp [h.events_eq]
  constructor
  case ends =>
    rcases hended : ended with f | _
    · cases hf : f.isCancelled with
      | true =>
        have hcloses := h.closes
        rw [hended] at hcloses
        cases hcloses with
        | hushed other | failed other =>
          rw [hf] at other
          cases other
        | cancelled => exact .inr (.inl rfl)
      | false => exact .inr (.inr ⟨f, (h.stopsOn_iff f).mpr ⟨hended, hf⟩⟩)
    · exact .inl (h.completes_iff.mpr hended)
  case completes =>
    intro hcompletes
    obtain rfl := h.completes_iff.mp hcompletes
    obtain ⟨ids, hwalks, hresolved⟩ := h.resolved hcompletes
    have hcloses := h.closes
    cases hcloses with
    | completed =>
      refine ⟨rfl, fun f hf => ?_, ids, body, n, hwalks, h.events_eq, h.segments, hresolved⟩
      cases ((h.stopsOn_iff f).mp hf).1
  case cancels =>
    rw [← h.closes.cancelled_iff]
    constructor
    · rintro ⟨m, hm⟩
      rcases halarm _ hm rfl with rfl | ⟨_, _, _, _, heq⟩
      · have hcloses := h.closes
        cases hcloses with
        | cancelled => rfl
      · cases heq
    · rintro rfl
      exact ⟨n, hlast⟩
  case logs =>
    intro f hf
    obtain ⟨hended, other⟩ := (h.stopsOn_iff f).mp hf
    exact h.logged f hended other
  case blames =>
    intro f hf
    obtain ⟨hended, other⟩ := (h.stopsOn_iff f).mp hf
    constructor
    · rintro ⟨unit, token, error, hmem⟩
      rcases halarm _ hmem rfl with rfl | ⟨unit, token, source, hunit, -⟩
      · have hcloses := h.closes
        cases hcloses
      · rw [hended] at hunit
        exact ⟨unit, token, source, Except.error.inj hunit⟩
    · rintro ⟨unit, token, source, rfl⟩
      refine ⟨unit, token, source.message, ?_⟩
      rw [h.events_eq]
      simp [h.blamed unit token source hf]
  case surfaces =>
    intro f hf
    obtain ⟨rfl, other⟩ := (h.stopsOn_iff f).mp hf
    have hcloses := h.closes
    constructor
    · rintro ⟨m, error, hmem⟩
      rcases halarm _ hmem rfl with rfl | ⟨_, _, _, _, heq⟩
      · cases hcloses with
        | failed _ told => exact told
      · cases heq
    · intro hsurface
      cases hcloses with
      | hushed _ quiet =>
        rw [hsurface] at quiet
        cases quiet
      | failed => exact ⟨n, f.message, hlast⟩
      | cancelled hf =>
        rw [other] at hf
        cases hf
  case hushes =>
    intro f hf hsurface
    obtain ⟨rfl, other⟩ := (h.stopsOn_iff f).mp hf
    have hcloses := h.closes
    cases hcloses with
    | hushed => exact ⟨rfl, n, by rw [h.events_eq, ← List.cons_append, List.getLast?_concat]⟩
    | failed _ told =>
      rw [hsurface] at told
      cases told
    | cancelled hf =>
      rw [other] at hf
      cases hf
  case quiet =>
    intro hquiet hshown
    rw [h.completes_iff]
    have hcloses := h.closes
    cases hcloses with
    | completed => rfl
    | hushed other quiet =>
      rcases hshown with hsurface | hsilent
      · rw [hsurface] at quiet
        cases quiet
      · exact absurd (h.logged _ rfl other) (hsilent _)
    | failed | cancelled => cases hquiet _ hlast

end Compiled

namespace Engine

/-- A run token by token shows how it ended, but for a token's failure when
failures are not told. -/
theorem compile_shows (calls : List (TreeCall (Token σ))) (e : Engine) (stage stage' : RunStage σ)
    (c : Compiled σ) (himmediate : e.config.strategy = .immediate)
    (h : e.compile (.ofCalls calls) stage = (.ok c, stage')) (signal : Signal)
    (others : Company (World σ) Report) (start : RunStage σ) (told : Outcome)
    (final : Scene (World σ) Report)
    (hplay : (c.execute signal).play others { stage := start } = (some told, final)) :
    c.tree = .ofCalls calls ∧ c.limit = e.config.maxTokens ∧ c.sink = e.sink ∧
      c.surfaceFailures = e.config.surfaceFailures ∧
      c.Shows signal others { stage := start } told (final.sent c.sink) final.lines := by
  unfold compile at h
  rw [himmediate] at h
  cases hstart : (TokenTree.ofCalls calls).start with
  | error f =>
    rw [hstart] at h
    cases h
  | ok root =>
    rw [hstart] at h
    cases h
    have hroot : (TokenTree.ofCalls calls).root ≠ none := by
      simp [TokenTree.start_eq_ok_iff.mp hstart]
    obtain ⟨_, _, _, _, hended⟩ :=
      Compiled.ended_of_tour (TokenTree.Closed.ofCalls calls) hroot hplay
    exact ⟨rfl, rfl, rfl, rfl, hended.shows⟩

section Circling

def circling : List (TreeCall (Token Desk)) := [.push (Script.token "token" []), .setSuccessor 0 0]

def circlingTour : Tour Desk :=
  tour { config := { strategy := .immediate }, sink := .recorder } (.ofCalls circling)

theorem compile_circling : compile { config := { strategy := .immediate }, sink := .recorder }
    (.ofCalls circling) { state := { host := {} } } =
      (.ok (.tour circlingTour), { state := { host := {} } }) := rfl

theorem circling_stops : (Compiled.tour circlingTour).StopsOn 0 .nobody
    { stage := { state := { host := {} } } } (.tokenRevisited 0 "token") := by
  have hslot : circlingTour.tree.slot 0 =
      .ok { token := Script.token "token" [], successor := some 0 } := rfl
  exact ⟨True.intro, _, .tail .refl (.token rfl rfl rfl), .revisited rfl hslot List.mem_cons_self⟩

/-- Where failures are not told, a run that comes to a token again has the
events of one that came through. -/
theorem circling_stays_hidden :
    let c := Compiled.tour circlingTour
    let sc : Scene (World Desk) Report := { stage := { state := { host := {} } } }
    compile { config := { strategy := .immediate }, sink := .recorder } (.ofCalls circling)
        { state := { host := {} } } = (.ok c, { state := { host := {} } }) ∧
      c.StopsOn 0 .nobody sc (.tokenRevisited 0 "token") ∧ ¬ c.Completes 0 .nobody sc ∧
      ((c.execute 0).play .nobody sc).1 = some (.ok ()) ∧
      ((c.execute 0).play .nobody sc).2.sent .recorder = [.runStarted "flow-run-1" "immediate",
        .tokenResolved "flow-run-1" "token" 0, .runCompleted "flow-run-1" 0] := by
  refine ⟨compile_circling, circling_stops, circling_stops.not_completes, ?_, ?_⟩
  · decide
  · decide

theorem compile_shows_circling :
    let (told, final) := ((Compiled.tour circlingTour).execute 0).play .nobody
      { stage := { state := { host := {} } } }
    told = some (.ok ()) ∧ ⟨.error,
      "Flow run flow-run-1 stopped: Token 'token' (#0) reached twice in one pass"⟩ ∈ final.lines := by
  obtain ⟨-, -, -, -, hshows⟩ := compile_shows circling
    { config := { strategy := .immediate }, sink := .recorder } { state := { host := {} } } _ _ rfl
    compile_circling 0 .nobody { state := { host := {} } } _ _ rfl
  exact ⟨rfl, hshows.logs _ circling_stops⟩

end Circling

end Engine

end Flowchart
