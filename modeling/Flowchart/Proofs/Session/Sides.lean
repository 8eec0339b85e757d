import Flowchart.Proofs.Model.Steering
import Flowchart.Proofs.Run.Surfacing
import Flowchart.Proofs.Run.Withdrawn
import Flowchart.Proofs.Session.Stopping

/-! On which sides of branches a run begins units, whatever others do while it waits. -/
namespace Flowchart

/-- Others that leave alone what the nodes have decided which a run has resolved. -/
def Company.LeavesResolved (others : Company (World Desk) Report) : Prop :=
  ∀ deeds stage, ∀ id ∈ deeds.filterMap Deed.resolvedToken?,
    (others deeds stage).state.host.decision? id = stage.state.host.decision? id

theorem Company.LeavesResolved.play_eq {others : Company (World Desk) Report}
    (hothers : others.LeavesResolved) {α : Type} {a b : RunActivity Desk α}
    {sc : Scene (World Desk) Report} {w : World Desk}
    (h : Activity.Twin View.undecided (Desk.decisions ∘ World.host) a sc.stage.state b w) {id : String}
    (hid : id ∈ sc.deeds.filterMap Deed.resolvedToken?) :
    (a.play others sc).2.stage.state.host.decision? id = sc.stage.state.host.decision? id := by
  have hleaves := (h.mono (List.lookup id)).leaves
  refine hleaves.play_eq (P := fun deeds => id ∈ deeds.filterMap Deed.resolvedToken?) (fun deeds d h => ?_)
    (fun deeds stage h => hothers deeds stage id h) hid
  rw [List.filterMap_append]
  exact List.mem_append_left _ h

/-- Units that are executed in a row are begun for the tokens of their entries. -/
theorem Blocks.token_mem {run : String} {work : List (String × String)} {events : List Event}
    {outcome : Outcome} (h : Blocks run work events outcome) {id unit token : String}
    (he : .unitStarted id unit token ∈ events) : (token, unit) ∈ work := by
  induction h with
  | through | barred => cases he
  | completed _ ih =>
    simp only [List.mem_cons, Event.unitStarted.injEq, reduceCtorEq, false_or] at he
    rcases he with ⟨-, rfl, rfl⟩ | he
    · exact List.mem_cons_self
    · exact List.mem_cons_of_mem _ (ih he)
  | failed | left =>
    simp only [List.mem_cons, Event.unitStarted.injEq, reduceCtorEq, List.not_mem_nil,
      or_false] at he
    obtain ⟨-, rfl, rfl⟩ := he
    exact List.mem_cons_self

namespace Model

variable {m : Model} {r : Reporter} {signal : Signal} {others : Company (World Desk) Report}
  {sc sc' : Scene (World Desk) Report} {tokens : List NodeToken}

section Minding

/-- What a token has decided stays when its units are executed. -/
theorem units_leave (hothers : others.LeavesResolved) {entries : List (Entry Desk)}
    (hentries : ∀ e ∈ entries, e.unit.Discreet Desk.undecided Desk.decisions signal) {token : String}
    {units n : Nat} {p : Progress} (h : (r.send (.tokenResolved r.run token units) >>= fun _ =>
      r.executeAll signal n entries).play others sc = (some p, sc')) {id : String}
    (hid : id ∈ sc.deeds.filterMap Deed.resolvedToken? ∨ id = token) :
    sc'.stage.state.host.decision? id = sc.stage.state.host.decision? id := by
  -- The token is reported as resolved before its units are executed.
  let sent := sc.offered r.sink (.tokenResolved r.run token units)
  have hexecute : (r.executeAll signal n entries).play others sent = (some p, sc') := h
  have htwin : Activity.Twin View.undecided (Desk.decisions ∘ World.host)
      (r.executeAll signal n entries) sent.stage.state (r.executeAll signal n entries) sent.stage.state :=
    Reporter.executeAll_twin (fun _ _ => rfl) hentries n rfl
  have hmem : id ∈ sent.deeds.filterMap Deed.resolvedToken? := by
    simp only [sent, Scene.offered, List.filterMap_append]
    rcases hid with hid | rfl
    · exact List.mem_append_left _ hid
    · exact List.mem_append_right _ List.mem_cons_self
  have hkept := hothers.play_eq htwin hmem
  rw [hexecute] at hkept
  exact hkept

/-- Attending to a token decides its own node, and keeps what was decided when others spare that. -/
theorem attendTo_minds (hlib : m.OfLibrary) (hothers : others.LeavesResolved) {t : NodeToken}
    (ht : t.Placed m) {n ended : Nat}
    (h : (r.attendTo signal (t.token m) n).play others sc = (some ⟨ended, .ok ()⟩, sc')) :
    sc.stage.signals.has signal = false ∧
      (∀ id ∈ sc.deeds.filterMap Deed.resolvedToken?, id ≠ t.node →
        sc'.stage.state.host.decision? id = sc.stage.state.host.decision? id) ∧
      ∃ d, m.Turns t sc.stage.state.host d ∧
        sc'.stage.state.host.decision? t.node = d.decision? t.node := by
  cases hfired : sc.stage.signals.has signal with
  | true =>
    rw [Reporter.attendTo, Activity.play_hasFired_bind, hfired] at h
    cases h
  | false =>
    refine ⟨rfl, ?_⟩
    rw [Reporter.play_attendTo_eq hfired] at h
    cases hrun : (t.token m).resolve.run { current := (t.token m).label } sc.stage.state.host
        sc.stage.signals with
    | mk outcome rest =>
      obtain ⟨acc, d, signals⟩ := rest
      rw [hrun] at h
      cases outcome with
      | error f => cases h
      | ok =>
        obtain ⟨hturns, -⟩ := ht.turns hlib hrun
        let resolved : Scene (World Desk) Report := { sc with stage := { sc.stage with
          state := { sc.stage.state with host := d }, signals } }
        have hplay : (r.send (.tokenResolved r.run t.node acc.entries.size) >>= fun _ =>
            r.executeAll signal n acc.entries.toList).play others resolved =
          (some ⟨ended, .ok ()⟩, sc') := h
        have hleaves : ∀ id, id ∈ sc.deeds.filterMap Deed.resolvedToken? ∨ id = t.node →
            sc'.stage.state.host.decision? id = d.decision? id :=
          fun id => units_leave hothers (ht.discreet hlib hrun signal) hplay
        exact ⟨fun id hid hne => (hleaves id (.inl hid)).trans (hturns.others id hne), d, hturns,
          hleaves t.node (.inr rfl)⟩

theorem attend_mindsTurns (hlib : m.OfLibrary) (hothers : others.LeavesResolved)
    (hplaced : ∀ t ∈ tokens, t.Placed m) :
    m.MindsTurns tokens (m.attendDesks tokens r signal others sc) := by
  have hsucc : ∀ {k t d'}, tokens[k]? = some t →
      m.attendDesks tokens r signal others sc (k + 1) = some d' → ∃ n sc₁ ended sc₂,
        m.attendDesks tokens r signal others sc k = some sc₁.stage.state.host ∧
        (r.attend signal ((tokens.take k).map (·.token m)) 0).play others sc =
          (some ⟨n, .ok ()⟩, sc₁) ∧
        (r.attendTo signal (t.token m) n).play others sc₁ = (some ⟨ended, .ok ()⟩, sc₂) ∧
        sc₂.stage.state.host = d' := by
    intro k t d' ht hd'
    obtain ⟨ended, sc₂, hall, -, rfl⟩ := attendDesks_eq_some_iff.mp hd'
    obtain ⟨n, sc₁, hbefore, hlast⟩ := of_attend_succ ht hall
    have hquiet := (attendTo_minds hlib hothers (hplaced t (List.mem_of_getElem? ht)) hlast).1
    have hd := attendDesks_eq_some_iff.mpr ⟨n, sc₁, hbefore, hquiet, rfl⟩
    exact ⟨n, sc₁, ended, sc₂, hd, hbefore, hlast, rfl⟩
  constructor
  case before =>
    intro k d hd
    cases ht : tokens[k]? with
    | none =>
      rw [attendDesks, take_succ_of_none ht] at hd
      exact ⟨d, hd⟩
    | some t =>
      obtain ⟨_, _, _, _, hd, -⟩ := hsucc ht hd
      exact ⟨_, hd⟩
  case kept =>
    intro j k t u d d' ht hu hjk hne hd hd'
    obtain ⟨n, sc₁, ended, sc₂, hd₁, hbefore, hlast, rfl⟩ := hsucc hu hd'
    cases hd.symm.trans hd₁
    obtain ⟨-, hkept, -⟩ := attendTo_minds hlib hothers (hplaced u (List.mem_of_getElem? hu)) hlast
    refine hkept t.node ?_ hne
    have hmem : t ∈ tokens.take k := List.mem_take_iff_getElem.mpr (by
      obtain ⟨hj, rfl⟩ := List.getElem?_eq_some_iff.mp ht
      exact ⟨j, by omega, rfl⟩)
    rw [Reporter.attend_resolved hbefore, List.map_map]
    exact List.mem_append_right _ (List.mem_map_of_mem hmem)
  case decided =>
    intro k t d d' ht hd hd' hopen hbranch n hn
    obtain ⟨_, sc₁, _, sc₂, hd₁, hbefore, hlast, rfl⟩ := hsucc ht hd'
    cases hd.symm.trans hd₁
    obtain ⟨-, -, d, hturns, hkept⟩ :=
      attendTo_minds hlib hothers (hplaced t (List.mem_of_getElem? ht)) hlast
    rw [hkept]
    exact hturns.decided hopen hbranch n hn

end Minding

section Begun

open Activity (Puts)

theorem entries_begin {entries : List (Entry Desk)} {report : Event} {n : Nat} {p : Progress}
    (h : (r.send report >>= fun _ => r.executeAll signal n entries).play others sc = (some p, sc'))
    (hreport : report.startedUnit? = none) {id unit token : String}
    (he : .unitStarted id unit token ∈ sc'.sent r.sink) :
    .unitStarted id unit token ∈ sc.sent r.sink ∨ ∃ e ∈ entries, e.token = token := by
  obtain ⟨items, hputs, hsent⟩ := Puts.sent_eq h r.sink
  obtain ⟨rest, hrest, rfl⟩ := Puts.of_tell_bind hputs
  obtain ⟨hblocks, -⟩ := Reporter.executeAll_puts hrest
  rw [hsent] at he
  rcases List.mem_append.mp he with he | he
  · exact .inl he
  · rw [List.filterMap_cons_some (Report.sentTo?_event r.sink report)] at he
    rcases List.mem_cons.mp he with rfl | he
    · cases hreport
    · obtain ⟨e, he, hnames⟩ := List.mem_map.mp (hblocks.token_mem he)
      exact .inr ⟨e, he, congrArg Prod.fst hnames⟩

/-- A unit that is begun while a token is attended to is the token's, and its guards were open. -/
theorem attendTo_begins (hlib : m.OfLibrary) {t : NodeToken} (ht : t.Placed m) {n : Nat} {p : Progress}
    (h : (r.attendTo signal (t.token m) n).play others sc = (some p, sc')) {id unit token : String}
    (he : .unitStarted id unit token ∈ sc'.sent r.sink) :
    .unitStarted id unit token ∈ sc.sent r.sink ∨ sc.stage.signals.has signal = false ∧
      token = t.node ∧ m.allOpen sc.stage.state.host t.guards = .ok true := by
  cases hfired : sc.stage.signals.has signal with
  | true =>
    rw [Reporter.play_attendTo_fired hfired] at h
    cases h
    exact .inl he
  | false =>
    obtain ⟨k, b, hn, hb, hdeclares, -⟩ := ht.declares hlib
    have hall := allOpen_eq ht.guards sc.stage.state.host
    rw [Reporter.play_attendTo_eq hfired, NodeToken.run_opens hn hb hdeclares ht.guards] at h
    cases hopens : m.opens sc.stage.state.host t.guards with
    | false =>
      rw [hopens, if_neg Bool.false_ne_true] at h
      rcases entries_begin h rfl he with he | ⟨e, he, -⟩
      · exact .inl he
      · cases he
    | true =>
      rw [hopens, if_pos rfl] at h
      rw [hopens] at hall
      dsimp only at h
      cases hsettle : (b.settle m k sc.stage.state.host).1 with
      | error f =>
        rw [hsettle] at h
        cases h
        exact .inl he
      | ok =>
        rw [hsettle] at h
        rcases entries_begin h rfl he with he | ⟨e, hmem, rfl⟩
        · exact .inl he
        · refine .inr ⟨rfl, ?_, hall⟩
          cases hu : b.unit? m k with
          | none =>
            rw [hu] at hmem
            cases hmem
          | some u =>
            rw [hu] at hmem
            obtain rfl : e = ⟨(t.token m).label, u⟩ := by simpa [Accumulator.push] using hmem
            rfl

theorem attend_begins (hlib : m.OfLibrary) (hplaced : ∀ t ∈ tokens, t.Placed m) {k : Nat} {p : Progress}
    (h : (r.attend signal ((tokens.take k).map (·.token m)) 0).play others sc = (some p, sc'))
    {id unit token : String} (he : .unitStarted id unit token ∈ sc'.sent r.sink) :
    .unitStarted id unit token ∈ sc.sent r.sink ∨ ∃ j t, tokens[j]? = some t ∧ t.node = token ∧
      m.Resolves tokens (m.attendDesks tokens r signal others sc) j := by
  induction k generalizing p sc' with
  | zero =>
    cases h
    exact .inl he
  | succ k ih =>
    cases ht : tokens[k]? with
    | none =>
      rw [take_succ_of_none ht] at h
      exact ih h he
    | some t =>
      rw [map_take_succ ht, Reporter.attend_append] at h
      obtain ⟨⟨n, outcome⟩, sc₁, hbefore, hlast⟩ := Activity.play_bind_eq_some_iff.mp h
      cases outcome with
      | error f =>
        cases hlast
        exact ih hbefore he
      | ok =>
        have hlast : (r.attend signal [t.token m] n).play others sc₁ = (some p, sc') := hlast
        rw [Reporter.attend_singleton] at hlast
        rcases attendTo_begins hlib (hplaced t (List.mem_of_getElem? ht)) hlast he with
          he | ⟨hquiet, rfl, hopen⟩
        · exact ih hbefore he
        · have hd := attendDesks_eq_some_iff.mpr ⟨n, sc₁, hbefore, hquiet, rfl⟩
          exact .inr ⟨k, t, ht, rfl, t, _, ht, hd, hopen⟩

theorem play_halt_scene (stop : Option Fault) (n : Nat) :
    ((Reporter.halt signal stop n : RunActivity Desk Progress).play others sc).2 = sc := by
  cases stop with
  | none => rfl
  | some f =>
    rw [Reporter.halt, Activity.play_hasFired_bind]
    split <;> rfl

theorem of_finish_begun {p : Progress} {told : Outcome}
    (h : (r.finish p).play others sc = (some told, sc')) {id unit token : String}
    (he : .unitStarted id unit token ∈ sc'.sent r.sink) : .unitStarted id unit token ∈ sc.sent r.sink := by
  obtain ⟨_, last, final, hfinish, -, -, hsent, hcloses⟩ := r.play_finish others p sc
  obtain rfl : final = sc' := congrArg Prod.snd (hfinish.symm.trans h)
  rw [hsent] at he
  refine (List.mem_append.mp he).resolve_right fun he => ?_
  obtain rfl := List.mem_singleton.mp he
  exact absurd hcloses.unitsBegun_eq Nat.one_ne_zero

theorem execute_begins (hlib : m.OfLibrary) (hplaced : ∀ t ∈ tokens, t.Placed m)
    {tree : TokenTree (Token Desk)} {tour : Tour Desk} (ht : tour.tree = tree) {stop : Option Fault}
    (htoured : tree.TouredAs tour.limit (tokens.map (·.token m)) stop) {stage : RunStage Desk}
    {told : Outcome} {final : Scene (World Desk) Report}
    (hplay : (tour.execute signal).play others { stage } = (some told, final))
    {id unit token : String} (he : .unitStarted id unit token ∈ final.sent tour.sink) :
    let r : Reporter := ⟨stage.state.nextRun, tour.sink, tour.surfaceFailures⟩
    let begun := (Scene.mk stage []).announced .immediate tour.sink
    ∃ j t, tokens[j]? = some t ∧ t.node = token ∧
      m.Resolves tokens (m.attendDesks tokens r signal others begun) j := by
  intro r begun
  rw [Tour.play_execute] at hplay
  obtain ⟨p, sc₁, hpass, hfinish⟩ := Activity.play_bind_eq_some_iff.mp hplay
  rw [htoured.pass_eq tour ht rfl] at hpass
  obtain ⟨⟨n, outcome⟩, sc₂, hattend, honward⟩ := Activity.play_bind_eq_some_iff.mp hpass
  obtain rfl : sc₂ = sc₁ := by
    cases outcome with
    | error f => exact congrArg Prod.snd honward
    | ok => exact (play_halt_scene stop n).symm.trans (congrArg Prod.snd honward)
  have hall : tokens.take tokens.length = tokens := List.take_length
  rw [← hall] at hattend
  refine (attend_begins hlib hplaced hattend (of_finish_begun hfinish he)).resolve_left fun he => ?_
  have hsent : begun.sent r.sink = (Scene.mk stage []).sent r.sink ++ _ :=
    Scene.sent_announced _ .immediate tour.sink
  rw [hsent] at he
  simp [Scene.sent] at he

end Begun

/-- A run has begun a unit of a token behind a port. -/
def BeginsBehind (tokens : List NodeToken) (run : String) (sent : List Event)
    (guard : String × String) : Prop :=
  ∃ t ∈ tokens, guard ∈ t.guards ∧ ∃ unit, Event.unitStarted run unit t.node ∈ sent

/-- A run begins units only on the sides that the conditions it pulled have selected. -/
structure KeepsToSides (m : Model) (tokens : List NodeToken) (desks : Nat → Option Desk) (run : String)
    (sent : List Event) : Prop where
  chosen : ∀ guard choice, m.IsSide guard choice → BeginsBehind tokens run sent guard →
    ∃ k, m.Chose tokens desks k guard.1 choice
  one_side : ∀ guard guard' choice choice', guard.1 = guard'.1 → m.IsSide guard choice →
    m.IsSide guard' choice' → BeginsBehind tokens run sent guard →
    BeginsBehind tokens run sent guard' → choice = choice'

/-- A run begins units only behind open guards, its own choices if others
decide for none of its branches. -/
theorem begins_behind_choices (hgraph : ∃ id name edits, Graph.ofEdits id name edits = m.graph)
    (hlib : m.OfLibrary) {start : String} {tree : TokenTree (Token Desk)}
    (htree : m.tokenTree start = .ok tree) {tour : Tour Desk} (ht : tour.tree = tree)
    {stage : RunStage Desk} {told : Outcome} {final : Scene (World Desk) Report}
    (hplay : (tour.execute signal).play others { stage } = (some told, final)) :
    ∃ u, m.graph.tokenTree start = .ok u ∧
      let tokens := u.tokens.take tour.limit
      let r : Reporter := ⟨stage.state.nextRun, tour.sink, tour.surfaceFailures⟩
      let desks := m.attendDesks tokens r signal others ((Scene.mk stage []).announced .immediate tour.sink)
      (∀ unit token, .unitStarted r.run unit token ∈ final.sent tour.sink →
        ∃ k t, tokens[k]? = some t ∧ t.node = token ∧ m.Resolves tokens desks k) ∧
      (others.LeavesResolved → m.KeepsToSides tokens desks r.run (final.sent tour.sink)) := by
  have hwf := Graph.WellFormed.of_edited hgraph
  obtain ⟨u, hgrown, rfl⟩ := grown_of_tokenTree htree
  obtain ⟨-, -, hlaid, -⟩ := Graph.tokenTree_walk hgrown
  obtain ⟨stop, -, htoured⟩ := passes_first hgrown tour.limit
  have hfirst : u.tokens.take tour.limit <+: u.tokens := List.take_prefix _ _
  have hplaced : ∀ t ∈ u.tokens.take tour.limit, t.Placed m := fun t => placed hwf hlaid hfirst
  refine ⟨u, hgrown, ?_⟩
  intro tokens r desks
  have hbegins : ∀ unit token, .unitStarted r.run unit token ∈ final.sent tour.sink →
      ∃ k t, tokens[k]? = some t ∧ t.node = token ∧ m.Resolves tokens desks k :=
    fun unit token he => execute_begins hlib hplaced ht htoured hplay he
  refine ⟨hbegins, fun hothers => ?_⟩
  have hturns : m.MindsTurns tokens desks := attend_mindsTurns hlib hothers hplaced
  have hchosen : ∀ guard choice, m.IsSide guard choice →
      BeginsBehind tokens r.run (final.sent tour.sink) guard →
      ∃ k, m.Chose tokens desks k guard.1 choice := by
    rintro guard choice hside ⟨t, ht, hguard, unit, he⟩
    obtain ⟨k, t', ht', hnode, t'', d, ht'', hd, hopen⟩ := hbegins unit t.node he
    cases ht'.symm.trans ht''
    obtain ⟨i, hi⟩ := List.getElem?_of_mem ht
    obtain rfl := place_eq hlaid hfirst hi ht' hnode.symm
    cases hi.symm.trans ht'
    exact ⟨i, (allOpen_iff_chose hwf hlib hlaid hfirst hturns hi hd).mp hopen guard hguard choice hside⟩
  refine ⟨hchosen, fun guard guard' choice choice' heq hside hside' hbegun hbegun' => ?_⟩
  obtain ⟨j, hchose⟩ := hchosen guard choice hside hbegun
  obtain ⟨k, hchose'⟩ := hchosen guard' choice' hside' hbegun'
  exact Chose.unique hlaid hfirst (heq ▸ hchose) hchose'

section Wavering

/-- A condition that is asked once, a side that waits and then says yes, and a side that says no. -/
def wavering : Model where
  graph :=
    { id := "wavering", name := "Wavering"
      nodes := [Library.getVariable "flag", Library.branch "ask", Library.delay "rest",
        Library.print "yes", Library.print "no"]
      connections := [⟨"flag", "flag.value", "ask", "ask.condition"⟩,
        ⟨"ask", "ask.true", "rest", "rest.exec"⟩, ⟨"rest", "rest.next", "yes", "yes.exec"⟩,
        ⟨"ask", "ask.false", "no", "no.exec"⟩] }
  behaviours := [("flag", .getVariable "flag"), ("ask", .branch), ("rest", .delay 10),
    ("yes", .print), ("no", .print)]

theorem ofLibrary_wavering : wavering.OfLibrary := by
  intro n hn
  simp only [wavering, List.mem_cons, List.not_mem_nil, or_false] at hn
  rcases hn with rfl | rfl | rfl | rfl | rfl
  · exact ⟨_, rfl, .getVariable "flag" "flag"⟩
  · exact ⟨_, rfl, .branch "ask"⟩
  · exact ⟨_, rfl, .delay "rest" 10⟩
  · exact ⟨_, rfl, .print "yes"⟩
  · exact ⟨_, rfl, .print "no"⟩

def waveringTree : TokenTree NodeToken :=
  { slots := #[{ token := ⟨"ask", []⟩, children := [1, 3] },
      { token := ⟨"rest", [("ask", "ask.true")]⟩, successor := some 2 },
      { token := ⟨"yes", [("ask", "ask.true")]⟩ }, { token := ⟨"no", [("ask", "ask.false")]⟩ }]
    root := some 0 }

theorem tokenTree_wavering : wavering.graph.tokenTree "ask" = .ok waveringTree := by decide +kernel

theorem isSide_wavering : wavering.IsSide ("ask", "ask.true") true ∧
    wavering.IsSide ("ask", "ask.false") false :=
  ⟨⟨rfl, _, _, rfl, rfl, rfl⟩, ⟨rfl, _, _, rfl, rfl, rfl⟩⟩

def answer (d : Desk) (yes : Bool) : Desk :=
  { d with board := { entries := [("flag", .bool yes)] } }

def unasking : Company (World Desk) Report :=
  fun _ stage => { stage with state := { stage.state with host := answer stage.state.host false } }

theorem wavering_keeps_to_sides :
    let tour : Tour Desk := ⟨waveringTree.map (·.token wavering), 4, .recorder, true⟩
    let stage : RunStage Desk := { state := { host := answer {} true } }
    ∃ final, (tour.execute 0).play unasking { stage } = (some (.ok ()), final) ∧
      Event.unitStarted "flow-run-1" "yes" "yes" ∈ final.sent .recorder ∧
      wavering.KeepsToSides waveringTree.tokens
        (wavering.attendDesks waveringTree.tokens ⟨"flow-run-1", .recorder, true⟩ 0 unasking
          ((Scene.mk stage []).announced .immediate .recorder)) "flow-run-1" (final.sent .recorder) := by
  intro tour stage
  have hedits : Graph.ofEdits "wavering" "Wavering"
      [.addNode (Library.getVariable "flag"), .addNode (Library.branch "ask"),
        .addNode (Library.delay "rest"), .addNode (Library.print "yes"), .addNode (Library.print "no"),
        .connect ⟨"flag", "flag.value", "ask", "ask.condition"⟩,
        .connect ⟨"ask", "ask.true", "rest", "rest.exec"⟩,
        .connect ⟨"rest", "rest.next", "yes", "yes.exec"⟩,
        .connect ⟨"ask", "ask.false", "no", "no.exec"⟩] = wavering.graph := by decide +kernel
  have htree : wavering.tokenTree "ask" = .ok tour.tree := by
    rw [tokenTree, tokenTree_wavering]
    rfl
  have hends : ((tour.execute 0).play unasking { stage }).1 = some (.ok ()) := by decide +kernel
  have hbegun : Event.unitStarted "flow-run-1" "yes" "yes" ∈
      ((tour.execute 0).play unasking { stage }).2.sent .recorder := by decide +kernel
  have hplay : (tour.execute 0).play unasking { stage } = (some (.ok ()), _) := Prod.ext hends rfl
  obtain ⟨u, hu, -, hkeeps⟩ :=
    begins_behind_choices ⟨_, _, _, hedits⟩ ofLibrary_wavering htree rfl hplay
  cases tokenTree_wavering.symm.trans hu
  have hkeeps := hkeeps fun _ _ _ _ => rfl
  have hfirst : waveringTree.tokens.take tour.limit = waveringTree.tokens := by decide +kernel
  have hrun : stage.state.nextRun = "flow-run-1" := by decide +kernel
  simp only [hfirst, hrun] at hkeeps
  exact ⟨_, hplay, hbegun, hkeeps⟩

def overlapping (e : Engine) (tree : TokenTree (Token Desk)) : Session Desk :=
  let waiting := (Session.start (.new (answer {} true)) e tree).2.pass 1
  ((waiting.change fun d => answer d false).start e tree).2

/-- The second run is over before the first one goes on, which has units on both sides. -/
theorem overlapping_begins_both :
    let e : Engine := { config := { strategy := .immediate }, sink := .recorder }
    let s := ((overlapping e (waveringTree.map (·.token wavering))).await 1).2.await 0
    let sent := s.2.stage.items.toList.filterMap (Report.sentTo? .recorder)
    wavering.graph.tokenTree "ask" = .ok waveringTree ∧
      wavering.IsSide ("ask", "ask.true") true ∧ wavering.IsSide ("ask", "ask.false") false ∧
      BeginsBehind waveringTree.tokens "flow-run-1" sent ("ask", "ask.true") ∧
      BeginsBehind waveringTree.tokens "flow-run-1" sent ("ask", "ask.false") := by
  intro e s sent
  have hbegun : Event.unitStarted "flow-run-1" "rest" "rest" ∈ sent ∧
      Event.unitStarted "flow-run-1" "no" "no" ∈ sent := by
    have hawait : ∀ (s : Session Desk) (job : Nat), (s.await job).2 = s.attend (.awaiting job) :=
      fun _ _ => rfl
    simp only [sent, s, overlapping, Session.pass, Session.carryOut_eq_attend, hawait]
    rw [Session.attend_eq_attended (.acting _ _) 40 (by decide +kernel),
      Session.attend_eq_attended (.awaiting 1) 40 (by decide +kernel),
      Session.attend_eq_attended (.awaiting 0) 40 (by decide +kernel)]
    decide +kernel
  obtain ⟨hyes, hno⟩ := hbegun
  exact ⟨tokenTree_wavering, isSide_wavering.1, isSide_wavering.2,
    ⟨⟨"rest", [("ask", "ask.true")]⟩, by decide, List.mem_cons_self, "rest", hyes⟩,
    ⟨⟨"no", [("ask", "ask.false")]⟩, by decide, List.mem_cons_self, "no", hno⟩⟩

end Wavering

end Model

end Flowchart
