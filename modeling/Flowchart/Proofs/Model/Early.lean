import Flowchart.Proofs.Model.Emitting
import Flowchart.Proofs.Model.Steering
import Flowchart.Proofs.Run.Signed

/-! Branches that decide before any unit is executed: where the flow writes to no variable that they
read, a plan and a run token by token come to the same. -/
namespace Flowchart

def Engine.withStrategy (e : Engine) (strategy : Strategy) : Engine :=
  { e with config := { e.config with strategy } }

/-- Two runs end with the same result, after the same events of units, at
desks that differ in decisions only. -/
structure Scene.SameCourse (sink : Sink) (a b : Option Outcome × Scene (World Desk) Report) :
    Prop where
  ends : a.1 ≠ none
  told : a.1 = b.1
  units : (a.2.sent sink).filter (·.unit?.isSome) = (b.2.sent sink).filter (·.unit?.isSome)
  desk : a.2.stage.state.host.undecided = b.2.stage.state.host.undecided

section Plans

variable {σ υ τ : Type} {U : σ → υ} {T : σ → τ} {tree : TokenTree (Token σ)}

theorem Engine.plan_stage (e : Engine) (strategy : Strategy) (tree : TokenTree (Token σ))
    (stage : RunStage σ) :
    (e.plan strategy tree stage).2.items = stage.items ∧
      (e.plan strategy tree stage).2.state.runsBegun = stage.state.runsBegun := by
  unfold plan
  cases tree.start with
  | error f => exact ⟨rfl, rfl⟩
  | ok root =>
    dsimp only
    rcases tree.gather strategy _ _ [root] [] {} ⟨stage.state.host, stage.signals⟩ with ⟨f | acc, s⟩
    · exact ⟨rfl, rfl⟩
    · exact ⟨rfl, rfl⟩

theorem Engine.plan_of_compile {e : Engine} (h : e.config.strategy ≠ .immediate)
    {stage stage' : RunStage σ} {c : Compiled σ} (hcompile : e.compile tree stage = (.ok c, stage')) :
    ∃ p, c = .plan p ∧ e.plan e.config.strategy tree stage = (.ok p, stage') := by
  unfold compile at hcompile
  split at hcompile
  · next himmediate => exact absurd himmediate h
  · cases hplan : e.plan e.config.strategy tree stage with
    | mk result s =>
      rw [hplan] at hcompile
      cases result with
      | error f => cases hcompile
      | ok p =>
        cases hcompile
        exact ⟨p, rfl, rfl⟩

/-- A walk that makes a plan resolves all its tokens, and no fault stops it. -/
theorem TokenTree.PlannedAs.of_ok {strategy : Strategy} {limit : Nat} {tokens : List (Token σ)}
    {stop : Option Fault} (h : tree.PlannedAs strategy limit tokens stop) {e : Engine}
    (hlimit : e.config.maxTokens = limit) {stage stage' : RunStage σ} {plan : Plan σ}
    (hplan : e.plan strategy tree stage = (.ok plan, stage')) : ∃ acc s, stop = none ∧
      Token.resolveAll tokens {} ⟨stage.state.host, stage.signals⟩ = (.ok acc, s) ∧
      plan.entries = acc.entries.toList ∧ stage'.state.host = s.host ∧
      stage'.signals = s.signals := by
  have hmade := h e stage hlimit
  rw [hplan] at hmade
  rcases hall : Token.resolveAll tokens {} ⟨stage.state.host, stage.signals⟩ with ⟨f | acc, s⟩
  · rw [hall] at hmade
    cases hmade.1
  · rw [hall] at hmade
    obtain ⟨hentries, hhost, hsignals⟩ := hmade
    cases stop with
    | some f => cases hentries
    | none => exact ⟨acc, s, rfl, rfl, Except.ok.inj hentries, hhost, hsignals⟩

/-- The execution of a plan and a run that attends to the same tokens, from
stages that show the same. -/
theorem Plan.agrees_with_tour {p : Plan σ} (tour : Tour σ) {signal : Signal} {part : τ}
    {emitted : List (Token σ × List (FlowUnit σ))} (halike : Token.EmitAlike U T part emitted)
    (hunits : ∀ e ∈ Entry.ofTokens emitted, e.unit.Discreet U T signal)
    (hentries : p.entries = Entry.ofTokens emitted) (hsink : p.sink = tour.sink)
    (htold : p.surfaceFailures = tour.surfaceFailures)
    (hpass : ∀ r, tour.pass r signal = r.attend signal (emitted.map (·.1)) 0)
    {others : Company (World σ) Report} (hothers : others.Respects (View.ofUnits U))
    (hpart : others.Keeps (T ∘ World.host)) {st st' : RunStage σ} (fresh : p.id ∉ st.state.spent)
    (hsame : (View.ofUnits U).stage st = (View.ofUnits U).stage st') (hhost : T st'.state.host = part) :
    let planned := (p.execute signal).play others { stage := st }
    let toured := (tour.execute signal).play others { stage := st' }
    planned.2.SameUnits U p.sink toured.2 ∧ (Scene.SameEnd p.sink planned toured ∨
      planned.2.stage.signals.has signal = true) := by
  intro planned toured
  let sc := (Scene.spending { stage := st } p.id).announced p.strategy p.sink
  let sc' := (Scene.mk st' []).announced .immediate tour.sink
  have hscenes : (View.ofUnits U).scene sc = (View.ofUnits U).scene sc' := by
    rw [View.ofUnits_announced, View.ofUnits_announced]
    exact congrArg (·, []) hsame
  have hplanned : planned = _ := Plan.play_execute fresh signal
  have htoured : toured = _ := tour.play_execute signal
  dsimp only at hplanned htoured
  rw [hentries] at hplanned
  rw [hpass] at htoured
  let r : Reporter := ⟨st.state.nextRun, p.sink, p.surfaceFailures⟩
  let r' : Reporter := ⟨st'.state.nextRun, tour.sink, tour.surfaceFailures⟩
  have hreporters : r.sink = r'.sink ∧ r.surfaceFailures = r'.surfaceFailures := ⟨hsink, htold⟩
  obtain ⟨-, hseen, hend⟩ := Reporter.run_agrees hreporters.1 hreporters.2 halike hunits hothers
    hpart hscenes hhost
  rw [hplanned, htoured]
  exact ⟨hseen, hend.imp_right And.left⟩

/-- A plan of units that are tame, executed where its signal does not fire. -/
theorem Plan.ends_of_tame {p : Plan σ} {signal : Signal}
    (htame : ∀ e ∈ p.entries, (e.unit.execute signal).Tame) {others : Company (World σ) Report}
    (hspares : others.Spares signal) {stage : RunStage σ} (fresh : p.id ∉ stage.state.spent)
    (quiet : stage.signals.has signal = false) : ∃ told final,
      (p.execute signal).play others { stage } = (some told, final) ∧
      final.stage.signals.has signal = false := by
  have hruns : ∀ r : Reporter, (r.executeAll signal 0 p.entries >>= r.finish).Tame :=
    fun r => .bind (Reporter.tame_executeAll htame 0) Reporter.tame_finish
  have hplay : (p.execute signal).play others { stage } = _ := Plan.play_execute fresh signal
  rw [hplay]
  exact (hruns _).play_ends hspares quiet

end Plans

namespace Model

variable {m : Model}

/-- Some branch in the token tree of a start node pulls a condition that may read the variable. -/
def AsksFrom (m : Model) (start name : String) : Prop :=
  ∃ u, m.graph.tokenTree start = .ok u ∧ ∃ t ∈ u.tokens, m.Asks t.node name

/-- No node in the token tree of a start node sets a variable that a branch in it may read. -/
def SetsApart (m : Model) (start : String) : Prop :=
  ∀ u, m.graph.tokenTree start = .ok u → ∀ t ∈ u.tokens, ∀ name,
    m.behaviour? t.node = some (.setVariable name) → ¬ m.AsksFrom start name

/-- Tokens that put in the same units whatever these have done; a plan has
the units, a tour attends to them. -/
structure Foreseen (m : Model) (start : String) (e : Engine) (tree : TokenTree (Token Desk))
    (stage stage' : RunStage Desk) (signal : Signal) (p : Plan Desk)
    (emitted : List (Token Desk × List (FlowUnit Desk))) : Prop where
  root : tree.root = some 0
  entries : p.entries = Entry.ofTokens emitted
  shows : (View.ofUnits Desk.undecided).stage stage' = (View.ofUnits Desk.undecided).stage stage
  quiet : stage'.signals = stage.signals
  runs : stage'.state.nextRun = stage.state.nextRun
  alike : Token.EmitAlike Desk.undecided (Desk.kept (m.AsksFrom start))
    (stage.state.host.kept (m.AsksFrom start)) emitted
  units : ∀ u ∈ Entry.ofTokens emitted,
    u.unit.Discreet Desk.undecided (Desk.kept (m.AsksFrom start)) signal ∧ (u.unit.execute signal).Tame
  pass : ∀ r, (e.tour tree).pass r signal = r.attend signal (emitted.map (·.1)) 0

theorem foreseen (hwf : m.graph.WellFormed) (hlib : m.OfLibrary) {start : String}
    {tree : TokenTree (Token Desk)} (htree : m.tokenTree start = .ok tree)
    (hapart : m.SetsApart start) {e : Engine} {stage stage' : RunStage Desk} {p : Plan Desk}
    (hplan : e.plan .hierarchical tree stage = (.ok p, stage')) (signal : Signal) :
    ∃ emitted, m.Foreseen start e tree stage stage' signal p emitted := by
  obtain ⟨u, hgrown, rfl⟩ := grown_of_tokenTree htree
  obtain ⟨-, hroot, hlaid, -⟩ := Graph.tokenTree_walk hgrown
  obtain ⟨stop, hplannedAs, htouredAs⟩ := passes_first hgrown e.config.maxTokens
  obtain ⟨acc, s, rfl, hall, hentries, hhost, hsignals⟩ := hplannedAs.of_ok rfl hplan
  obtain ⟨emitted, htokens, halike, hunits⟩ := emitAlike (V := m.AsksFrom start) hwf hlib
    (fun t ht => placed hwf hlaid (List.take_prefix _ _) ht)
    (fun t ht name hasks => ⟨u, hgrown, t, List.mem_of_mem_take ht, hasks⟩)
    (fun t ht name => hapart u hgrown t (List.mem_of_mem_take ht) name) signal hall
  obtain ⟨s', hemitted, hsignals', hundecided⟩ :=
    halike.emitInTurn [] (s := ⟨stage.state.host, stage.signals⟩) rfl
  obtain ⟨acc', hall', hentries'⟩ := hemitted.resolveAll_eq {} rfl
  rw [htokens, hall] at hall'
  cases hall'
  obtain ⟨hitems, hruns⟩ := e.plan_stage .hierarchical (u.map (·.token m)) stage
  have hstage : (e.plan .hierarchical (u.map (·.token m)) stage).2 = stage' :=
    congrArg Prod.snd hplan
  rw [hstage] at hitems hruns
  refine ⟨emitted, hroot, hentries.trans hentries', ?_, hsignals.trans hsignals', ?_, halike,
    hunits, fun r => ?_⟩
  · simp only [View.stage, View.ofUnits, Function.comp_apply, hhost, hundecided, hsignals, hsignals',
      hitems]
  · rw [World.nextRun, World.nextRun, hruns]
  · rw [htouredAs.pass_eq (e.tour (u.map (·.token m))) rfl rfl, htokens]
    exact (bind_congr Progress.onward_pure).trans (bind_pure _)

/-- Where no node sets a variable that a branch may read, a plan and a run token by token agree. -/
theorem decides_early (hgraph : ∃ id name edits, Graph.ofEdits id name edits = m.graph)
    (hlib : m.OfLibrary) {start : String} {tree : TokenTree (Token Desk)}
    (htree : m.tokenTree start = .ok tree) (hapart : m.SetsApart start) {e : Engine}
    {stage stage' : RunStage Desk} {planned : Compiled Desk}
    (hcompile : (e.withStrategy .hierarchical).compile tree stage = (.ok planned, stage'))
    (first : planned.Unspent { stage := stage' }) {signal : Signal}
    (quiet : stage.signals.has signal = false) {others : Company (World Desk) Report}
    (hothers : others.Respects (View.ofUnits Desk.undecided))
    (hkeeps : others.Keeps (Desk.kept (m.AsksFrom start) ∘ World.host))
    (hspares : others.Spares signal) : ∃ toured,
      (e.withStrategy .immediate).compile tree stage = (.ok toured, stage) ∧
      Scene.SameCourse e.sink ((planned.execute signal).play others { stage := stage' })
        ((toured.execute signal).play others { stage }) := by
  have hwf := Graph.WellFormed.of_edited hgraph
  have hplans : (e.withStrategy .hierarchical).config.strategy ≠ .immediate := fun h => by cases h
  have hmade := Engine.compile_made hcompile
  obtain ⟨p, rfl, hplan⟩ := Engine.plan_of_compile hplans hcompile
  obtain ⟨emitted, h⟩ := foreseen hwf hlib htree hapart hplan signal
  let tour := (e.withStrategy .immediate).tour tree
  have hcompiled : (e.withStrategy .immediate).compile tree stage = (.ok (.tour tour), stage) := by
    change (tree.start.map fun _ => Compiled.tour tour, stage) = _
    rw [TokenTree.start_eq_ok_iff.mpr h.root]
    rfl
  refine ⟨_, hcompiled, ?_⟩
  -- Without a cancellation the two runs end in the same way, and come to their ends.
  obtain ⟨hseen, hend⟩ := Plan.agrees_with_tour tour h.alike (fun e he => (h.units e he).1)
    h.entries hmade.sink hmade.surfaceFailures h.pass hothers hkeeps first h.shows rfl
  obtain ⟨told, final, hplanned, hspared⟩ := Plan.ends_of_tame (p := p)
    (fun e he => (h.units e (h.entries ▸ he)).2) hspares first (h.quiet ▸ quiet)
  have hend := hend.resolve_right (by
    rw [hplanned, hspared]
    exact Bool.false_ne_true)
  obtain ⟨htold, -⟩ := hend
  cases htoured : (tour.execute signal).play others { stage } with
  | mk told' final' =>
    rw [hplanned, htoured] at htold hseen
    obtain rfl : some told = told' := htold
    have hready : (Compiled.tour tour).Ready { stage } :=
      (Engine.compile_made hcompiled).ready _ True.intro
    have hrun := Compiled.run_of_sent (hmade.ready _ first) hplanned
    have hrun' := Compiled.run_of_sent hready htoured
    have hsink : (Compiled.plan p).sink = e.sink := hmade.sink
    rw [h.runs, hsink] at hrun
    have hseen : Scene.SameUnits Desk.undecided e.sink final final' := hsink ▸ hseen
    have hplanned' : ((Compiled.plan p).execute signal).play others { stage := stage' } =
      (some told, final) := hplanned
    have htoured' : ((Compiled.tour tour).execute signal).play others { stage } =
      (some told, final') := htoured
    rw [hplanned', htoured']
    exact ⟨nofun, rfl, hseen.filter_unit_eq hrun hrun', hseen.host⟩

/-- A node that sets one variable, and then a branch that reads another one
and leads to a printing node. -/
def minding : Model where
  graph :=
    { id := "minding", name := "Minding"
      nodes := [Library.constant "one", Library.setVariable "keep", Library.getVariable "flag",
        Library.branch "ask", Library.print "say"]
      connections := [⟨"one", "one.value", "keep", "keep.value"⟩,
        ⟨"keep", "keep.next", "ask", "ask.exec"⟩, ⟨"flag", "flag.value", "ask", "ask.condition"⟩,
        ⟨"ask", "ask.true", "say", "say.exec"⟩] }
  behaviours := [("one", .constant (.bool true)), ("keep", .setVariable "count"),
    ("flag", .getVariable "flag"), ("ask", .branch), ("say", .print)]

theorem ofLibrary_minding : minding.OfLibrary := by
  intro n hn
  simp only [minding, List.mem_cons, List.not_mem_nil, or_false] at hn
  rcases hn with rfl | rfl | rfl | rfl | rfl
  · exact ⟨_, rfl, .constant "one" .any (.bool true)⟩
  · exact ⟨_, rfl, .setVariable "keep" "count"⟩
  · exact ⟨_, rfl, .getVariable "flag" "flag"⟩
  · exact ⟨_, rfl, .branch "ask"⟩
  · exact ⟨_, rfl, .print "say"⟩

theorem setsApart_minding : minding.SetsApart "keep" := by
  have hnamed : ∀ {id b}, minding.behaviour? id = some b → b ≠ .add ∧
      (∀ name, b = .setVariable name → name = "count") ∧ ∀ name, b = .getVariable name → name = "flag" := by
    intro id b h
    have hmem : (id, b) ∈ minding.behaviours := by
      obtain ⟨before, rest, hentries, -⟩ := List.lookup_eq_some_iff.mp h
      rw [hentries]
      exact List.mem_append_right _ List.mem_cons_self
    simp only [minding, List.mem_cons, Prod.mk.injEq, List.not_mem_nil, or_false] at hmem
    rcases hmem with ⟨-, rfl⟩ | ⟨-, rfl⟩ | ⟨-, rfl⟩ | ⟨-, rfl⟩ | ⟨-, rfl⟩ <;> simp [eq_comm]
  rintro u - t - name hsets ⟨v, -, t', -, -, n, p, -, -, hreads⟩
  obtain rfl : name = "count" := (hnamed hsets).2.1 name rfl
  cases hreads with
  | ofVariable _ hbehaviour => exact absurd ((hnamed hbehaviour).2.2 "count" rfl) (by decide)
  | ofSum _ _ hbehaviour => exact (hnamed hbehaviour).1 rfl

theorem minding_decides_early :
    let e : Engine := { config := { maxTokens := 3 }, sink := .recorder }
    let stage : RunStage Desk :=
      { state := { host := { board := { entries := [("flag", .bool true)] } } } }
    ∃ tree planned stage' toured, minding.tokenTree "keep" = .ok tree ∧
      (e.withStrategy .hierarchical).compile tree stage = (.ok planned, stage') ∧
      (e.withStrategy .immediate).compile tree stage = (.ok toured, stage) ∧
      Scene.SameCourse .recorder ((planned.execute 0).play .nobody { stage := stage' })
        ((toured.execute 0).play .nobody { stage }) := by
  intro e stage
  have hedits : Graph.ofEdits "minding" "Minding"
      [.addNode (Library.constant "one"), .addNode (Library.setVariable "keep"),
        .addNode (Library.getVariable "flag"), .addNode (Library.branch "ask"),
        .addNode (Library.print "say"), .connect ⟨"one", "one.value", "keep", "keep.value"⟩,
        .connect ⟨"keep", "keep.next", "ask", "ask.exec"⟩,
        .connect ⟨"flag", "flag.value", "ask", "ask.condition"⟩,
        .connect ⟨"ask", "ask.true", "say", "say.exec"⟩] = minding.graph := by decide +kernel
  have hcompiles : (minding.tokenTree "keep").map (fun tree =>
      match (e.withStrategy .hierarchical).compile tree stage with
      | (.ok _, s) => s.state.spent.isEmpty
      | (.error _, _) => false) = .ok true := by decide +kernel
  cases htree : minding.tokenTree "keep" with
  | error f =>
    rw [htree] at hcompiles
    cases hcompiles
  | ok tree =>
    rw [htree] at hcompiles
    cases hcompile : (e.withStrategy .hierarchical).compile tree stage with
    | mk result stage' =>
      have hcompiles := Except.ok.inj hcompiles
      dsimp only at hcompiles
      rw [hcompile] at hcompiles
      cases result with
      | error f => cases hcompiles
      | ok planned =>
        have hspent : stage'.state.spent = [] := List.isEmpty_iff.mp hcompiles
        have hfirst : planned.Unspent { stage := stage' } := by
          cases planned with
          | plan p => simp [Compiled.Unspent, hspent]
          | tour t => exact True.intro
        have hothers : (Company.nobody : Company (World Desk) Report).Respects
            (View.ofUnits Desk.undecided) := fun _ _ h => congrArg (·.1) h
        obtain ⟨toured, htoured, hsame⟩ := decides_early ⟨_, _, _, hedits⟩ ofLibrary_minding htree
          setsApart_minding hcompile hfirst rfl hothers (fun _ _ => rfl) (fun _ _ h => h)
        exact ⟨tree, planned, stage', toured, rfl, hcompile, htoured, hsame⟩

end Model

end Flowchart
