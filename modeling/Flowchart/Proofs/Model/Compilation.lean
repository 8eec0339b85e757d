import Flowchart.Proofs.Model.Simulation
import Flowchart.Proofs.Walk.Built

/-! Compiling the flow of a model to a token tree and running it token by token has the effects of
interpreting the flow directly. -/
namespace Flowchart

namespace Model

variable {m : Model}

theorem Interprets.uncancelled (hlib : m.OfLibrary) {ids : List String} {d : Desk}
    {p : Performance Unit} (h : m.Interprets ids d p) {f : Fault} (hf : p.outcome = .error f) :
    f.isCancelled = false := by
  induction h with
  | nil => cases hf
  | fails node behaviour performs =>
    cases hf
    exact Behaviour.perform_uncancelled hlib (hlib.declares node behaviour) performs
  | stops _ _ _ _ ih => exact ih hf
  | goes _ _ _ _ _ _ ih => exact ih hf

/-- A run of a model's token tree attends to the nodes' tokens in the order
in which they were laid. -/
theorem pass_tokenTree {start : String} {tree : TokenTree (Token Desk)}
    (h : m.tokenTree start = .ok tree) {tour : Tour Desk} (ht : tour.tree = tree)
    (hlimit : tree.size ≤ tour.limit) (r : Reporter) (signal : Signal) :
    ∃ tokens, m.graph.Laid m.graph.nodes [{ node := start }] tokens ∧
      tour.pass r signal = r.attend signal (tokens.map (·.token m)) 0 := by
  unfold tokenTree at h
  cases hgrown : m.graph.tokenTree start with
  | error f =>
    rw [hgrown] at h
    cases h
  | ok t =>
    rw [hgrown] at h
    cases h
    obtain ⟨hclosed, hroot, hlaid, hitinerary⟩ := Graph.tokenTree_walk hgrown
    refine ⟨t.tokens, hlaid, ?_⟩
    have hvisits : ∀ k, (t.map (·.token m)).itinerary .immediate k =
        if k < (t.map (·.token m)).size then some k else none := by
      intro k
      rw [TokenTree.itinerary_map, TokenTree.size_map, hitinerary]
    obtain ⟨hends, htokens⟩ := TokenTree.endsAt_size hvisits hlimit
    have hroot' : (t.map (·.token m)).root = some 0 := hroot
    rw [(hends.touredAs (hclosed.map _) hroot').pass_eq tour ht rfl, htokens, TokenTree.tokens_map]
    exact (bind_congr Progress.onward_pure).trans (bind_pure _)

/-- A run token by token has just the effects of interpreting the flow
directly, but for the decisions noted. -/
theorem execute_interprets {m : Model} (hgraph : ∃ id name edits, Graph.ofEdits id name edits = m.graph)
    (hlib : m.OfLibrary) {start : String} {tree : TokenTree (Token Desk)}
    (htree : m.tokenTree start = .ok tree) (tour : Tour Desk) (ht : tour.tree = tree)
    (hlimit : tree.size ≤ tour.limit) (signal : Signal) (stage : RunStage Desk)
    (hquiet : stage.signals.has signal = false) :
    let r : Reporter := { run := s!"flow-run-{stage.state.runsBegun + 1}", sink := tour.sink,
                          surfaceFailures := tour.surfaceFailures }
    ∃ p : Performance Unit, (∀ q, m.Interprets [start] stage.state.host q ↔ q = p) ∧
      ∃ sc, (tour.execute signal).play .nobody { stage } = (some (r.answer p.outcome), sc) ∧
        sc.deeds.filterMap Deed.effect? = p.effects ++ r.closing p.outcome ∧
        sc.stage.state.host = { p.desk with decisions := sc.stage.state.host.decisions } ∧
        sc.stage.signals = stage.signals := by
  intro r
  have hwf : m.graph.WellFormed := by
    obtain ⟨id, name, edits, hedits⟩ := hgraph
    exact hedits ▸ Graph.WellFormed.ofEdits id name edits
  obtain ⟨tokens, hlaid, hpass⟩ := pass_tokenTree htree ht hlimit r signal
  have hsettled : ∀ a ∈ [{ node := start : Arrival }], m.Settled m.graph.nodes a := by
    intro a ha guard hguard
    rw [List.mem_singleton] at ha
    subst ha
    cases hguard
  obtain ⟨started, p, d, hyields, hinterprets, hdesk⟩ := simulates hwf hlib hlaid (fun n hn => hn)
    hsettled stage.state.host.decisions r signal stage.state.host 0
  have hstart : m.Interprets [start] stage.state.host p := hinterprets
  refine ⟨p, fun q => ⟨fun hq => hq.unique hstart, fun hq => hq ▸ hstart⟩, ?_⟩
  have hfinish := hyields.bind (.finish (r := r) fun f hf => hstart.uncancelled hlib hf)
  rw [← hpass] at hfinish
  -- Announcing the run counts it in the book, which units do not see.
  let announced : Scene (World Desk) Report :=
    { stage := { stage with
        state := { stage.state with runsBegun := stage.state.runsBegun + 1 }
        items := stage.items.push (.event tour.sink (.runStarted r.run Strategy.immediate.name)) }
      deeds := [.put (.event tour.sink (.runStarted r.run Strategy.immediate.name))] }
  have hannounced : (Reporter.start .immediate tour.sink tour.surfaceFailures).play .nobody { stage } =
      (some r, announced) := rfl
  obtain ⟨sc, hplay, hsignals, hstate, hdeeds⟩ := hfinish announced hquiet rfl
  refine ⟨sc, ?_, hdeeds, ?_, hsignals⟩
  · rw [Tour.execute_eq, Activity.play_bind, hannounced]
    exact hplay
  · rw [hstate, ← hdesk]
    rfl

/-- A branch whose condition is true, with a node that prints behind its port for that. -/
def asking : Model where
  graph :=
    { id := "asking", name := "Asking"
      nodes := [Library.constant "yes" .boolean, Library.branch "ask", Library.print "say"]
      connections := [⟨"yes", "yes.value", "ask", "ask.condition"⟩,
        ⟨"ask", "ask.true", "say", "say.exec"⟩] }
  behaviours := [("yes", .constant (.bool true)), ("ask", .branch), ("say", .print)]

theorem ofLibrary_asking : asking.OfLibrary := by
  intro n hn
  simp only [asking, List.mem_cons, List.not_mem_nil, or_false] at hn
  rcases hn with rfl | rfl | rfl
  · exact ⟨_, rfl, .constant "yes" .boolean (.bool true)⟩
  · exact ⟨_, rfl, .branch "ask"⟩
  · exact ⟨_, rfl, .print "say"⟩

theorem interprets_asking (d : Desk) : asking.Interprets ["ask"] d
    ⟨[.began "say", .logged ⟨.info, "[say] "⟩], .ok (), d.print ""⟩ := by
  have hask : asking.graph.node? "ask" = some (Library.branch "ask") := rfl
  have hsay : asking.graph.node? "say" = some (Library.print "say") := rfl
  have hchooses : Behaviour.branch.perform asking (Library.branch "ask") d =
      ⟨[], .ok (some true), d⟩ := rfl
  have hprints : Behaviour.print.perform asking (Library.print "say") d =
      ⟨[.began "say", .logged ⟨.info, "[say] "⟩], .ok none, d.print ""⟩ := rfl
  have hfollowed : asking.followed (Library.branch "ask") (some true) = ["say"] := rfl
  have hlast : asking.followed (Library.print "say") none = [] := rfl
  have hlater : asking.Interprets (asking.followed (Library.print "say") none) (d.print "")
      ⟨[], .ok (), d.print ""⟩ := by
    rw [hlast]
    exact .nil
  have hinner : asking.Interprets (asking.followed (Library.branch "ask") (some true)) d
      ⟨[.began "say", .logged ⟨.info, "[say] "⟩], .ok (), d.print ""⟩ := by
    rw [hfollowed]
    exact .goes (p := ⟨[], .ok (), d.print ""⟩) hsay rfl hprints hlater .nil
  exact .goes (p := ⟨[], .ok (), d.print ""⟩) hask rfl hchooses hinner .nil

theorem asking_runs : ∃ tree sc, asking.tokenTree "ask" = .ok tree ∧
    (({ tree, limit := 2, sink := .discard, surfaceFailures := true } : Tour Desk).execute 0).play
      .nobody { stage := { state := { host := {} } } } = (some (.ok ()), sc) ∧
    sc.deeds.filterMap Deed.effect? = [.began "say", .logged ⟨.info, "[say] "⟩] ∧
    sc.stage.state.host.lines = #[""] := by
  have hedits : Graph.ofEdits "asking" "Asking"
      [.addNode (Library.constant "yes" .boolean), .addNode (Library.branch "ask"),
        .addNode (Library.print "say"), .connect ⟨"yes", "yes.value", "ask", "ask.condition"⟩,
        .connect ⟨"ask", "ask.true", "say", "say.exec"⟩] = asking.graph := by decide +kernel
  have hsize : (asking.tokenTree "ask").map TokenTree.size = .ok 2 := by
    decide +kernel
  cases htree : asking.tokenTree "ask" with
  | error f =>
    rw [htree] at hsize
    cases hsize
  | ok tree =>
    rw [htree] at hsize
    obtain ⟨p, hp, sc, hplay, heffects, hdesk, _⟩ := execute_interprets ⟨_, _, _, hedits⟩
      ofLibrary_asking htree { tree, limit := 2, sink := .discard, surfaceFailures := true } rfl
      (Nat.le_of_eq (Except.ok.inj hsize)) 0 { state := { host := {} } } rfl
    obtain rfl := (hp _).mp (interprets_asking {})
    exact ⟨tree, sc, rfl, hplay, heffects, congrArg Desk.lines hdesk⟩

end Model

end Flowchart
