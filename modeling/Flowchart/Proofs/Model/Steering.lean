import Flowchart.Proofs.Model.Compilation
import Flowchart.Proofs.Model.Passes

/-! Passes over the token tree of a model, to make a plan or to run it token by token. Each pass
selects the sides of branches for itself, and does the same whatever was decided before. -/
namespace Flowchart

open Activity (Twin)

namespace Model

variable {m : Model}

section Runs

variable {r : Reporter} {signal : Signal} {w w' : World Desk}

theorem halt_twin (stop : Option Fault) (n : Nat) :
    Twin View.undecided (Desk.decisions ∘ World.host)
      (Reporter.halt signal stop n : RunActivity Desk Progress) w (Reporter.halt signal stop n) w' := by
  cases stop with
  | none => exact .done
  | some f =>
    refine .poll fun fired => ?_
    cases fired with
    | true => exact .done
    | false => exact .done

theorem finish_twin (p : Progress) : Twin View.undecided (Desk.decisions ∘ World.host)
    (r.finish p : RunActivity Desk Outcome) w (r.finish p) w' := by
  obtain ⟨n, f | _⟩ := p
  · unfold Reporter.finish
    dsimp only
    split
    · exact .emit rfl (.emit rfl .done)
    · split
      · exact .emit rfl (.emit rfl .done)
      · exact .emit rfl (.emit rfl .done)
  · exact .emit rfl .done

end Runs

def afterDecisions (stage : RunStage Desk) (decisions : List (String × Bool)) : RunStage Desk :=
  { stage with state := { stage.state with host := stage.state.host.withDecisions decisions } }

/-- The passes over a tree visit these tokens, and each resolves just what it has chosen itself. -/
structure Steers (m : Model) (tree : TokenTree (Token Desk)) (limit : Nat) (tokens : List NodeToken)
    (stop : Option Fault) : Prop where
  planned : tree.PlannedAs .hierarchical limit (tokens.map (·.token m)) stop
  toured : tree.TouredAs limit (tokens.map (·.token m)) stop
  turn : ∀ t ∈ tokens, ∀ acc d signals, ∃ opens, m.allOpen d t.guards = .ok opens ∧
    (t.token m).resolve.run acc d signals =
      if opens then (m.resolve t.node).run acc d signals else (.ok (), acc, d, signals)
  gathers : ∀ s, m.Selects tokens (m.gatherDesks tokens s)
  attends : ∀ r signal others sc, others.Respects View.undecided →
    others.Keeps (Desk.decisions ∘ World.host) →
      m.Selects tokens (m.attendDesks tokens r signal others sc)
  plan_again : ∀ (e : Engine) stage decisions, e.config.maxTokens = limit →
    let again := afterDecisions stage decisions
    (e.plan .hierarchical tree again).1 = (e.plan .hierarchical tree stage).1 ∧
      ∀ k, m.Resolves tokens (m.gatherDesks tokens ⟨again.state.host, again.signals⟩) k ↔
        m.Resolves tokens (m.gatherDesks tokens ⟨stage.state.host, stage.signals⟩) k
  tour_again : ∀ (tour : Tour Desk) signal others stage decisions, tour.tree = tree →
    tour.limit = limit → others.Respects View.undecided →
    others.Keeps (Desk.decisions ∘ World.host) →
    let again := afterDecisions stage decisions
    let r : Reporter := ⟨stage.state.nextRun, tour.sink, tour.surfaceFailures⟩
    let begun (stage : RunStage Desk) := (Scene.mk stage []).announced .immediate tour.sink
    PlayedAlike ((tour.execute signal).play others { stage := again })
        ((tour.execute signal).play others { stage }) ∧
      ∀ k, m.Resolves tokens (m.attendDesks tokens r signal others (begun again)) k ↔
        m.Resolves tokens (m.attendDesks tokens r signal others (begun stage)) k

/-- A walk of a tree grown from a start visits its first tokens in order, as
many as the limit allows. -/
theorem endsAt_first {start : String} {u : TokenTree NodeToken}
    (h : m.graph.tokenTree start = .ok u) (limit : Nat) : ∃ k stop, ∀ strategy,
      strategy ≠ .linear → (u.map (·.token m)).EndsAt strategy limit k stop ∧
        (u.map (·.token m)).tokensAt ((u.map (·.token m)).past strategy k) =
          (u.tokens.take limit).map (·.token m) := by
  obtain ⟨-, -, -, hitinerary⟩ := Graph.tokenTree_walk h
  have hvisits : ∀ strategy, strategy ≠ .linear → ∀ k,
      (u.map (·.token m)).itinerary strategy k =
        if k < (u.map (·.token m)).size then some k else none := by
    intro strategy hstrategy k
    rw [TokenTree.itinerary_map, TokenTree.size_map, ← hitinerary]
    cases strategy with
    | linear => exact absurd rfl hstrategy
    | hierarchical => exact TokenTree.itinerary_hierarchical k
    | immediate => rfl
  rcases Nat.lt_or_ge limit u.size with hlt | hle
  · refine ⟨limit, some (.tokenLimit limit), fun strategy hstrategy => ?_⟩
    have hends := TokenTree.endsAt_limit (hvisits strategy hstrategy)
      (hlt.trans_eq (TokenTree.size_map _).symm)
    rwa [TokenTree.tokens_map, ← List.map_take] at hends
  · refine ⟨u.size, none, fun strategy hstrategy => ?_⟩
    have hends := TokenTree.endsAt_size (hvisits strategy hstrategy)
      ((TokenTree.size_map _).trans_le hle)
    rw [List.take_of_length_le (by rw [TokenTree.length_tokens]; exact hle), ← TokenTree.tokens_map]
    rwa [TokenTree.size_map] at hends

/-- A plan and a run token by token go over the same tokens, and stop after them in the same way. -/
theorem passes_first {start : String} {u : TokenTree NodeToken}
    (h : m.graph.tokenTree start = .ok u) (limit : Nat) : ∃ stop,
      (u.map (·.token m)).PlannedAs .hierarchical limit ((u.tokens.take limit).map (·.token m)) stop ∧
      (u.map (·.token m)).TouredAs limit ((u.tokens.take limit).map (·.token m)) stop := by
  obtain ⟨hclosed, hroot, -⟩ := Graph.tokenTree_walk h
  obtain ⟨k, stop, hends⟩ := endsAt_first h limit
  have hclosed' := hclosed.map (·.token m)
  have hroot' : (u.map (·.token m)).root = some 0 := hroot
  obtain ⟨hplanned, hplaces⟩ := hends .hierarchical nofun
  obtain ⟨htoured, hplaces'⟩ := hends .immediate nofun
  exact ⟨stop, hplaces ▸ hplanned.plannedAs hclosed' hroot', hplaces' ▸ htoured.touredAs hclosed' hroot'⟩

theorem grown_of_tokenTree {start : String} {tree : TokenTree (Token Desk)}
    (h : m.tokenTree start = .ok tree) :
    ∃ u, m.graph.tokenTree start = .ok u ∧ tree = u.map (·.token m) := by
  unfold tokenTree at h
  cases hgrown : m.graph.tokenTree start with
  | error f =>
    rw [hgrown] at h
    cases h
  | ok u =>
    rw [hgrown] at h
    cases h
    exact ⟨u, rfl, rfl⟩

/-- A plan is made in the same way again when the tokens are resolved in the same way. -/
theorem plan_alike {tree : TokenTree (Token Desk)} {k : Nat} {stop : Option Fault} {e : Engine}
    (hends : tree.EndsAt .hierarchical e.config.maxTokens k stop) (hclosed : tree.Closed)
    {root : TokenId} (hroot : tree.root = some root) {stage : RunStage Desk}
    {decisions : List (String × Bool)}
    (h : GatheredAlike
      (Token.resolveAll (tree.tokensAt (tree.past .hierarchical k)) {}
        ⟨(afterDecisions stage decisions).state.host, (afterDecisions stage decisions).signals⟩)
      (Token.resolveAll (tree.tokensAt (tree.past .hierarchical k)) {}
        ⟨stage.state.host, stage.signals⟩)) :
    (e.plan .hierarchical tree (afterDecisions stage decisions)).1 =
      (e.plan .hierarchical tree stage).1 := by
  have hgather := fun s => hends.gather_eq hclosed {} s
  simp only [hroot, Option.toList_some] at hgather
  unfold Engine.plan
  rw [TokenTree.start_eq_ok_iff.mpr hroot]
  dsimp only
  rw [hgather, hgather]
  generalize Token.resolveAll (tree.tokensAt (tree.past .hierarchical k)) {}
    ⟨(afterDecisions stage decisions).state.host, (afterDecisions stage decisions).signals⟩ = x at h
  generalize Token.resolveAll (tree.tokensAt (tree.past .hierarchical k)) {}
    ⟨stage.state.host, stage.signals⟩ = y at h
  obtain ⟨result, s⟩ := x
  obtain ⟨result', s'⟩ := y
  obtain ⟨hresult, -, -⟩ := h
  obtain rfl : result = result' := hresult
  cases result with
  | error f => rfl
  | ok acc => cases stop <;> rfl

/-- A run does the same again when it attends to the tokens in the same way. -/
theorem tour_alike {tree : TokenTree (Token Desk)} {limit : Nat} {visited : List (Token Desk)}
    {stop : Option Fault} (htoured : tree.TouredAs limit visited stop)
    {others : Company (World Desk) Report} (hothers : others.Respects View.undecided)
    (hkeeps : others.Keeps (Desk.decisions ∘ World.host)) {tour : Tour Desk} (ht : tour.tree = tree)
    (hlimit : tour.limit = limit) {signal : Signal} {stage : RunStage Desk}
    {decisions : List (String × Bool)} {r : Reporter}
    (hr : r = ⟨stage.state.nextRun, tour.sink, tour.surfaceFailures⟩)
    (h : PlayedAlike
      ((r.attend signal visited 0).play others
        ((Scene.mk (afterDecisions stage decisions) []).announced .immediate tour.sink))
      ((r.attend signal visited 0).play others
        ((Scene.mk stage []).announced .immediate tour.sink))) :
    PlayedAlike ((tour.execute signal).play others { stage := afterDecisions stage decisions })
      ((tour.execute signal).play others { stage }) := by
  have hplay : ∀ stage : RunStage Desk, stage.state.nextRun = r.run →
      (tour.execute signal).play others { stage } =
        ((r.attend signal visited 0 >>= Progress.onward (Reporter.halt signal stop)) >>=
          r.finish).play others ((Scene.mk stage []).announced .immediate tour.sink) := by
    intro stage hrun
    rw [Tour.execute_eq, Activity.play_bind, Reporter.play_start]
    dsimp only
    rw [hrun, ← htoured.pass_eq tour ht hlimit r signal, hr]
  rw [hplay (afterDecisions stage decisions) (hr ▸ rfl), hplay stage (hr ▸ rfl)]
  refine .bind (.bind h fun p sc₁ sc₁' _ _ same => ?_) fun p sc₁ sc₁' _ _ same => ?_
  · obtain ⟨n, f | _⟩ := p
    · exact ⟨rfl, same⟩
    · exact .of_twin hothers hkeeps (fun _ _ _ => halt_twin stop n) same
  · exact .of_twin hothers hkeeps (fun _ _ _ => finish_twin p) same

section Again

variable {tokens : List NodeToken} {tree : TokenTree (Token Desk)} {stop : Option Fault}

/-- A plan is made in the same way after other decisions, from the same tokens. -/
theorem plan_again (hlib : m.OfLibrary) (hplaced : ∀ t ∈ tokens, t.Placed m)
    (hgathers : ∀ s, m.Selects tokens (m.gatherDesks tokens s)) {k : Nat} {e : Engine}
    (hends : tree.EndsAt .hierarchical e.config.maxTokens k stop) (hclosed : tree.Closed)
    (hroot : tree.root = some 0)
    (hplaces : tree.tokensAt (tree.past .hierarchical k) = tokens.map (·.token m))
    (stage : RunStage Desk) (decisions : List (String × Bool)) :
    let again := afterDecisions stage decisions
    (e.plan .hierarchical tree again).1 = (e.plan .hierarchical tree stage).1 ∧
      ∀ k, m.Resolves tokens (m.gatherDesks tokens ⟨again.state.host, again.signals⟩) k ↔
        m.Resolves tokens (m.gatherDesks tokens ⟨stage.state.host, stage.signals⟩) k := by
  intro again
  let s : Setting Desk := ⟨stage.state.host, stage.signals⟩
  let s' : Setting Desk := ⟨again.state.host, again.signals⟩
  have hdesk : s'.host.undecided = s.host.undecided := rfl
  have hsignals : s'.signals = s.signals := rfl
  have hall := gathered_alike hlib hplaced hgathers hdesk hsignals tokens.length
  rw [List.take_length, ← hplaces] at hall
  refine ⟨plan_alike hends hclosed hroot hall, ?_⟩
  exact (hgathers s').resolves_congr hlib (hgathers s)
    (gatherDesks_alike hlib hplaced hgathers hdesk hsignals)

/-- A run does the same after other decisions, with the same tokens. -/
theorem tour_again (hlib : m.OfLibrary) (hplaced : ∀ t ∈ tokens, t.Placed m)
    {others : Company (World Desk) Report} (hothers : others.Respects View.undecided)
    (hkeeps : others.Keeps (Desk.decisions ∘ World.host)) {tour : Tour Desk} {signal : Signal}
    (hattends : ∀ r sc, m.Selects tokens (m.attendDesks tokens r signal others sc))
    (htoured : tree.TouredAs tour.limit (tokens.map (·.token m)) stop) (ht : tour.tree = tree)
    (stage : RunStage Desk) (decisions : List (String × Bool)) :
    let again := afterDecisions stage decisions
    let r : Reporter := ⟨stage.state.nextRun, tour.sink, tour.surfaceFailures⟩
    let begun (stage : RunStage Desk) := (Scene.mk stage []).announced .immediate tour.sink
    PlayedAlike ((tour.execute signal).play others { stage := again })
        ((tour.execute signal).play others { stage }) ∧
      ∀ k, m.Resolves tokens (m.attendDesks tokens r signal others (begun again)) k ↔
        m.Resolves tokens (m.attendDesks tokens r signal others (begun stage)) k := by
  intro again r begun
  have hbegun : View.undecided.scene (begun again) = View.undecided.scene (begun stage) := rfl
  have hattended := attended_alike hothers hkeeps hlib hplaced (hattends r) hbegun tokens.length
  rw [List.take_length] at hattended
  refine ⟨tour_alike htoured hothers hkeeps ht rfl rfl hattended, ?_⟩
  exact (hattends r _).resolves_congr hlib (hattends r _)
    (attendDesks_alike hothers hkeeps hlib hplaced (hattends r) hbegun)

end Again

/-- In every pass just the nodes on the sides that branches have chosen in
this pass are resolved. -/
theorem steers (hgraph : ∃ id name edits, Graph.ofEdits id name edits = m.graph)
    (hlib : m.OfLibrary) {start : String} {tree : TokenTree (Token Desk)}
    (htree : m.tokenTree start = .ok tree) (limit : Nat) :
    ∃ u stop, m.graph.tokenTree start = .ok u ∧ m.Steers tree limit (u.tokens.take limit) stop := by
  have hwf : m.graph.WellFormed := by
    obtain ⟨id, name, edits, hedits⟩ := hgraph
    exact hedits ▸ Graph.WellFormed.ofEdits id name edits
  unfold tokenTree at htree
  cases hgrown : m.graph.tokenTree start with
  | error f =>
    rw [hgrown] at htree
    cases htree
  | ok u =>
    rw [hgrown] at htree
    cases htree
    obtain ⟨hclosed, hroot, hlaid, -⟩ := Graph.tokenTree_walk hgrown
    obtain ⟨k, stop, hends⟩ := endsAt_first hgrown limit
    have hclosed' := hclosed.map (·.token m)
    have hroot' : (u.map (·.token m)).root = some 0 := hroot
    obtain ⟨hplanned, hplaces⟩ := hends .hierarchical nofun
    obtain ⟨htoured, hplaces'⟩ := hends .immediate nofun
    have htouredAs := htoured.touredAs hclosed' hroot'
    rw [hplaces'] at htouredAs
    -- What a pass over these tokens selects follows from the turns it takes.
    have hfirst : u.tokens.take limit <+: u.tokens := List.take_prefix _ _
    have hplaced : ∀ t ∈ u.tokens.take limit, t.Placed m := fun t => placed hwf hlaid hfirst
    have hgathers : ∀ s, m.Selects (u.tokens.take limit) (m.gatherDesks (u.tokens.take limit) s) :=
      fun s => selects hwf hlib hlaid hfirst (gather_takesTurns hlib hplaced s)
    have hattends : ∀ r signal others sc, others.Respects View.undecided →
        others.Keeps (Desk.decisions ∘ World.host) →
        m.Selects (u.tokens.take limit) (m.attendDesks (u.tokens.take limit) r signal others sc) :=
      fun r signal others sc hothers hkeeps =>
        selects hwf hlib hlaid hfirst (attend_takesTurns hothers hkeeps hlib hplaced)
    refine ⟨u, stop, rfl, ?_⟩
    constructor
    case planned =>
      have hplannedAs := hplanned.plannedAs hclosed' hroot'
      rwa [hplaces] at hplannedAs
    case toured => exact htouredAs
    case turn =>
      intro t ht acc d signals
      have hall := allOpen_eq (hplaced t ht).guards d
      refine ⟨m.opens d t.guards, hall, ?_⟩
      rw [NodeToken.run_guarded, hall]
      cases m.opens d t.guards <;> rfl
    case gathers => exact hgathers
    case attends => exact hattends
    case plan_again =>
      rintro e stage decisions rfl
      exact plan_again hlib hplaced hgathers hplanned hclosed' hroot' hplaces stage decisions
    case tour_again =>
      rintro tour signal others stage decisions ht rfl hothers hkeeps
      exact tour_again hlib hplaced hothers hkeeps
        (fun r sc => hattends r signal others sc hothers hkeeps) htouredAs ht stage decisions

/-- A branch whose condition is false, with another one behind its other
port, which a printing node follows. -/
def doubting : Model where
  graph :=
    { id := "doubting", name := "Doubting"
      nodes := [Library.constant "no" .boolean, Library.branch "ask", Library.branch "again",
        Library.print "say"]
      connections := [⟨"no", "no.value", "ask", "ask.condition"⟩,
        ⟨"ask", "ask.true", "again", "again.exec"⟩, ⟨"again", "again.true", "say", "say.exec"⟩] }
  behaviours := [("no", .constant (.bool false)), ("ask", .branch), ("again", .branch),
    ("say", .print)]

theorem ofLibrary_doubting : doubting.OfLibrary := by
  intro n hn
  simp only [doubting, List.mem_cons, List.not_mem_nil, or_false] at hn
  rcases hn with rfl | rfl | rfl | rfl
  · exact ⟨_, rfl, .constant "no" .boolean (.bool false)⟩
  · exact ⟨_, rfl, .branch "ask"⟩
  · exact ⟨_, rfl, .branch "again"⟩
  · exact ⟨_, rfl, .print "say"⟩

theorem doubting_steers : ∃ tree, ∃ u : TokenTree NodeToken, ∃ stop, doubting.tokenTree "ask" = .ok tree ∧
    doubting.Steers tree 3 (u.tokens.take 3) stop ∧
    u.tokens[2]? = some ⟨"say", [("ask", "ask.true"), ("again", "again.true")]⟩ ∧
    ∀ decisions, ¬ doubting.Resolves (u.tokens.take 3)
      (doubting.gatherDesks (u.tokens.take 3) ⟨{ decisions }, {}⟩) 2 := by
  have hedits : Graph.ofEdits "doubting" "Doubting"
      [.addNode (Library.constant "no" .boolean), .addNode (Library.branch "ask"),
        .addNode (Library.branch "again"), .addNode (Library.print "say"),
        .connect ⟨"no", "no.value", "ask", "ask.condition"⟩,
        .connect ⟨"ask", "ask.true", "again", "again.exec"⟩,
        .connect ⟨"again", "again.true", "say", "say.exec"⟩] = doubting.graph := by decide +kernel
  have htokens : (doubting.graph.tokenTree "ask").map TokenTree.tokens =
      .ok [⟨"ask", []⟩, ⟨"again", [("ask", "ask.true")]⟩,
        ⟨"say", [("ask", "ask.true"), ("again", "again.true")]⟩] := by decide +kernel
  cases hgrown : doubting.graph.tokenTree "ask" with
  | error f =>
    rw [hgrown] at htokens
    cases htokens
  | ok v =>
    have htree : doubting.tokenTree "ask" = .ok (v.map (·.token doubting)) := by
      rw [tokenTree, hgrown]
      rfl
    obtain ⟨u, stop, hu, hsteers⟩ := steers ⟨_, _, _, hedits⟩ ofLibrary_doubting htree 3
    have htokens : u.tokens = [⟨"ask", []⟩, ⟨"again", [("ask", "ask.true")]⟩,
        ⟨"say", [("ask", "ask.true"), ("again", "again.true")]⟩] := by
      rw [hu] at htokens
      exact Except.ok.inj htokens
    refine ⟨_, u, stop, htree, hsteers, by rw [htokens]; rfl, fun decisions hresolves => ?_⟩
    -- What the other branch has decided before does not matter, so there may be no decision at all.
    let stage : RunStage Desk := { state := { host := {} } }
    have hagain := (hsteers.plan_again { config := { maxTokens := 3 } } stage decisions rfl).2 2
    obtain ⟨t, d, ht, hd, hopen⟩ := hagain.mp hresolves
    rw [htokens] at ht hd
    cases ht
    have hclosed : (doubting.gatherDesks _ ⟨stage.state.host, stage.signals⟩ 2).map
        (doubting.allOpen · _) = some (.ok true) :=
      Option.map_eq_some_iff.mpr ⟨d, hd, hopen⟩
    revert hclosed
    decide +kernel

end Model

end Flowchart
