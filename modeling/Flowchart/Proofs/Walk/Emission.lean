import Flowchart.Proofs.Walk.Built
import Flowchart.Proofs.Walk.Preorder

/-! Tokens that only put units in, and the plan of a tree of them: the units of each token under its
label, in pre-order. -/
namespace Flowchart

variable {σ : Type}

/-- A filling ends well and puts in these units in order, taking nothing out. -/
inductive Filling.Emits (label : String) : Filling σ Outcome → List (String × String) →
    Setting σ → List (FlowUnit σ) → Setting σ → Prop
  | done {shown : List (String × String)} {s : Setting σ} : Emits label (.done (.ok ())) shown s [] s
  | push {u : FlowUnit σ} {next : Filling σ Outcome} {shown : List (String × String)}
      {s s' : Setting σ} {units : List (FlowUnit σ)}
      (h : Emits label next (shown ++ [(label, u.label)]) s units s') :
      Emits label (.push u next) shown s (u :: units) s'
  | look {next : List (String × String) → Filling σ Outcome} {shown : List (String × String)}
      {s s' : Setting σ} {units : List (FlowUnit σ)} (h : Emits label (next shown) shown s units s') :
      Emits label (.look next) shown s units s'
  | get {next : σ → Filling σ Outcome} {shown : List (String × String)} {s s' : Setting σ}
      {units : List (FlowUnit σ)} (h : Emits label (next s.host) shown s units s') :
      Emits label (.get next) shown s units s'
  | set {host : σ} {next : Filling σ Outcome} {shown : List (String × String)} {s s' : Setting σ}
      {units : List (FlowUnit σ)} (h : Emits label next shown { s with host } units s') :
      Emits label (.set host next) shown s units s'
  | fire {signal : Signal} {next : Filling σ Outcome} {shown : List (String × String)}
      {s s' : Setting σ} {units : List (FlowUnit σ)}
      (h : Emits label next shown { s with signals := s.signals.fire signal } units s') :
      Emits label (.fire signal next) shown s units s'
  | poll {signal : Signal} {next : Bool → Filling σ Outcome} {shown : List (String × String)}
      {s s' : Setting σ} {units : List (FlowUnit σ)}
      (h : Emits label (next (s.signals.has signal)) shown s units s') :
      Emits label (.poll signal next) shown s units s'

/-- Tokens resolved one after the other all end well, put in units and take nothing out. -/
inductive Token.EmitInTurn : List (String × String) → Setting σ →
    List (Token σ × List (FlowUnit σ)) → Setting σ → Prop
  | nil {shown : List (String × String)} {s : Setting σ} : EmitInTurn shown s [] s
  | cons {token : Token σ} {units : List (FlowUnit σ)} {rest : List (Token σ × List (FlowUnit σ))}
      {shown : List (String × String)} {s s₁ s' : Setting σ}
      (first : token.resolve.Emits token.label shown s units s₁)
      (others : EmitInTurn (shown ++ units.map (token.label, ·.label)) s₁ rest s') :
      EmitInTurn shown s ((token, units) :: rest) s'

/-- The units of some tokens, each with the label of its token. -/
def Entry.ofTokens (emitted : List (Token σ × List (FlowUnit σ))) : List (Entry σ) :=
  emitted.flatMap fun (token, units) => units.map (⟨token.label, ·⟩)

namespace Accumulator

@[simp] theorem labels_push (acc : Accumulator σ) (u : FlowUnit σ) :
    (acc.push u).labels = acc.labels ++ [(acc.current, u.label)] := by
  simp [labels, push]

@[simp] theorem labels_forToken (acc : Accumulator σ) (label : String) :
    (acc.forToken label).labels = acc.labels := rfl

def pushAll (acc : Accumulator σ) (units : List (FlowUnit σ)) : Accumulator σ := units.foldl push acc

@[simp] theorem entries_pushAll (acc : Accumulator σ) (units : List (FlowUnit σ)) :
    (acc.pushAll units).entries.toList = acc.entries.toList ++ units.map (⟨acc.current, ·⟩) := by
  induction units generalizing acc with
  | nil => simp [pushAll]
  | cons u units ih =>
    have := ih (acc.push u)
    simpa [pushAll, push] using this

@[simp] theorem labels_pushAll (acc : Accumulator σ) (units : List (FlowUnit σ)) :
    (acc.pushAll units).labels = acc.labels ++ units.map (acc.current, ·.label) := by
  simp [labels]

end Accumulator

theorem Filling.Emits.run_eq {label : String} {f : Filling σ Outcome} {shown : List (String × String)}
    {s s' : Setting σ} {units : List (FlowUnit σ)} (h : f.Emits label shown s units s')
    (acc : Accumulator σ) (hlabel : acc.current = label) (hshown : acc.labels = shown) :
    f.run acc s.host s.signals = (.ok (), acc.pushAll units, s'.host, s'.signals) := by
  induction h generalizing acc with
  | done => rfl
  | push _ ih => exact ih (acc.push _) hlabel (by rw [Accumulator.labels_push, hlabel, hshown])
  | look _ ih =>
    rw [run, hshown]
    exact ih acc hlabel hshown
  | get _ ih => exact ih acc hlabel hshown
  | set _ ih => exact ih acc hlabel hshown
  | fire _ ih => exact ih acc hlabel hshown
  | poll _ ih => exact ih acc hlabel hshown

theorem Token.EmitInTurn.resolveAll_eq {shown : List (String × String)} {s s' : Setting σ}
    {emitted : List (Token σ × List (FlowUnit σ))} (h : EmitInTurn shown s emitted s')
    (acc : Accumulator σ) (hshown : acc.labels = shown) :
    ∃ acc', resolveAll (emitted.map (·.1)) acc s = (.ok acc', s') ∧
      acc'.entries.toList = acc.entries.toList ++ Entry.ofTokens emitted := by
  induction h generalizing acc with
  | nil => exact ⟨acc, rfl, by simp [Entry.ofTokens]⟩
  | @cons token units rest shown s s₁ s' first others ih =>
    have hrun := first.run_eq (acc.forToken token.label) rfl hshown
    have hinto : token.resolveInto acc s =
        (.ok (), (acc.forToken token.label).pushAll units, s₁) := by
      rw [resolveInto, hrun]
      rfl
    have hlabels : ((acc.forToken token.label).pushAll units).labels =
        shown ++ units.map (token.label, ·.label) := by
      rw [Accumulator.labels_pushAll, Accumulator.labels_forToken, hshown]
      rfl
    obtain ⟨acc', hall, hentries⟩ := ih _ hlabels
    refine ⟨acc', ?_, ?_⟩
    · rw [List.map_cons, resolveAll, hinto]
      exact hall
    · rw [hentries, Accumulator.entries_pushAll, List.append_assoc]
      rfl

theorem Engine.plan_emitted {e : Engine} {t : TokenTree (Token σ)} {ids : List TokenId}
    (hwalk : t.WalksOnce e.config.maxTokens ids) {stage : RunStage σ}
    {emitted : List (Token σ × List (FlowUnit σ))} {s' : Setting σ}
    (htokens : emitted.map (·.1) = t.tokensAt ids)
    (hemitted : Token.EmitInTurn [] ⟨stage.state.host, stage.signals⟩ emitted s') :
    ∃ plan stage', e.plan .hierarchical t stage = (.ok plan, stage') ∧
      plan.entries = Entry.ofTokens emitted ∧ plan.sink = e.sink ∧
      plan.surfaceFailures = e.config.surfaceFailures ∧ stage'.state.host = s'.host ∧
      stage'.signals = s'.signals ∧ stage'.items = stage.items := by
  obtain ⟨⟨hroot, hlisted⟩, hnodup, hwithin⟩ := hwalk
  obtain ⟨root, hroot⟩ := Option.ne_none_iff_exists'.mp hroot
  rw [hroot, Option.toList_some] at hlisted
  obtain ⟨acc, hall, hentries⟩ := hemitted.resolveAll_eq {} rfl
  have hgather : t.gather .hierarchical e.config.maxTokens e.config.maxTokens [root] [] {}
      ⟨stage.state.host, stage.signals⟩ = _ :=
    hlisted.gather_eq (by decide) hnodup (fun _ _ => List.not_mem_nil) hwithin _ _
  rw [← htokens, hall] at hgather
  rw [Engine.plan, TokenTree.start_eq_ok_iff.mpr hroot]
  dsimp only
  rw [hgather]
  exact ⟨_, _, rfl, hentries, rfl, rfl, rfl, rfl, rfl⟩

/-- The entries of a plan are the units of the tokens in pre-order, each under its token's label. -/
theorem Engine.plan_preorder {e : Engine} {t : TokenTree (Token σ)} {ids : List TokenId}
    (hwalk : t.WalksOnce e.config.maxTokens ids) {stage : RunStage σ}
    {emitted : List (Token σ × List (FlowUnit σ))} {s' : Setting σ}
    (htokens : emitted.map (·.1) = t.tokensAt ids)
    (hemitted : Token.EmitInTurn [] ⟨stage.state.host, stage.signals⟩ emitted s') :
    ∃ plan stage', e.plan .hierarchical t stage = (.ok plan, stage') ∧
      plan.entries = emitted.flatMap (fun (token, units) => units.map (⟨token.label, ·⟩)) ∧
      plan.labels = emitted.flatMap (fun (_, units) => units.map (·.label)) ∧
      stage'.state.host = s'.host ∧ stage'.signals = s'.signals := by
  obtain ⟨plan, stage', hplan, hentries, _, _, hhost, hsignals, _⟩ :=
    plan_emitted hwalk htokens hemitted
  refine ⟨plan, stage', hplan, hentries, ?_, hhost, hsignals⟩
  rw [Plan.labels, hentries, Entry.ofTokens, List.map_flatMap]
  simp only [List.map_map]
  rfl

def FlowUnit.idle (label : String) : FlowUnit Unit := .guarded label fun _ => .done (.ok ())

def Token.putting (label : String) (units : List (FlowUnit σ)) : Token σ where
  label
  resolve := units.foldr .push (.done (.ok ()))

theorem Token.emits_putting (label : String) (units : List (FlowUnit σ))
    (shown : List (String × String)) (s : Setting σ) :
    (putting label units).resolve.Emits label shown s units s := by
  induction units generalizing shown with
  | nil => exact .done
  | cons unit units ih => exact .push (ih _)

def FlowUnit.stopper (label : String) : FlowUnit Unit :=
  .guarded label fun signal => .fire signal (.done (.ok ()))

namespace TokenTree

/-- What the tokens of a tree put in that has two children at its root, and two successors. -/
def branchingUnits : List (Token Unit × List (FlowUnit Unit)) :=
  [("root", [.idle "r"]), ("a", [.idle "x", .stopper "y"]), ("a2", []), ("b", [.idle "r"]),
    ("s", [.idle "z"])].map fun (label, units) => (.putting label units, units)

def branching : TokenTree (Token Unit) :=
  .ofCalls (branchingUnits.map (.push ·.1) ++
    [.addChild 0 1, .setSuccessor 1 2, .addChild 0 3, .setSuccessor 0 4])

theorem walksOnce_branching : branching.WalksOnce 5 [0, 1, 2, 3, 4] where
  listed := by
    refine ⟨nofun, ?_⟩
    iterate 5 refine Preorder.cons_iff.mpr ⟨_, _, rfl, rfl, ?_⟩
    exact .nil
  nodup := by decide
  within := by decide

end TokenTree

theorem Engine.plan_branching : ∃ plan stage',
    ({ config := { maxTokens := 5 } } : Engine).plan .hierarchical .branching
      { state := { host := () } } = (.ok plan, stage') ∧
    plan.entries.map (fun e => (e.token, e.unit.label)) =
      [("root", "r"), ("a", "x"), ("a", "y"), ("b", "r"), ("s", "z")] ∧
    plan.labels = ["r", "x", "y", "r", "z"] := by
  let e : Engine := { config := { maxTokens := 5 } }
  let stage : RunStage Unit := { state := { host := () } }
  have hwalk : TokenTree.branching.WalksOnce e.config.maxTokens [0, 1, 2, 3, 4] :=
    TokenTree.walksOnce_branching
  have hemitted : Token.EmitInTurn [] ⟨stage.state.host, stage.signals⟩ TokenTree.branchingUnits
      ⟨(), {}⟩ := by
    iterate 5 refine .cons (Token.emits_putting _ _ _ _) ?_
    exact .nil
  obtain ⟨plan, stage', hplan, hentries, hlabels, _⟩ := Engine.plan_preorder hwalk rfl hemitted
  refine ⟨plan, stage', hplan, ?_, hlabels⟩
  rw [hentries]
  rfl

end Flowchart
