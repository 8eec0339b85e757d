import Flowchart.Proofs.Walk.Childless
import Flowchart.Proofs.Walk.Emission

/-! Tokens that share an accumulator: what the turn of each does to the units of those before it, and
what it would do with an accumulator of its own. -/
namespace Flowchart

variable {σ : Type}

namespace Filling

variable {α : Type}

/-- Whether a filling that has all to itself clears or drains the accumulator at some point. -/
def takesOut : Filling σ α → Accumulator σ → σ → Signals → Bool
  | done _, _, _, _ => false
  | push u next, acc, s, signals => next.takesOut (acc.push u) s signals
  | clear _, _, _, _ => true
  | drain _, _, _, _ => true
  | look next, acc, s, signals => (next acc.labels).takesOut acc s signals
  | get next, acc, s, signals => (next s).takesOut acc s signals
  | set s next, acc, _, signals => next.takesOut acc s signals
  | fire signal next, acc, s, signals => next.takesOut acc s (signals.fire signal)
  | poll signal next, acc, s, signals => (next (signals.has signal)).takesOut acc s signals

/-- Whether it gets to see what it finds there: it looks or drains before it has cleared. -/
def looksIn : Filling σ α → σ → Signals → Bool
  | done _, _, _ => false
  | push _ next, s, signals => next.looksIn s signals
  | clear _, _, _ => false
  | drain _, _, _ => true
  | look _, _, _ => true
  | get next, s, signals => (next s).looksIn s signals
  | set s next, _, signals => next.looksIn s signals
  | fire signal next, s, signals => next.looksIn s (signals.fire signal)
  | poll signal next, s, signals => (next (signals.has signal)).looksIn s signals

/-- A filling leaves what it found, unless it takes that out, and then units of its own. -/
theorem entries_run (f : Filling σ α) (acc : Accumulator σ) (s : σ) (signals : Signals) :
    ∃ put : List (FlowUnit σ), (f.run acc s signals).2.1.entries.toList =
      (if f.takesOut acc s signals then [] else acc.entries.toList) ++
        put.map (⟨acc.current, ·⟩) := by
  induction f generalizing acc s signals with
  | done a => exact ⟨[], by simp [run, takesOut]⟩
  | push u next ih =>
    obtain ⟨put, hput⟩ := ih (acc.push u) s signals
    rw [run, takesOut, hput]
    cases next.takesOut (acc.push u) s signals with
    | true => exact ⟨put, rfl⟩
    | false => exact ⟨u :: put, by simp [Accumulator.push]⟩
  | clear next ih =>
    obtain ⟨put, hput⟩ := ih acc.clear s signals
    have hnone : (if next.takesOut acc.clear s signals then [] else acc.clear.entries.toList) =
      [] := ite_self _
    exact ⟨put, by rw [run, hput, hnone]; rfl⟩
  | drain next ih =>
    obtain ⟨put, hput⟩ := ih acc.entries.toList acc.clear s signals
    have hnone : (if (next acc.entries.toList).takesOut acc.clear s signals then []
      else acc.clear.entries.toList) = [] := ite_self _
    exact ⟨put, by rw [run, hput, hnone]; rfl⟩
  | look next ih => exact ih _ acc s signals
  | get next ih => exact ih _ acc s signals
  | set host next ih => exact ih acc host signals
  | fire signal next ih => exact ih acc s _
  | poll signal next ih => exact ih _ acc s signals

/-- A filling that does not look in does the same behind units of others as without them. -/
theorem run_behind {f : Filling σ α} {others : List (Entry σ)} {shared own : Accumulator σ} {s : σ}
    {signals : Signals} (hcurrent : shared.current = own.current)
    (hentries : shared.entries.toList = others ++ own.entries.toList)
    (h : f.looksIn s signals = false) :
    (f.run shared s signals).1 = (f.run own s signals).1 ∧
      (f.run shared s signals).2.2 = (f.run own s signals).2.2 ∧
      (f.run shared s signals).2.1.entries.toList =
        (if f.takesOut shared s signals then [] else others) ++
          (f.run own s signals).2.1.entries.toList := by
  induction f generalizing shared own s signals with
  | done a => exact ⟨rfl, rfl, hentries⟩
  | push u next ih =>
    have hpushed : (shared.push u).entries.toList = others ++ (own.push u).entries.toList := by
      simp [Accumulator.push, hcurrent, hentries]
    exact ih hcurrent hpushed h
  | clear next _ =>
    -- From here on there are no units of others, and the two runs are one.
    have hclear : shared.clear = own.clear := by rw [Accumulator.clear, Accumulator.clear, hcurrent]
    rw [run, run, hclear]
    exact ⟨rfl, rfl, rfl⟩
  | drain next _ => cases h
  | look next _ => cases h
  | get next ih => exact ih _ hcurrent hentries h
  | set s next ih => exact ih hcurrent hentries h
  | fire signal next ih => exact ih hcurrent hentries h
  | poll signal next ih => exact ih _ hcurrent hentries h

end Filling

/-- The turn of a token among others: what they have left in the accumulator, and the setting. -/
structure Turn (σ : Type) where
  token : Token σ
  found : Accumulator σ
  setting : Setting σ

namespace Turn

def shared (turn : Turn σ) : Outcome × Accumulator σ × Setting σ :=
  turn.token.resolveInto turn.found turn.setting

def alone (turn : Turn σ) : Outcome × Accumulator σ × Setting σ :=
  turn.token.resolveInto {} turn.setting

def own (turn : Turn σ) : List (Entry σ) := turn.alone.2.1.entries.toList

def takesOut (turn : Turn σ) : Bool :=
  turn.token.resolve.takesOut (turn.found.forToken turn.token.label) turn.setting.host
    turn.setting.signals

def looksIn (turn : Turn σ) : Bool :=
  turn.token.resolve.looksIn turn.setting.host turn.setting.signals

def TakesOthers (turn : Turn σ) : Prop := turn.takesOut = true ∧ turn.found.entries ≠ #[]

def SeesOthers (turn : Turn σ) : Prop := turn.looksIn = true ∧ turn.found.entries ≠ #[]

/-- What is left of some units of other tokens after its turn. -/
def keeps (turn : Turn σ) (units : List (Entry σ)) : List (Entry σ) :=
  if turn.takesOut then [] else units

/-- What it has put in, and has not taken out again. -/
def put (turn : Turn σ) : List (Entry σ) :=
  turn.shared.2.1.entries.toList.drop (turn.keeps turn.found.entries.toList).length

/-- What a turn does to the units of other tokens, and how it compares with one alone. -/
structure Shares (turn : Turn σ) : Prop where
  leaves : turn.shared.2.1.entries.toList = turn.keeps turn.found.entries.toList ++ turn.put
  labelled : ∀ entry ∈ turn.put, entry.token = turn.token.label
  alike : ¬turn.SeesOthers →
    turn.put = turn.own ∧ turn.shared.1 = turn.alone.1 ∧ turn.shared.2.2 = turn.alone.2.2
  toured : ∀ (r : Reporter) (signal : Signal) (started : Nat) (others : Company (World σ) Report)
    (sc : Scene (World σ) Report), sc.stage.signals.has signal = false →
    ⟨sc.stage.state.host, sc.stage.signals⟩ = turn.setting →
    let resolved : Scene (World σ) Report := { sc with stage := { sc.stage with
      state := { sc.stage.state with host := turn.alone.2.2.host }
      signals := turn.alone.2.2.signals } }
    (r.attendTo signal turn.token started).play others sc =
      match turn.alone.1 with
      | .error f => (some ⟨started, .error f⟩, resolved)
      | .ok () => (r.send (.tokenResolved r.run turn.token.label turn.own.length) >>= fun _ =>
          r.executeAll signal started turn.own).play others resolved

variable (turn : Turn σ)

theorem keeps_eq_self_iff :
    turn.keeps turn.found.entries.toList = turn.found.entries.toList ↔ ¬turn.TakesOthers := by
  rw [keeps, TakesOthers]
  cases turn.takesOut with
  | true => simp [eq_comm]
  | false => simp

theorem keeps_sublist (units : List (Entry σ)) : (turn.keeps units).Sublist units := by
  rw [keeps]
  split
  · exact List.nil_sublist units
  · exact .refl units

theorem leaves_and_labels :
    turn.shared.2.1.entries.toList = turn.keeps turn.found.entries.toList ++ turn.put ∧
      ∀ entry ∈ turn.put, entry.token = turn.token.label := by
  obtain ⟨units, hunits⟩ := turn.token.resolve.entries_run (turn.found.forToken turn.token.label)
    turn.setting.host turn.setting.signals
  have hleft : turn.shared.2.1.entries.toList =
      turn.keeps turn.found.entries.toList ++ units.map (⟨turn.token.label, ·⟩) := hunits
  have hput : turn.put = units.map (⟨turn.token.label, ·⟩) := by rw [put, hleft, List.drop_left]
  refine ⟨by rw [hleft, hput], fun entry hentry => ?_⟩
  rw [hput] at hentry
  obtain ⟨u, _, rfl⟩ := List.mem_map.mp hentry
  rfl

theorem shared_eq_alone (h : turn.found.entries = #[]) : turn.shared = turn.alone := by
  have hfound : turn.found.forToken turn.token.label =
      ({} : Accumulator σ).forToken turn.token.label := by
    rw [Accumulator.forToken, h]
    rfl
  rw [shared, alone, Token.resolveInto, Token.resolveInto, hfound]

theorem alike_of_not_looksIn (h : turn.looksIn = false) :
    turn.put = turn.own ∧ turn.shared.1 = turn.alone.1 ∧ turn.shared.2.2 = turn.alone.2.2 := by
  let empty : Accumulator σ := {}
  have hcurrent : (turn.found.forToken turn.token.label).current =
    (empty.forToken turn.token.label).current := rfl
  have hfound : (turn.found.forToken turn.token.label).entries.toList =
      turn.found.entries.toList ++ (empty.forToken turn.token.label).entries.toList := by
    simp [empty, Accumulator.forToken]
  obtain ⟨houtcome, hsetting, hentries⟩ := Filling.run_behind hcurrent hfound h
  have hown : turn.shared.2.1.entries.toList =
    turn.keeps turn.found.entries.toList ++ turn.own := hentries
  refine ⟨by rw [put, hown, List.drop_left], ?_, ?_⟩
  · exact congrArg turn.token.resolved houtcome
  · exact congrArg (fun rest => (⟨rest.1, rest.2⟩ : Setting σ)) hsetting

theorem shares : turn.Shares := by
  constructor
  case leaves => exact turn.leaves_and_labels.1
  case labelled => exact turn.leaves_and_labels.2
  case alike =>
    intro hblind
    by_cases hempty : turn.found.entries = #[]
    · have hsame := turn.shared_eq_alone hempty
      have hkeeps : turn.keeps turn.found.entries.toList = [] := by simp [keeps, hempty]
      rw [put, hkeeps, hsame]
      exact ⟨rfl, rfl, rfl⟩
    · have hlooks : turn.looksIn = false :=
        Bool.eq_false_iff.mpr fun hlooks => hblind ⟨hlooks, hempty⟩
      exact turn.alike_of_not_looksIn hlooks
  case toured =>
    intro r signal started others sc hquiet hsetting resolved
    have hhost : sc.stage.state.host = turn.setting.host := congrArg Setting.host hsetting
    have hsignals : sc.stage.signals = turn.setting.signals := congrArg Setting.signals hsetting
    rw [Reporter.play_attendTo_eq hquiet, hhost, hsignals]
    rfl

end Turn

/-- The turns of tokens resolved one after the other into one accumulator, up to one that fails. -/
def Token.turns : List (Token σ) → Accumulator σ → Setting σ → List (Turn σ)
  | [], _, _ => []
  | token :: rest, acc, s => ⟨token, acc, s⟩ ::
    match token.resolveInto acc s with
    | (.error _, _, _) => []
    | (.ok (), acc, s) => turns rest acc s

namespace Token

variable {acc acc' : Accumulator σ} {s s' : Setting σ}

/-- The first of some tokens that are all resolved has its turn, and leaves
the accumulator to the others. -/
theorem of_resolveAll_cons {token : Token σ} {rest : List (Token σ)}
    (h : resolveAll (token :: rest) acc s = (.ok acc', s')) :
    ∃ (turn : Turn σ) (acc₁ : Accumulator σ) (s₁ : Setting σ), turn.token = token ∧
      turn.found = acc ∧ resolveAll rest acc₁ s₁ = (.ok acc', s') ∧
      turns (token :: rest) acc s = turn :: turns rest acc₁ s₁ ∧
      acc₁.entries.toList = turn.keeps acc.entries.toList ++ turn.put := by
  let turn : Turn σ := ⟨token, acc, s⟩
  rw [resolveAll] at h
  rcases hinto : token.resolveInto acc s with ⟨f | _, acc₁, s₁⟩
  · rw [hinto] at h
    cases h
  · simp only [hinto] at h
    have hleaves := turn.shares.leaves
    rw [Turn.shared, hinto] at hleaves
    exact ⟨turn, acc₁, s₁, rfl, rfl, h, by rw [turns, hinto], hleaves⟩

/-- What tokens leave that share an accumulator, turn by turn. -/
theorem entries_resolveAll {tokens : List (Token σ)}
    (h : resolveAll tokens acc s = (.ok acc', s')) :
    (turns tokens acc s).map (·.token) = tokens ∧
      acc'.entries.toList =
        (turns tokens acc s).foldl (fun units turn => turn.keeps units ++ turn.put)
          acc.entries.toList := by
  induction tokens generalizing acc s with
  | nil =>
    cases h
    exact ⟨rfl, rfl⟩
  | cons token rest ih =>
    obtain ⟨turn, acc₁, s₁, rfl, rfl, hrest, hturns, hleaves⟩ := of_resolveAll_cons h
    obtain ⟨htokens, hentries⟩ := ih hrest
    rw [hturns]
    refine ⟨congrArg (turn.token :: ·) htokens, ?_⟩
    rw [hentries, hleaves]
    rfl

/-- Nothing is missing of what tokens have put in just if none of them takes out units of others. -/
theorem entries_resolveAll_iff {tokens : List (Token σ)}
    (h : resolveAll tokens acc s = (.ok acc', s')) :
    acc'.entries.toList.length ≤
        acc.entries.toList.length + ((turns tokens acc s).flatMap (·.put)).length ∧
      (acc'.entries.toList = acc.entries.toList ++ (turns tokens acc s).flatMap (·.put) ↔
        ∀ turn ∈ turns tokens acc s, ¬turn.TakesOthers) := by
  induction tokens generalizing acc s with
  | nil =>
    cases h
    simp [turns]
  | cons token rest ih =>
    obtain ⟨turn, acc₁, s₁, rfl, rfl, hrest, hturns, hleaves⟩ := of_resolveAll_cons h
    obtain ⟨hle, hiff⟩ := ih hrest
    have hkept := turn.keeps_sublist turn.found.entries.toList
    have hkeptLe := hkept.length_le
    rw [hturns, List.flatMap_cons, List.forall_mem_cons, ← hiff, ← turn.keeps_eq_self_iff, hleaves]
    rw [hleaves] at hle
    simp only [List.length_append] at hle ⊢
    refine ⟨by omega, fun hall => ?_, fun ⟨hsame, hrest⟩ => ?_⟩
    · -- What is lost in the first turn, the later ones cannot make up for.
      have hlength := congrArg List.length hall
      simp only [List.length_append] at hlength
      have hsame : turn.keeps turn.found.entries.toList = turn.found.entries.toList :=
        hkept.eq_of_length_le (by omega)
      exact ⟨hsame, by rw [hsame, hall, List.append_assoc]⟩
    · rw [hrest, hsame, List.append_assoc]

end Token

namespace Engine

variable {e : Engine} {strategy : Strategy} {t : TokenTree (Token σ)} {stage : RunStage σ}
  {p : Plan σ}

/-- The entries of a plan are what the tokens on its trail have left. -/
theorem resolveAll_of_plan (h : (e.plan strategy t stage).1 = .ok p) :
    let s : Setting σ := ⟨stage.state.host, stage.signals⟩
    ∃ acc s', Token.resolveAll
        (t.tokensAt (t.trail strategy e.config.maxTokens t.root.toList [] {} s)) {} s =
          (.ok acc, s') ∧ p.entries = acc.entries.toList := by
  intro s
  cases hroot : t.root with
  | none =>
    rw [plan, TokenTree.start, hroot] at h
    cases h
  | some root =>
    rw [plan, TokenTree.start_eq_ok_iff.mpr hroot] at h
    dsimp only at h
    obtain ⟨stop, hgather⟩ := t.gather_eq_trail strategy e.config.maxTokens e.config.maxTokens [root]
      [] {} s
    rw [hgather] at h
    rw [Option.toList_some]
    rcases hall : Token.resolveAll (t.tokensAt (t.trail strategy e.config.maxTokens [root] [] {} s))
      {} s with ⟨f | acc, s'⟩
    · rw [hall] at h
      cases h
    · rw [hall] at h
      cases stop with
      | some f => cases h
      | none =>
        cases h
        exact ⟨acc, s', rfl, rfl⟩

/-- A token of a plan keeps the units of those before it unless it clears or drains. -/
theorem plan_of_turns (h : (e.plan strategy t stage).1 = .ok p) :
    let s : Setting σ := ⟨stage.state.host, stage.signals⟩
    let tokens := t.tokensAt (t.trail strategy e.config.maxTokens t.root.toList [] {} s)
    let turns := Token.turns tokens {} s
    turns.map (·.token) = tokens ∧ (∀ turn ∈ turns, turn.Shares) ∧
      p.entries = turns.foldl (fun units turn => turn.keeps units ++ turn.put) [] ∧
      (p.entries = turns.flatMap (·.put) ↔ ∀ turn ∈ turns, ¬turn.TakesOthers) ∧
      ((∀ turn ∈ turns, ¬turn.TakesOthers ∧ ¬turn.SeesOthers) →
        p.entries = turns.flatMap (·.own)) := by
  intro s tokens turns
  obtain ⟨acc, s', hall, hentries⟩ := resolveAll_of_plan h
  obtain ⟨htokens, hfold⟩ := Token.entries_resolveAll hall
  obtain ⟨_, hiff⟩ := Token.entries_resolveAll_iff hall
  rw [← hentries] at hfold hiff
  refine ⟨htokens, fun turn _ => turn.shares, hfold, hiff, fun hfair => ?_⟩
  have hput : p.entries = turns.flatMap (·.put) := hiff.mpr fun turn hturn => (hfair turn hturn).1
  have hown : ∀ turn ∈ turns, turn.put = turn.own := fun turn hturn =>
    (turn.shares.alike (hfair turn hturn).2).1
  rw [hput]
  exact List.flatMap_congr hown

end Engine

def Token.clearing (label : String) (units : List (FlowUnit σ)) : Token σ where
  label
  resolve := .clear (putting label units).resolve

namespace TokenTree

def wiped : TokenTree (Token Unit) :=
  .ofCalls [.push (.putting "a" [.idle "u"]), .push (.clearing "b" []), .setSuccessor 0 1]

/-- A chain whose second token puts its unit in place of those that were there. -/
def rewritten : TokenTree (Token Unit) :=
  .ofCalls [.pushChain [.putting "a" [.idle "u", .idle "v"], .clearing "b" [.idle "w"],
    .putting "c" [.idle "x"]]]

end TokenTree

namespace Engine

/-- A plan lacks a unit that a token has put in: the token after it has taken it out. -/
theorem plan_wiped :
    let e : Engine := { config := { maxTokens := 5 } }
    let turns := Token.turns (TokenTree.wiped.tokensAt [0, 1]) {} ⟨(), {}⟩
    turns.map (fun turn => (turn.token.label, turn.own.map (·.unit.label))) =
        [("a", ["u"]), ("b", [])] ∧
      ∀ strategy ∈ [Strategy.linear, .hierarchical],
        TokenTree.wiped.trail strategy 5 [0] [] {} ⟨(), {}⟩ = [0, 1] ∧
          ∃ p, (e.plan strategy .wiped { state := { host := () } }).1 = .ok p ∧ p.entries = [] ∧
            p.entries ≠ turns.flatMap (·.own) := by
  intro e turns
  refine ⟨rfl, fun strategy hstrategy => ?_⟩
  simp only [List.mem_cons, List.not_mem_nil, or_false] at hstrategy
  rcases hstrategy with rfl | rfl
  · exact ⟨rfl, _, rfl, rfl, nofun⟩
  · exact ⟨rfl, _, rfl, rfl, nofun⟩

theorem plan_of_turns_rewritten :
    let e : Engine := { config := { maxTokens := 5 } }
    let stage : RunStage Unit := { state := { host := () } }
    (∃ p, (e.plan .linear .rewritten stage).1 = .ok p ∧ p.labels = ["w", "x"]) ∧
      ∃ p, (e.plan .hierarchical .branching stage).1 = .ok p ∧ p.labels = ["r", "x", "y", "r", "z"] := by
  intro e stage
  have hrewritten : ∃ p, (e.plan .linear .rewritten stage).1 = .ok p := ⟨_, rfl⟩
  have hbranching : ∃ p, (e.plan .hierarchical .branching stage).1 = .ok p := ⟨_, rfl⟩
  obtain ⟨p, hp⟩ := hrewritten
  obtain ⟨q, hq⟩ := hbranching
  obtain ⟨_, _, hentries, _⟩ := plan_of_turns hp
  obtain ⟨_, _, _, _, hfair⟩ := plan_of_turns hq
  refine ⟨⟨p, hp, ?_⟩, q, hq, ?_⟩
  · rw [Plan.labels, hentries]
    rfl
  · have hmild : ∀ turn ∈ Token.turns (TokenTree.branching.tokensAt [0, 1, 2, 3, 4]) {} ⟨(), {}⟩,
        turn.takesOut = false ∧ turn.looksIn = false := by decide
    have hown := hfair fun turn hturn => by
      obtain ⟨htakes, hlooks⟩ := hmild turn hturn
      exact ⟨fun h => by simp [h.1] at htakes, fun h => by simp [h.1] at hlooks⟩
    rw [Plan.labels, hown]
    rfl

end Engine

end Flowchart
