import Flowchart.Proofs.Model.Deciding
import Flowchart.Proofs.Walk.Guarded

/-! Passes over tokens of a model, resolving them into one accumulator or attending to them in a run.
They take one turn after the other, and two of them that differ in old decisions only go alike. -/
namespace Flowchart

open Activity (Twin)

def View.undecided : View (World Desk) Report Desk Report := ⟨Desk.undecided ∘ World.host, some⟩

/-- Two plays end in the same way, and leave scenes that differ in decisions only. -/
structure PlayedAlike {α : Type} (x y : Option α × Scene (World Desk) Report) : Prop where
  result : x.1 = y.1
  scene : View.undecided.scene x.2 = View.undecided.scene y.2

section PlayedAlike

variable {α β : Type} {others : Company (World Desk) Report} {sc sc' : Scene (World Desk) Report}

theorem PlayedAlike.bind {a : RunActivity Desk α} {f : α → RunActivity Desk β}
    (h : PlayedAlike (a.play others sc) (a.play others sc'))
    (hf : ∀ x sc₁ sc₁', a.play others sc = (some x, sc₁) → a.play others sc' = (some x, sc₁') →
      View.undecided.scene sc₁ = View.undecided.scene sc₁' →
      PlayedAlike ((f x).play others sc₁) ((f x).play others sc₁')) :
    PlayedAlike ((a >>= f).play others sc) ((a >>= f).play others sc') := by
  rw [Activity.play_bind, Activity.play_bind]
  cases hx : a.play others sc with
  | mk x sc₁ =>
    cases hy : a.play others sc' with
    | mk y sc₁' =>
      rw [hx, hy] at h
      obtain ⟨hxy, hscene⟩ := h
      obtain rfl : x = y := hxy
      cases x with
      | none => exact ⟨rfl, hscene⟩
      | some x => exact hf x sc₁ sc₁' hx hy hscene

theorem PlayedAlike.of_twin (hothers : others.Respects View.undecided)
    (hkeeps : others.Keeps (Desk.decisions ∘ World.host)) {a : RunActivity Desk α}
    (h : ∀ w w' : World Desk, w.host.undecided = w'.host.undecided →
      Twin View.undecided (Desk.decisions ∘ World.host) a w a w')
    (same : View.undecided.scene sc = View.undecided.scene sc') :
    PlayedAlike (a.play others sc) (a.play others sc') := by
  have htwin := h _ _ (View.scene_eq_iff.mp same).1
  obtain ⟨hresult, hscene, -⟩ := htwin.play_eq hothers hkeeps sc sc' rfl rfl same
  exact ⟨hresult, hscene⟩

end PlayedAlike

namespace Model

variable {m : Model}

/-- The desks that tokens find while they are resolved into one accumulator,
as far as all before them end well. -/
def gatherDesks (m : Model) (tokens : List NodeToken) (s : Setting Desk) (k : Nat) : Option Desk :=
  let (result, s) := Token.resolveAll ((tokens.take k).map (·.token m)) {} s
  result.toOption.map fun _ => s.host

/-- The desks that tokens find while a run attends to them, as far as all before them end well. -/
def attendDesks (m : Model) (tokens : List NodeToken) (r : Reporter) (signal : Signal)
    (others : Company (World Desk) Report) (sc : Scene (World Desk) Report) (k : Nat) : Option Desk :=
  let (progress, sc) := (r.attend signal ((tokens.take k).map (·.token m)) 0).play others sc
  (progress.bind (·.outcome.toOption)).bind fun _ =>
    if sc.stage.signals.has signal then none else some sc.stage.state.host

/-- Two passes find desks that differ in decisions only, up to a visit. -/
def AlikeUpTo (desks desks' : Nat → Option Desk) (k : Nat) : Prop :=
  ∀ j ≤ k, (desks j).map Desk.undecided = (desks' j).map Desk.undecided

theorem placed (hwf : m.graph.WellFormed) {start : String} {tokens all : List NodeToken}
    (hlaid : m.graph.Laid m.graph.nodes [{ node := start }] all) (hfirst : tokens <+: all)
    {t : NodeToken} (ht : t ∈ tokens) : t.Placed m := by
  obtain ⟨k, hk⟩ := List.getElem?_of_mem ht
  obtain ⟨n, hn, hid⟩ := hlaid.mem_unseen (hfirst.subset ht)
  exact ⟨⟨n, (Graph.node?_eq_some_iff hwf.nodes_nodup).mpr ⟨hn, hid⟩⟩,
    knows_guard hwf hlaid hfirst hk⟩

theorem map_take_succ {tokens : List NodeToken} {k : Nat} {t : NodeToken} (ht : tokens[k]? = some t) :
    (tokens.take (k + 1)).map (·.token m) = (tokens.take k).map (·.token m) ++ [t.token m] := by
  rw [List.take_add_one, ht, List.map_append]
  rfl

theorem take_succ_of_none {tokens : List NodeToken} {k : Nat} (ht : tokens[k]? = none) :
    tokens.take (k + 1) = tokens.take k := by
  rw [List.take_add_one, ht]
  exact List.append_nil _

section Selects

variable {tokens : List NodeToken} {desks desks' : Nat → Option Desk}

theorem AlikeUpTo.exists_desk {k j : Nat} (h : AlikeUpTo desks desks' k) (hj : j ≤ k) {d : Desk}
    (hd : desks j = some d) : ∃ d', desks' j = some d' ∧ d.undecided = d'.undecided := by
  have hj := h j hj
  rw [hd, Option.map_some] at hj
  obtain ⟨d', hd', heq⟩ := Option.map_eq_some_iff.mp hj.symm
  exact ⟨d', hd', heq.symm⟩

theorem AlikeUpTo.symm {k : Nat} (h : AlikeUpTo desks desks' k) : AlikeUpTo desks' desks k :=
  fun j hj => (h j hj).symm

/-- What holds of two passes before each visit, by what held before the visits in front of it. -/
theorem alike_induction {P : Nat → Prop}
    (hdesks : ∀ j, P j → (desks j).map Desk.undecided = (desks' j).map Desk.undecided)
    (zero : P 0) (succ : ∀ k, AlikeUpTo desks desks' k → P k → P (k + 1)) (k : Nat) : P k := by
  induction k using Nat.strong_induction_on with
  | h k ih =>
    cases k with
    | zero => exact zero
    | succ k => exact succ k (fun j hj => hdesks j (ih j (Nat.lt_succ_of_le hj))) (ih k k.lt_succ_self)

theorem condition_congr (hlib : m.OfLibrary) {n : Node} {d d' : Desk}
    (h : d.undecided = d'.undecided) : m.condition n d = m.condition n d' :=
  ((Node.plain_requireBool hlib.plain_inputValue "condition").run_eq h).1

/-- A choice made by one pass is made by another that finds desks alike and resolves the same. -/
theorem Chose.congr (hlib : m.OfLibrary) {k : Nat} (halike : AlikeUpTo desks desks' k)
    (hopen : ∀ j < k, ∀ t d d', tokens[j]? = some t → desks j = some d → desks' j = some d' →
      m.allOpen d t.guards = m.allOpen d' t.guards) {node : String} {choice : Bool}
    (h : m.Chose tokens desks k node choice) : m.Chose tokens desks' k node choice := by
  obtain ⟨j, hj, t, d, n, ht, hd, hnode, hn, hall, hc⟩ := h
  obtain ⟨d', hd', heq⟩ := halike.exists_desk (Nat.le_of_lt hj) hd
  rw [hopen j hj t d d' ht hd hd'] at hall
  rw [condition_congr hlib heq] at hc
  exact ⟨j, hj, t, d', n, ht, hd', hnode, hn, hall, hc⟩

theorem Selects.allOpen_eq (hlib : m.OfLibrary) (h : m.Selects tokens desks)
    (h' : m.Selects tokens desks') {k : Nat} (halike : AlikeUpTo desks desks' k) {t : NodeToken}
    {d d' : Desk} (ht : tokens[k]? = some t) (hd : desks k = some d) (hd' : desks' k = some d') :
    m.allOpen d t.guards = m.allOpen d' t.guards := by
  induction k using Nat.strong_induction_on generalizing t d d' with
  | h k ih =>
    have hopen : ∀ j < k, ∀ t d d', tokens[j]? = some t → desks j = some d → desks' j = some d' →
        m.allOpen d t.guards = m.allOpen d' t.guards :=
      fun j hj t d d' => ih j hj fun i hi => halike i (hi.trans (Nat.le_of_lt hj))
    have hchose : ∀ node choice,
        m.Chose tokens desks k node choice ↔ m.Chose tokens desks' k node choice :=
      fun node choice => ⟨.congr hlib halike hopen, .congr hlib halike.symm
        fun j hj t d d' ht hd hd' => (hopen j hj t d' d ht hd' hd).symm⟩
    obtain ⟨b, hb, hiff⟩ := h.resolves_iff k t d ht hd
    obtain ⟨b', hb', hiff'⟩ := h'.resolves_iff k t d' ht hd'
    have hbb : b = b' := by
      rw [Bool.eq_iff_iff, hiff, hiff']
      simp only [hchose]
    rw [hb, hb', hbb]

theorem Selects.opens_eq (hlib : m.OfLibrary) (h : m.Selects tokens desks)
    (h' : m.Selects tokens desks') {k : Nat} (halike : AlikeUpTo desks desks' k) {t : NodeToken}
    {d d' : Desk} (ht : tokens[k]? = some t) (hd : desks k = some d) (hd' : desks' k = some d') :
    m.opens d t.guards = m.opens d' t.guards := by
  rw [opens, opens, h.allOpen_eq hlib h' halike ht hd hd']

theorem Selects.resolves_congr (hlib : m.OfLibrary) (h : m.Selects tokens desks)
    (h' : m.Selects tokens desks') (halike : ∀ k, AlikeUpTo desks desks' k) (k : Nat) :
    m.Resolves tokens desks k ↔ m.Resolves tokens desks' k := by
  constructor
  · rintro ⟨t, d, ht, hd, hopen⟩
    obtain ⟨d', hd', _⟩ := (halike k).exists_desk le_rfl hd
    exact ⟨t, d', ht, hd', h.allOpen_eq hlib h' (halike k) ht hd hd' ▸ hopen⟩
  · rintro ⟨t, d', ht, hd', hopen⟩
    obtain ⟨d, hd, _⟩ := (halike k).symm.exists_desk le_rfl hd'
    exact ⟨t, d, ht, hd, (h.allOpen_eq hlib h' (halike k) ht hd hd').symm ▸ hopen⟩

end Selects

section Gather

variable {tokens : List NodeToken}

/-- Tokens are resolved one more when those before were, and the next one ends well. -/
theorem of_resolveAll_succ {k : Nat} {t : NodeToken} (ht : tokens[k]? = some t)
    {s s' : Setting Desk} {acc' : Accumulator Desk}
    (h : Token.resolveAll ((tokens.take (k + 1)).map (·.token m)) {} s = (.ok acc', s')) :
    ∃ acc s₁, Token.resolveAll ((tokens.take k).map (·.token m)) {} s = (.ok acc, s₁) ∧
      (t.token m).resolve.run (acc.forToken t.node) s₁.host s₁.signals =
        (.ok (), acc', s'.host, s'.signals) := by
  rw [map_take_succ ht, Token.resolveAll_append] at h
  rcases hbefore : Token.resolveAll ((tokens.take k).map (·.token m)) {} s with ⟨f | acc, s₁⟩
  · rw [hbefore] at h
    cases h
  · rw [hbefore] at h
    refine ⟨acc, s₁, hbefore, ?_⟩
    dsimp only [Token.resolveAll, Token.resolveInto] at h
    rcases hrun : (t.token m).resolve.run (acc.forToken (t.token m).label) s₁.host s₁.signals with
      ⟨f | _, acc₁, d, signals⟩
    · rw [hrun] at h
      cases h
    · rw [hrun] at h
      cases h
      exact hrun

theorem gatherDesks_eq_some_iff {s : Setting Desk} {k : Nat} {d : Desk} :
    m.gatherDesks tokens s k = some d ↔ ∃ acc s',
      Token.resolveAll ((tokens.take k).map (·.token m)) {} s = (.ok acc, s') ∧ s'.host = d := by
  unfold gatherDesks
  generalize Token.resolveAll ((tokens.take k).map (·.token m)) {} s = gathered
  rcases gathered with ⟨f | acc, s'⟩ <;> simp [Except.toOption]

theorem gather_takesTurns (hlib : m.OfLibrary) (hplaced : ∀ t ∈ tokens, t.Placed m)
    (s : Setting Desk) : m.TakesTurns tokens (m.gatherDesks tokens s) where
  before k d hd := by
    cases ht : tokens[k]? with
    | none =>
      rw [gatherDesks, take_succ_of_none ht] at hd
      exact ⟨d, hd⟩
    | some t =>
      obtain ⟨acc', s', hall, -⟩ := gatherDesks_eq_some_iff.mp hd
      obtain ⟨acc, s₁, hbefore, -⟩ := of_resolveAll_succ ht hall
      exact ⟨s₁.host, gatherDesks_eq_some_iff.mpr ⟨acc, s₁, hbefore, rfl⟩⟩
  turns k t d d' ht hd hd' := by
    obtain ⟨acc', s', hall, rfl⟩ := gatherDesks_eq_some_iff.mp hd'
    obtain ⟨acc, s₁, hbefore, hrun⟩ := of_resolveAll_succ ht hall
    obtain ⟨_, _, hbefore', rfl⟩ := gatherDesks_eq_some_iff.mp hd
    cases hbefore.symm.trans hbefore'
    exact ((hplaced t (List.mem_of_getElem? ht)).turns hlib hrun).1

structure GatheredAlike (x y : Except Fault (Accumulator Desk) × Setting Desk) : Prop where
  result : x.1 = y.1
  desk : x.2.host.undecided = y.2.host.undecided
  signals : x.2.signals = y.2.signals

/-- One more token is resolved in the same way, if the same guards are open. -/
theorem GatheredAlike.resolve (hlib : m.OfLibrary) {t : NodeToken} (ht : t.Placed m)
    {s s' : Setting Desk} (hdesk : s.host.undecided = s'.host.undecided)
    (hsignals : s.signals = s'.signals)
    (hopens : m.opens s.host t.guards = m.opens s'.host t.guards) (acc : Accumulator Desk) :
    GatheredAlike (Token.resolveAll [t.token m] acc s) (Token.resolveAll [t.token m] acc s') := by
  obtain ⟨outcome, acc', e, e', hrun, hrun', he⟩ :=
    ht.run_alike hlib hdesk hopens (acc.forToken (t.token m).label) s.signals
  rw [hsignals] at hrun'
  simp only [Token.resolveAll, Token.resolveInto, hrun, hrun']
  cases (t.token m).resolved outcome with
  | error f => exact ⟨rfl, he, hsignals⟩
  | ok => exact ⟨rfl, he, hsignals⟩

theorem GatheredAlike.desks {s s' : Setting Desk} {k : Nat}
    (h : GatheredAlike (Token.resolveAll ((tokens.take k).map (·.token m)) {} s)
      (Token.resolveAll ((tokens.take k).map (·.token m)) {} s')) :
    (m.gatherDesks tokens s k).map Desk.undecided =
      (m.gatherDesks tokens s' k).map Desk.undecided := by
  unfold gatherDesks
  generalize Token.resolveAll ((tokens.take k).map (·.token m)) {} s = x at h
  generalize Token.resolveAll ((tokens.take k).map (·.token m)) {} s' = y at h
  obtain ⟨result, s⟩ := x
  obtain ⟨result', s'⟩ := y
  obtain ⟨rfl, hdesk, -⟩ := h
  cases result with
  | error f => rfl
  | ok acc => exact congrArg some hdesk

section Alike

variable (hlib : m.OfLibrary) (hplaced : ∀ t ∈ tokens, t.Placed m)
  (hselects : ∀ s, m.Selects tokens (m.gatherDesks tokens s)) {s s' : Setting Desk}
  (hdesk : s.host.undecided = s'.host.undecided) (hsignals : s.signals = s'.signals)
include hlib hplaced hselects hdesk hsignals

/-- From desks that differ in decisions only, resolving tokens goes in the same way. -/
theorem gathered_alike (k : Nat) :
    GatheredAlike (Token.resolveAll ((tokens.take k).map (·.token m)) {} s)
      (Token.resolveAll ((tokens.take k).map (·.token m)) {} s') := by
  have hdesks : ∀ k, GatheredAlike (Token.resolveAll ((tokens.take k).map (·.token m)) {} s)
      (Token.resolveAll ((tokens.take k).map (·.token m)) {} s') →
      (m.gatherDesks tokens s k).map Desk.undecided =
        (m.gatherDesks tokens s' k).map Desk.undecided := fun _ h => h.desks
  refine alike_induction hdesks ⟨rfl, hdesk, hsignals⟩ (fun k halike hk => ?_) k
  cases ht : tokens[k]? with
  | none =>
    rw [take_succ_of_none ht]
    exact hk
  | some t =>
    rw [map_take_succ ht, Token.resolveAll_append, Token.resolveAll_append]
    cases hx : Token.resolveAll ((tokens.take k).map (·.token m)) {} s with
    | mk x s₁ =>
      cases hy : Token.resolveAll ((tokens.take k).map (·.token m)) {} s' with
      | mk y s₁' =>
        rw [hx, hy] at hk
        obtain ⟨hxy, hdesk₁, hsignals₁⟩ := hk
        obtain rfl : x = y := hxy
        cases x with
        | error f => exact ⟨rfl, hdesk₁, hsignals₁⟩
        | ok acc =>
          have hd := gatherDesks_eq_some_iff.mpr ⟨acc, s₁, hx, rfl⟩
          have hd' := gatherDesks_eq_some_iff.mpr ⟨acc, s₁', hy, rfl⟩
          have hopens := (hselects s).opens_eq hlib (hselects s') halike ht hd hd'
          exact .resolve hlib (hplaced t (List.mem_of_getElem? ht)) hdesk₁ hsignals₁ hopens acc

theorem gatherDesks_alike (k : Nat) :
    AlikeUpTo (m.gatherDesks tokens s) (m.gatherDesks tokens s') k :=
  fun j _ => (gathered_alike hlib hplaced hselects hdesk hsignals j).desks

end Alike

end Gather

section Attend

variable {tokens : List NodeToken} {r : Reporter} {signal : Signal}
  {others : Company (World Desk) Report} {sc sc' : Scene (World Desk) Report}

theorem attendDesks_eq_some_iff {k : Nat} {d : Desk} :
    m.attendDesks tokens r signal others sc k = some d ↔ ∃ n sc',
      (r.attend signal ((tokens.take k).map (·.token m)) 0).play others sc =
        (some ⟨n, .ok ()⟩, sc') ∧
      sc'.stage.signals.has signal = false ∧ sc'.stage.state.host = d := by
  unfold attendDesks
  generalize (r.attend signal ((tokens.take k).map (·.token m)) 0).play others sc = played
  obtain ⟨_ | ⟨n, f | _⟩, sc'⟩ := played
  · simp
  · simp [Except.toOption]
  · cases hfired : sc'.stage.signals.has signal <;> simp [Except.toOption, hfired]

/-- A run attends to one more token when it has attended to those before and that one ends well. -/
theorem of_attend_succ {k : Nat} {t : NodeToken} (ht : tokens[k]? = some t) {ended : Nat}
    (h : (r.attend signal ((tokens.take (k + 1)).map (·.token m)) 0).play others sc =
      (some ⟨ended, .ok ()⟩, sc')) : ∃ n sc₁,
      (r.attend signal ((tokens.take k).map (·.token m)) 0).play others sc =
        (some ⟨n, .ok ()⟩, sc₁) ∧
      (r.attendTo signal (t.token m) n).play others sc₁ = (some ⟨ended, .ok ()⟩, sc') := by
  rw [map_take_succ ht, Reporter.attend_append] at h
  obtain ⟨n, sc₁, hbefore, hlast⟩ := Progress.play_bind_onward_eq_ok h
  rw [Reporter.attend_singleton] at hlast
  exact ⟨n, sc₁, hbefore, hlast⟩

variable (hothers : others.Respects View.undecided)
  (hkeeps : others.Keeps (Desk.decisions ∘ World.host))

theorem Turns.congr {t : NodeToken} {d d' d'' : Desk} (h : m.Turns t d d')
    (hd : d''.decisions = d'.decisions) : m.Turns t d d'' := by
  have hsame : ∀ id, d''.decision? id = d'.decision? id := fun id => by
    rw [Desk.decision?, Desk.decision?, hd]
  constructor
  case others =>
    intro id hne
    rw [hsame]
    exact h.others id hne
  case decided =>
    intro hopen hbranch n hn
    rw [hsame]
    exact h.decided hopen hbranch n hn

/-- Reporting a token and executing its units shows nothing of decisions and leaves them alone. -/
theorem units_twin {entries : List (Entry Desk)}
    (hentries : ∀ e ∈ entries, e.unit.Discreet Desk.undecided Desk.decisions signal) (e : Event)
    (n : Nat) {w w' : World Desk} (same : w.host.undecided = w'.host.undecided) :
    Twin View.undecided (Desk.decisions ∘ World.host)
      (r.send e >>= fun _ => r.executeAll signal n entries) w
      (r.send e >>= fun _ => r.executeAll signal n entries) w' :=
  (Reporter.send_twin rfl w w').bind same fun _ _ _ same =>
    Reporter.executeAll_twin (fun _ _ => rfl) hentries n same

include hothers hkeeps

theorem attendTo_turns (hlib : m.OfLibrary) {t : NodeToken} (ht : t.Placed m) {n ended : Nat}
    (h : (r.attendTo signal (t.token m) n).play others sc = (some ⟨ended, .ok ()⟩, sc')) :
    sc.stage.signals.has signal = false ∧
      m.Turns t sc.stage.state.host sc'.stage.state.host := by
  cases hfired : sc.stage.signals.has signal with
  | true =>
    rw [Reporter.attendTo, Activity.play_hasFired_bind, hfired] at h
    cases h
  | false =>
    refine ⟨rfl, ?_⟩
    rw [Reporter.play_attendTo_eq hfired] at h
    cases hrun : (t.token m).resolve.run { current := (t.token m).label } sc.stage.state.host
        sc.stage.signals with
    | mk outcome rest =>
      obtain ⟨acc, d, signals⟩ := rest
      rw [hrun] at h
      cases outcome with
      | error f => cases h
      | ok =>
        have hentries := ht.discreet hlib hrun signal
        obtain ⟨hturns, -⟩ := ht.turns hlib hrun
        let resolved : Scene (World Desk) Report := { sc with stage := { sc.stage with
          state := { sc.stage.state with host := d }, signals } }
        let report : Event := .tokenResolved r.run (t.token m).label acc.entries.size
        have hplay : (r.send report >>= fun _ =>
            r.executeAll signal n acc.entries.toList).play others resolved =
          (some ⟨ended, .ok ()⟩, sc') := h
        have hkept := ((units_twin (r := r) hentries report n rfl).play_eq hothers hkeeps resolved
          resolved rfl rfl rfl).2.2.1
        rw [hplay] at hkept
        exact hturns.congr hkept

theorem attend_takesTurns (hlib : m.OfLibrary) (hplaced : ∀ t ∈ tokens, t.Placed m) :
    m.TakesTurns tokens (m.attendDesks tokens r signal others sc) where
  before k d hd := by
    cases ht : tokens[k]? with
    | none =>
      rw [attendDesks, take_succ_of_none ht] at hd
      exact ⟨d, hd⟩
    | some t =>
      obtain ⟨ended, sc', hall, -⟩ := attendDesks_eq_some_iff.mp hd
      obtain ⟨n, sc₁, hbefore, hlast⟩ := of_attend_succ ht hall
      have hquiet := (attendTo_turns hothers hkeeps hlib
        (hplaced t (List.mem_of_getElem? ht)) hlast).1
      exact ⟨_, attendDesks_eq_some_iff.mpr ⟨n, sc₁, hbefore, hquiet, rfl⟩⟩
  turns k t d d' ht hd hd' := by
    obtain ⟨ended, sc', hall, -, rfl⟩ := attendDesks_eq_some_iff.mp hd'
    obtain ⟨n, sc₁, hbefore, hlast⟩ := of_attend_succ ht hall
    obtain ⟨_, _, hbefore', -, rfl⟩ := attendDesks_eq_some_iff.mp hd
    cases hbefore.symm.trans hbefore'
    exact (attendTo_turns hothers hkeeps hlib (hplaced t (List.mem_of_getElem? ht)) hlast).2

/-- One more token is attended to in the same way, if the same guards are open. -/
theorem attendTo_alike (hlib : m.OfLibrary) {t : NodeToken} (ht : t.Placed m)
    (same : View.undecided.scene sc = View.undecided.scene sc')
    (hopens : sc.stage.signals.has signal = false →
      m.opens sc.stage.state.host t.guards = m.opens sc'.stage.state.host t.guards) (n : Nat) :
    PlayedAlike ((r.attendTo signal (t.token m) n).play others sc)
      ((r.attendTo signal (t.token m) n).play others sc') := by
  obtain ⟨hdesk, hsignals, hitems, hdeeds⟩ := View.scene_eq_iff.mp same
  cases hfired : sc.stage.signals.has signal with
  | true =>
    have hfired' : sc'.stage.signals.has signal = true := hsignals ▸ hfired
    simp only [Reporter.attendTo, Activity.play_hasFired_bind, hfired, hfired']
    exact ⟨rfl, same⟩
  | false =>
    have hfired' : sc'.stage.signals.has signal = false := hsignals ▸ hfired
    obtain ⟨outcome, acc, e, e', hrun, hrun', he⟩ := ht.run_alike hlib hdesk (hopens hfired)
      { current := (t.token m).label } sc.stage.signals
    rw [Reporter.play_attendTo_eq hfired, Reporter.play_attendTo_eq hfired', ← hsignals, hrun, hrun']
    have hresolved : ∀ signals, View.undecided.scene { sc with stage := { sc.stage with
          state := { sc.stage.state with host := e }, signals } } =
        View.undecided.scene { sc' with stage := { sc'.stage with
          state := { sc'.stage.state with host := e' }, signals } } := fun signals =>
      View.scene_eq_iff.mpr ⟨he, rfl, hitems, hdeeds⟩
    dsimp only
    cases outcome with
    | error f => exact ⟨rfl, hresolved _⟩
    | ok =>
      exact .of_twin hothers hkeeps (fun _ _ => units_twin (ht.discreet hlib hrun signal) _ n)
        (hresolved sc.stage.signals)

omit hothers hkeeps in
theorem attendDesks_congr {k : Nat}
    (h : PlayedAlike ((r.attend signal ((tokens.take k).map (·.token m)) 0).play others sc)
      ((r.attend signal ((tokens.take k).map (·.token m)) 0).play others sc')) :
    (m.attendDesks tokens r signal others sc k).map Desk.undecided =
      (m.attendDesks tokens r signal others sc' k).map Desk.undecided := by
  unfold attendDesks
  generalize (r.attend signal ((tokens.take k).map (·.token m)) 0).play others sc = x at h
  generalize (r.attend signal ((tokens.take k).map (·.token m)) 0).play others sc' = y at h
  obtain ⟨progress, sc⟩ := x
  obtain ⟨progress', sc'⟩ := y
  obtain ⟨hprogress, hscene⟩ := h
  obtain rfl : progress = progress' := hprogress
  obtain ⟨hdesk, hsignals, -⟩ := View.scene_eq_iff.mp hscene
  dsimp only at hsignals ⊢
  rw [hsignals]
  cases progress.bind (·.outcome.toOption) with
  | none => rfl
  | some =>
    cases sc'.stage.signals.has signal with
    | true => rfl
    | false => exact congrArg some hdesk

section Alike

variable (hlib : m.OfLibrary) (hplaced : ∀ t ∈ tokens, t.Placed m)
  (hselects : ∀ sc, m.Selects tokens (m.attendDesks tokens r signal others sc))
  (same : View.undecided.scene sc = View.undecided.scene sc')
include hlib hplaced hselects same

/-- On scenes that differ in decisions only, tokens are attended to in the same way. -/
theorem attended_alike (k : Nat) :
    PlayedAlike ((r.attend signal ((tokens.take k).map (·.token m)) 0).play others sc)
      ((r.attend signal ((tokens.take k).map (·.token m)) 0).play others sc') := by
  have hdesks : ∀ k, PlayedAlike
      ((r.attend signal ((tokens.take k).map (·.token m)) 0).play others sc)
      ((r.attend signal ((tokens.take k).map (·.token m)) 0).play others sc') →
      (m.attendDesks tokens r signal others sc k).map Desk.undecided =
        (m.attendDesks tokens r signal others sc' k).map Desk.undecided := fun _ => attendDesks_congr
  refine alike_induction hdesks ⟨rfl, same⟩ (fun k halike hk => ?_) k
  cases ht : tokens[k]? with
  | none =>
    rw [take_succ_of_none ht]
    exact hk
  | some t =>
    rw [map_take_succ ht, Reporter.attend_append]
    refine hk.bind fun p sc₁ sc₁' hplay hplay' same₁ => ?_
    obtain ⟨n, f | _⟩ := p
    · exact ⟨rfl, same₁⟩
    · dsimp only [Progress.onward]
      rw [Reporter.attend_singleton]
      have ht' := hplaced t (List.mem_of_getElem? ht)
      refine attendTo_alike hothers hkeeps hlib ht' same₁ (fun hquiet => ?_) n
      have hquiet' : sc₁'.stage.signals.has signal = false :=
        (View.scene_eq_iff.mp same₁).2.1 ▸ hquiet
      have hd := attendDesks_eq_some_iff.mpr ⟨n, sc₁, hplay, hquiet, rfl⟩
      have hd' := attendDesks_eq_some_iff.mpr ⟨n, sc₁', hplay', hquiet', rfl⟩
      exact (hselects sc).opens_eq hlib (hselects sc') halike ht hd hd'

theorem attendDesks_alike (k : Nat) : AlikeUpTo (m.attendDesks tokens r signal others sc)
    (m.attendDesks tokens r signal others sc') k :=
  fun j _ => attendDesks_congr (attended_alike hothers hkeeps hlib hplaced hselects same j)

end Alike

end Attend

end Model

end Flowchart
