import Flowchart.Proofs.Run.Answers

/-! In which order a run that resolves its tokens itself does what it does: token by token in pre-order,
and the units of each before the next. -/
namespace Flowchart

variable {σ : Type}

/-- A token that a run resolves, and the units that are left in its accumulator then. -/
structure Resolution (σ : Type) where
  id : TokenId
  units : List (Entry σ)

/-- What a run does from one look at its signal to the next. -/
inductive Step (σ : Type)
  | resolve (x : Resolution σ)
  | execute (e : Entry σ)

/-- The token is resolved, and its units are executed in the order they were put in. -/
def Resolution.steps (x : Resolution σ) : List (Step σ) := .resolve x :: x.units.map .execute

namespace Step

def resolution? : Step σ → Option (Resolution σ)
  | resolve x => some x
  | execute _ => none

def resolutions (steps : List (Step σ)) : List (Resolution σ) := steps.filterMap resolution?

def events (run : String) (t : TokenTree (Token σ)) : Step σ → List Event
  | resolve x => (t.tokensAt [x.id]).map fun token => .tokenResolved run token.label x.units.length
  | execute e => [.unitStarted run e.unit.label e.token, .unitCompleted run e.unit.label e.token]

@[simp] theorem resolutions_append (a b : List (Step σ)) :
    resolutions (a ++ b) = resolutions a ++ resolutions b := List.filterMap_append

@[simp] theorem resolutions_resolve (x : Resolution σ) : resolutions [.resolve x] = [x] := rfl

@[simp] theorem resolutions_execute (e : Entry σ) : resolutions [.execute e] = [] := rfl

end Step

def Stand.step (u v : Stand σ) : Step σ :=
  match u.agenda.units with
  | e :: _ => .execute e
  | [] => .resolve ⟨u.agenda.ahead.headD 0, v.agenda.units⟩

/-- The steps of a run from a look at its signal on, and how the last one ends. -/
inductive Reporter.Records (r : Reporter) (signal : Signal) (t : TokenTree (Token σ))
    (others : Company (World σ) Report) : Stand σ → List (Step σ) → Option Outcome → Stand σ → Prop
  | rest {u : Stand σ} : Records r signal t others u [] (some (.ok ())) u
  | last {u v : Stand σ} {result : Option Outcome} (takes : r.Takes signal t others u result v)
      (ill : result ≠ some (.ok ())) : Records r signal t others u [u.step v] result v
  | next {u v w : Stand σ} {steps : List (Step σ)} {result : Option Outcome}
      (takes : r.Takes signal t others u (some (.ok ())) v)
      (onward : Records r signal t others v steps result w) :
      Records r signal t others u (u.step v :: steps) result w

/-- How a run ends that does no more after some tokens, unless it broke off. -/
inductive Stand.Ends (signal : Signal) (k : Nat) (stop : Option Fault) (resolved : Nat) (v : Stand σ) :
    Option Outcome → Option Outcome → Prop
  | broken : Ends signal k stop resolved v none none
  | failed (f : Fault) : Ends signal k stop resolved v (some (.error f)) (some (.error f))
  | cancelled (fired : v.HasFired signal) (more : v.agenda.units ≠ [] ∨ resolved < k ∨ stop ≠ none) :
      Ends signal k stop resolved v (some (.ok ())) (some (.error .cancelled))
  | through (done : v.agenda.units = []) (reached : resolved = k) (free : stop = none) :
      Ends signal k stop resolved v (some (.ok ())) (some (.ok ()))
  | tripped {f : Fault} (quiet : ¬ v.HasFired signal) (done : v.agenda.units = [])
      (reached : resolved = k) (held : stop = some f) :
      Ends signal k stop resolved v (some (.ok ())) (some (.error f))

def Reporter.wrapUp (r : Reporter) (others : Company (World σ) Report) (v : Stand σ) :
    Option Outcome → Option Outcome × Scene (World σ) Report
  | none => (none, v.scene)
  | some outcome => (r.finish ⟨v.started, outcome⟩).play others v.scene

/-- A run is at a position of its itinerary, and nothing before it holds up a guarded walk. -/
structure Stand.At (u : Stand σ) (t : TokenTree (Token σ)) (limit k : Nat) : Prop where
  ahead : u.agenda.ahead = t.aheadAt .immediate k
  seen : u.agenda.seen = (t.past .immediate k).reverse
  left : u.agenda.left + k = limit
  passed : ∀ j < k, ¬ t.Trips .immediate limit j ∧ t.itinerary .immediate j ≠ none

/-- Some steps lead from a position to as many positions further on as tokens are resolved in them. -/
structure Stand.Leads (u v : Stand σ) (t : TokenTree (Token σ)) (limit k : Nat) (steps : List (Step σ)) :
    Prop where
  arrives : v.At t limit (k + (Step.resolutions steps).length)
  preorder : t.past .immediate (k + (Step.resolutions steps).length) =
    t.past .immediate k ++ (Step.resolutions steps).map (·.id)
  interleaved : steps ++ v.agenda.units.map .execute =
    u.agenda.units.map .execute ++ (Step.resolutions steps).flatMap Resolution.steps

section

variable {r : Reporter} {signal : Signal} {t : TokenTree (Token σ)}
  {others : Company (World σ) Report} {limit k : Nat} {stop : Option Fault} {u v w : Stand σ}
  {result : Option Outcome} {steps : List (Step σ)}

namespace Stand.At

theorem itinerary_eq (h : u.At t limit k) : t.itinerary .immediate k = u.agenda.ahead.head? := by
  rw [TokenTree.itinerary_eq, h.ahead]

/-- A token that comes first and is neither seen nor beyond the limit does not hold the walk up. -/
theorem not_trips (h : u.At t limit k) {id : TokenId} {rest : List TokenId}
    (hahead : u.agenda.ahead = id :: rest) (hnew : id ∉ u.agenda.seen) (hroom : 0 < u.agenda.left) :
    ¬ t.Trips .immediate limit k := by
  rintro ⟨id', hid', hold | hfull⟩
  · rw [h.itinerary_eq, hahead] at hid'
    cases hid'
    rw [h.seen, List.mem_reverse] at hnew
    exact hnew hold
  · have := h.left
    omega

theorem isLeast (h : u.At t limit k) (htrips : t.Trips .immediate limit k) :
    IsLeast {j | t.Trips .immediate limit j} k :=
  ⟨htrips, fun j hj => Nat.le_of_not_lt fun hlt => (h.passed j hlt).1 hj⟩

theorem endsAt_through (h : u.At t limit k) (hahead : u.agenda.ahead = []) :
    t.EndsAt .immediate limit k none := by
  have hend : t.itinerary .immediate k = none := by rw [h.itinerary_eq, hahead]; rfl
  refine .complete (fun j => ?_) fun j => ⟨fun hj => ?_, fun hj => TokenTree.itinerary_none_mono hj hend⟩
  · rcases Nat.lt_or_ge j k with hlt | hge
    · exact (h.passed j hlt).1
    · rintro ⟨id, hid, -⟩
      rw [TokenTree.itinerary_none_mono hge hend] at hid
      cases hid
  · exact Nat.le_of_not_lt fun hlt => (h.passed j hlt).2 hj

section Held

variable {id : TokenId} {rest : List TokenId} (hahead : u.agenda.ahead = id :: rest)
include hahead

theorem endsAt_refused (h : u.At t limit k) (hc : t.Closed) {f : Fault}
    (hvisit : t.visit u.agenda.seen id = .error f) : t.EndsAt .immediate limit k (some f) := by
  have hid : t.itinerary .immediate k = some id := by rw [h.itinerary_eq, hahead]; rfl
  have hslot := Array.getElem?_eq_getElem (hc.itinerary_lt hid)
  by_cases hseen : id ∈ u.agenda.seen
  · have hold : id ∈ t.past .immediate k := by rwa [h.seen, List.mem_reverse] at hseen
    rw [TokenTree.visit_eq_error hslot hseen] at hvisit
    cases hvisit
    exact .revisited (h.isLeast ⟨id, hid, .inl hold⟩) hid hold hslot
  · rw [TokenTree.visit_eq_ok hslot hseen] at hvisit
    cases hvisit

theorem endsAt_noRoom (h : u.At t limit k) {slot : TokenSlot (Token σ)}
    (hvisit : t.visit u.agenda.seen id = .ok slot) (hfull : u.agenda.left = 0) :
    t.EndsAt .immediate limit k (some (.tokenLimit limit)) := by
  have hid : t.itinerary .immediate k = some id := by rw [h.itinerary_eq, hahead]; rfl
  have hnew := (TokenTree.visit_eq_ok_iff.mp hvisit).2
  rw [h.seen, List.mem_reverse] at hnew
  have hleft := h.left
  exact .exceeded (h.isLeast ⟨id, hid, .inr (by omega)⟩) hid hnew

end Held

end Stand.At

/-- A step executes the next unit, or resolves the next token when no unit is left. -/
theorem Reporter.Takes.step_eq (h : r.Takes signal t others u result v) (place : u.At t limit k) :
    (∃ e, u.step v = .execute e ∧ u.agenda.units = e :: v.agenda.units ∧ v.At t limit k) ∨
      ∃ id, u.step v = .resolve ⟨id, v.agenda.units⟩ ∧ u.agenda.units = [] ∧
        t.itinerary .immediate k = some id ∧ v.At t limit (k + 1) := by
  cases h with
  | @unit e => exact .inl ⟨e, rfl, rfl, place.ahead, place.seen, place.left, place.passed⟩
  | @token id ahead seen left started slot units sc sc' outcome quiet visits resolves =>
    obtain ⟨here, hnew⟩ := TokenTree.visit_eq_ok_iff.mp visits
    have hid : t.itinerary .immediate k = some id := place.itinerary_eq
    have hfree := place.not_trips rfl hnew (Nat.succ_pos left)
    have hahead : id :: ahead = t.aheadAt .immediate k := place.ahead
    have hseen : seen = (t.past .immediate k).reverse := place.seen
    have hleft : left + 1 + k = limit := place.left
    refine .inr ⟨id, rfl, rfl, hid, ?_, ?_, ?_, fun j hj => ?_⟩
    · rw [TokenTree.aheadAt_succ, ← hahead, TokenTree.onward, TokenTree.ways, here]
    · rw [TokenTree.past_succ hid, List.reverse_append, ← hseen]
      rfl
    · dsimp only
      omega
    · rcases Nat.lt_succ_iff_lt_or_eq.mp hj with hlt | rfl
      · exact place.passed j hlt
      · exact ⟨hfree, by simp [hid]⟩

namespace Stand.Leads

theorem refl (place : u.At t limit k) : u.Leads u t limit k [] :=
  ⟨place, (List.append_nil _).symm, (List.append_nil _).symm⟩

theorem trans {a b : List (Step σ)} (h : u.Leads v t limit k a)
    (h' : v.Leads w t limit (k + (Step.resolutions a).length) b) : u.Leads w t limit k (a ++ b) := by
  have hlength : k + (Step.resolutions (a ++ b)).length =
      k + (Step.resolutions a).length + (Step.resolutions b).length := by
    rw [Step.resolutions_append, List.length_append, Nat.add_assoc]
  constructor
  case arrives => exact hlength ▸ h'.arrives
  case preorder =>
    rw [hlength, h'.preorder, h.preorder, Step.resolutions_append, List.map_append, List.append_assoc]
  case interleaved =>
    rw [List.append_assoc, h'.interleaved, ← List.append_assoc, h.interleaved, Step.resolutions_append,
      List.flatMap_append, List.append_assoc]

theorem single (takes : r.Takes signal t others u result v) (place : u.At t limit k) :
    u.Leads v t limit k [u.step v] := by
  rcases takes.step_eq place with ⟨e, hstep, hunits, hplace⟩ | ⟨id, hstep, hunits, hid, hplace⟩
  · rw [hstep]
    refine ⟨hplace, (List.append_nil _).symm, ?_⟩
    rw [hunits]
    simp
  · rw [hstep]
    refine ⟨hplace, TokenTree.past_succ hid, ?_⟩
    rw [hunits]
    simp [Resolution.steps]

end Stand.Leads

namespace Reporter

theorem Records.leads (h : r.Records signal t others u steps result v) (place : u.At t limit k) :
    u.Leads v t limit k steps := by
  -- The position is the invariant; it moves on with each token.
  induction h generalizing k with
  | rest => exact .refl place
  | last takes => exact .single takes place
  | next takes _ ih =>
    have hfirst := Stand.Leads.single takes place
    exact hfirst.trans (ih hfirst.arrives)

theorem Records.split {before after : List (Step σ)} {step : Step σ}
    (h : r.Records signal t others u (before ++ step :: after) result w) :
    ∃ v, r.Records signal t others u before (some (.ok ())) v ∧
      r.Records signal t others v (step :: after) result w := by
  induction before generalizing u with
  | nil => exact ⟨u, .rest, h⟩
  | cons first before ih =>
    rw [List.cons_append] at h
    generalize hrest : before ++ step :: after = later at h
    cases h with
    | last => simp at hrest
    | next takes onward =>
      subst hrest
      obtain ⟨v, hbefore, hafter⟩ := ih onward
      exact ⟨v, .next takes hbefore, hafter⟩

theorem Records.takes {step : Step σ} (h : r.Records signal t others u (step :: steps) result w) :
    ∃ first v, r.Takes signal t others u first v ∧ u.step v = step := by
  cases h with
  | last takes => exact ⟨_, _, takes, rfl⟩
  | next takes => exact ⟨_, _, takes, rfl⟩

theorem Takes.sent (h : r.Takes signal t others u (some (.ok ())) v) :
    v.scene.sent r.sink = u.scene.sent r.sink ++ (u.step v).events r.run t := by
  generalize hresult : some (Except.ok ()) = result at h
  cases h with
  | @unit e units ahead seen left started sc sc' p quiet executes =>
    cases p with
    | none => cases hresult
    | some p =>
      have hok : p.outcome = .ok () := (Option.some.inj hresult).symm
      obtain ⟨items, hputs, hsent⟩ := Activity.Puts.sent_eq executes r.sink
      rcases execute_puts [] hputs with ⟨-, -, hevents⟩ | ⟨f, hf, -⟩
      · rw [hevents] at hsent
        exact hsent
      · rw [hok] at hf
        cases hf
  | @token id ahead seen left started slot units sc sc' outcome quiet visits resolves =>
    cases hresult
    obtain ⟨⟨outcome, acc⟩, sc₁, hresolve, hreport⟩ := Activity.play_bind_eq_some_iff.mp resolves
    have hsc₁ : sc₁.sent r.sink = sc.sent r.sink := (hides_sent_inRun r.sink _).filterMap_eq hresolve
    have hslot := (TokenTree.visit_eq_ok_iff.mp visits).1
    have hevents : (Stand.step ⟨⟨[], id :: ahead, seen, left + 1⟩, started, sc⟩
        ⟨⟨units, Strategy.immediate.next slot ++ ahead, id :: seen, left⟩, started, sc'⟩).events r.run t =
          [.tokenResolved r.run slot.token.label units.length] := by
      simp [Stand.step, Step.events, TokenTree.tokensAt, hslot]
    rw [hevents]
    dsimp only at hreport
    split at hreport
    · cases hreport
    · cases hreport
      rw [Array.length_toList, ← hsc₁]
      exact Scene.sent_offered

theorem Records.sent (h : r.Records signal t others u steps (some (.ok ())) v) :
    v.scene.sent r.sink = u.scene.sent r.sink ++ steps.flatMap (Step.events r.run t) := by
  generalize hresult : some (Except.ok ()) = result at h
  induction h with
  | rest => exact (List.append_nil _).symm
  | last _ ill => exact absurd hresult.symm ill
  | next takes _ ih => rw [ih hresult, takes.sent, List.flatMap_cons, List.append_assoc]

/-- The units of a token are those it leaves in an accumulator of its own as things stand then. -/
theorem Takes.leaves {x : Resolution σ} (h : r.Takes signal t others u result v)
    (hstep : u.step v = .resolve x) : ∃ slot, t.slots[x.id]? = some slot ∧
      x.units = (slot.token.resolve.run { current := slot.token.label } u.scene.stage.state.host
        u.scene.stage.signals).2.1.entries.toList := by
  cases h with
  | unit => cases hstep
  | @token id ahead seen left started slot units sc sc' outcome quiet visits resolves =>
    cases hstep
    refine ⟨slot, (TokenTree.visit_eq_ok_iff.mp visits).1, ?_⟩
    unfold resolve at resolves
    rw [Activity.play_bind, Filling.play_within] at resolves
    dsimp only at resolves
    split at resolves
    · cases resolves
      rfl
    · cases resolves
      rfl

def HasRecord (r : Reporter) (signal : Signal) (t : TokenTree (Token σ)) (limit : Nat)
    (others : Company (World σ) Report) (k : Nat) (stop : Option Fault) (u : Stand σ) : Prop :=
  ∀ n, u.At t limit n → ∃ steps result v ended, r.Records signal t others u steps result v ∧
    v.Ends signal k stop (n + (Step.resolutions steps).length) result ended ∧
    (r.goOn signal t limit u.agenda u.started).play others u.scene =
      (ended.map fun outcome => ⟨v.started, outcome⟩, v.scene)

/-- Where a run does the next thing, its record goes on with it unless that ends ill. -/
theorem hasRecord_of_takes (takes : r.Takes signal t others u result v)
    (hrest : r.HasRecord signal t limit others k stop v) : r.HasRecord signal t limit others k stop u := by
  intro n place
  have hplay : (r.goOn signal t limit u.agenda u.started).play others u.scene = _ :=
    play_goOn_takes takes
  rcases result with _ | ⟨f | _⟩
  · exact ⟨_, _, v, _, .last takes nofun, .broken, hplay⟩
  · exact ⟨_, _, v, _, .last takes nofun, .failed f, hplay⟩
  · have hfirst := (Stand.Leads.single takes place).arrives
    obtain ⟨steps, result, w, ended, records, hended, hrest⟩ := hrest _ hfirst
    refine ⟨_, result, w, ended, .next takes records, ?_, hplay.trans hrest⟩
    rw [← List.singleton_append, Step.resolutions_append, List.length_append, ← Nat.add_assoc]
    exact hended

section HasRecord

variable (hends : t.EndsAt .immediate limit k stop)
include hends

theorem hasRecord_of_clear (hclear : u.agenda.isClear = true) :
    r.HasRecord signal t limit others k stop u := by
  intro n place
  have hdone := hclear
  simp only [Agenda.isClear, Bool.and_eq_true, List.isEmpty_iff] at hdone
  obtain ⟨rfl, rfl⟩ := hends.unique (place.endsAt_through hdone.2)
  exact ⟨[], _, u, _, .rest, .through hdone.1 rfl rfl, play_goOn_clear hclear⟩

theorem hasRecord_of_fired (fired : u.HasFired signal) : r.HasRecord signal t limit others k stop u := by
  cases hclear : u.agenda.isClear with
  | true => exact hasRecord_of_clear hends hclear
  | false =>
    intro n place
    have hplay : (r.goOn signal t limit u.agenda u.started).play others u.scene = _ :=
      play_goOn_fired fired
    rw [hclear] at hplay
    refine ⟨[], _, u, _, .rest, .cancelled fired ?_, hplay⟩
    -- If no unit were left and the walk were through here, the agenda would be clear.
    by_contra hnothing
    simp only [not_or, not_not, Nat.not_lt] at hnothing
    obtain ⟨hunits, hreached, rfl⟩ := hnothing
    have hahead : u.agenda.ahead = [] := by
      cases hends with
      | complete _ through =>
        rw [← List.head?_eq_none_iff, ← place.itinerary_eq]
        exact (through n).mpr hreached
    simp [Agenda.isClear, hunits, hahead] at hclear

theorem hasRecord (hc : t.Closed) (u : Stand σ) : r.HasRecord signal t limit others k stop u := by
  refine goOn_induction r signal t others ?fired ?clear ?refused ?noRoom ?takes u
  case fired => exact fun u fired => hasRecord_of_fired hends fired
  case clear => exact fun u hclear => hasRecord_of_clear hends hclear
  case refused =>
    intro id ahead seen left started sc f quiet hvisit n place
    obtain ⟨rfl, rfl⟩ := hends.unique (place.endsAt_refused rfl hc hvisit)
    exact ⟨[], _, _, _, .rest, .tripped (Bool.eq_false_iff.mp quiet) rfl rfl rfl,
      play_goOn_refused quiet hvisit⟩
  case noRoom =>
    intro id ahead seen started sc slot quiet hvisit n place
    obtain ⟨rfl, rfl⟩ := hends.unique (place.endsAt_noRoom rfl hvisit rfl)
    exact ⟨[], _, _, _, .rest, .tripped (Bool.eq_false_iff.mp quiet) rfl rfl rfl,
      play_goOn_noRoom quiet hvisit⟩
  case takes => exact fun u v result takes hrest => hasRecord_of_takes takes hrest

end HasRecord

end Reporter

end

namespace Compiled

/-- A token is resolved after some steps of a run. -/
structure ResolvesAfter (c : Compiled σ) (signal : Signal) (others : Company (World σ) Report)
    (sc : Scene (World σ) Report) (before : List (Step σ)) (x : Resolution σ) (u : Stand σ) : Prop where
  came : (c.reporter sc).Records signal c.tree others (c.outset sc) before (some (.ok ())) u
  /-- What they resolve are the tokens before this one in pre-order. -/
  behind : (Step.resolutions before).map (·.id) =
    c.tree.past .immediate (Step.resolutions before).length
  here : c.tree.itinerary .immediate (Step.resolutions before).length = some x.id
  /-- What they execute are all the units of those tokens, and no other unit. -/
  done : before = (Step.resolutions before).flatMap Resolution.steps
  /-- The units of this token are left by it now, as the host and the signals have become. -/
  leaves : ∃ slot, c.tree.slots[x.id]? = some slot ∧
    x.units = (slot.token.resolve.run { current := slot.token.label } u.scene.stage.state.host
      u.scene.stage.signals).2.1.entries.toList
  shown : u.scene.sent c.sink = (c.outset sc).scene.sent c.sink ++
    before.flatMap (Step.events (c.reporter sc).run c.tree)

/-- A record of a run that is made token by token. -/
structure TokenByToken (c : Compiled σ) (signal : Signal) (others : Company (World σ) Report)
    (sc : Scene (World σ) Report) (steps : List (Step σ)) (result : Option Outcome) (v : Stand σ) :
    Prop where
  /-- The tokens are resolved in pre-order, from the root on. -/
  preorder : (Step.resolutions steps).map (·.id) =
    c.tree.past .immediate (Step.resolutions steps).length
  once : ((Step.resolutions steps).map (·.id)).Nodup
  /-- The units of each are executed before the next one is resolved. -/
  interleaved : steps ++ v.agenda.units.map .execute =
    (Step.resolutions steps).flatMap Resolution.steps
  /-- When a token is resolved, all before it is done, and nothing of it or after it has begun. -/
  late : ∀ before x after, steps = before ++ .resolve x :: after →
    ∃ u, c.ResolvesAfter signal others sc before x u ∧
      (c.reporter sc).Records signal c.tree others u (.resolve x :: after) result v

variable {signal : Signal} {others : Company (World σ) Report} {sc : Scene (World σ) Report}
  {steps : List (Step σ)} {result : Option Outcome} {v : Stand σ}

/-- Whatever was executed before, a run begins at the root, and has seen no token. -/
theorem outset_at (t : Tour σ) (sc : Scene (World σ) Report) :
    ((tour t).outset sc).At t.tree t.limit 0 where
  ahead := rfl
  seen := rfl
  left := rfl
  passed := nofun

theorem preorder_of_records {t : Tour σ} (h : ((tour t).reporter sc).Records signal t.tree others
    ((tour t).outset sc) steps result v) : (Step.resolutions steps).map (·.id) =
      t.tree.past .immediate (Step.resolutions steps).length := by
  have hpreorder := (h.leads (outset_at t sc)).preorder
  rw [Nat.zero_add] at hpreorder
  exact hpreorder.symm

theorem tokenByToken {t : Tour σ} (h : ((tour t).reporter sc).Records signal t.tree others
    ((tour t).outset sc) steps result v) : (tour t).TokenByToken signal others sc steps result v := by
  have hlead := h.leads (outset_at t sc)
  have hpassed : ∀ j < (Step.resolutions steps).length, ¬ t.tree.Trips .immediate t.limit j := by
    intro j hj
    exact (hlead.arrives.passed j (by rwa [Nat.zero_add])).1
  constructor
  case preorder => exact preorder_of_records h
  case once =>
    rw [preorder_of_records h]
    exact TokenTree.nodup_past hpassed
  case interleaved => exact hlead.interleaved
  case late =>
    rintro before x after rfl
    obtain ⟨u, hbefore, hafter⟩ := h.split
    obtain ⟨first, w, takes, hstep⟩ := hafter.takes
    have hcame := hbefore.leads (outset_at t sc)
    have hdone := hcame.interleaved
    rcases takes.step_eq hcame.arrives with ⟨e, hexecute, -⟩ | ⟨id, hresolve, hunits, hid, -⟩
    · rw [hstep] at hexecute
      cases hexecute
    · rw [hstep] at hresolve
      cases hresolve
      -- A token is resolved only when no unit is left, which is why all units before it are done.
      rw [Nat.zero_add] at hid
      rw [hunits, List.map_nil, List.append_nil] at hdone
      exact ⟨u, ⟨hbefore, preorder_of_records hbefore, hid, hdone, takes.leaves hstep, hbefore.sent⟩,
        hafter⟩

/-- A run is closed by how what it had to do has ended. -/
theorem play_of_goOn {c : Compiled σ} {ended : Option Outcome} (h : c.Ready sc)
    (hgoOn : ((c.reporter sc).goOn signal c.tree c.limit (c.outset sc).agenda
      (c.outset sc).started).play others (c.outset sc).scene =
        (ended.map fun outcome => ⟨v.started, outcome⟩, v.scene)) :
    (c.execute signal).play others sc = (c.reporter sc).wrapUp others v ended := by
  rw [play_ready h, Activity.play_bind, hgoOn]
  cases ended <;> rfl

end Compiled

namespace Engine

/-- A run of a tour resolves each token only when all before it is done, and
walks anew each time. -/
theorem compile_resolves_late (calls : List (TreeCall (Token σ))) (e : Engine)
    (immediate : e.config.strategy = .immediate) (stage stage' : RunStage σ) (c : Compiled σ)
    (h : e.compile (.ofCalls calls) stage = (.ok c, stage')) :
    c.tree = .ofCalls calls ∧ c.limit = e.config.maxTokens ∧
    ∃ k stop, c.tree.EndsAt .immediate c.limit k stop ∧ ∀ signal others sc,
      (c.outset sc).agenda =
        { units := [], ahead := c.tree.root.toList, seen := [], left := c.limit } ∧
      (∀ steps result v, (c.reporter sc).Records signal c.tree others (c.outset sc) steps result v →
        c.TokenByToken signal others sc steps result v) ∧
      ∃ steps result v ended,
        (c.reporter sc).Records signal c.tree others (c.outset sc) steps result v ∧
        v.Ends signal k stop (Step.resolutions steps).length result ended ∧
        (c.execute signal).play others sc = (c.reporter sc).wrapUp others v ended := by
  obtain ⟨t, rfl, htree, hlimit⟩ : ∃ t, c = .tour t ∧ t.tree = .ofCalls calls ∧
      t.limit = e.config.maxTokens := by
    unfold compile at h
    rw [immediate] at h
    cases hstart : (TokenTree.ofCalls calls).start with
    | error f =>
      rw [hstart] at h
      cases h
    | ok root =>
      rw [hstart] at h
      cases h
      exact ⟨_, rfl, rfl, rfl⟩
  have hc : t.tree.Closed := htree ▸ TokenTree.Closed.ofCalls calls
  obtain ⟨k, stop, hends⟩ := hc.exists_endsAt .immediate t.limit
  refine ⟨htree, hlimit, k, stop, hends, fun signal others sc => ⟨rfl, ?_, ?_⟩⟩
  · exact fun steps result v records => Compiled.tokenByToken records
  · obtain ⟨steps, result, v, ended, records, hended, hgoOn⟩ :=
      Reporter.hasRecord hends hc _ 0 (Compiled.outset_at t sc)
    rw [Nat.zero_add] at hended
    have hready : (Compiled.tour t).Ready sc := (compile_made h).ready sc True.intro
    exact ⟨steps, result, v, ended, records, hended, Compiled.play_of_goOn hready hgoOn⟩

section Growing

def upCounter : FlowUnit Nat :=
  { label := "up", execute := fun _ => do .change (· + 1); return .ok () }

def leaveUps : Nat → Filling Nat Outcome
  | 0 => return .ok ()
  | n + 1 => .push upCounter (leaveUps n)

/-- A token that leaves one unit more than were executed before it. -/
def growing (label : String) : Token Nat := { label, resolve := .get fun n => leaveUps (n + 1) }

def growingCalls : List (TreeCall (Token Nat)) :=
  [.push (growing "one"), .push (growing "two"), .setSuccessor 0 1]

/-- What an engine makes of two such tokens that tells about failures. -/
def growingTour : Tour Nat :=
  tour { config := { strategy := .immediate, surfaceFailures := true }, sink := .recorder }
    (.ofCalls growingCalls)

def growingRun (sc : Scene (World Nat) Report) : Option Outcome × Scene (World Nat) Report :=
  ((Compiled.tour growingTour).execute 0).play .nobody sc

/-- The second token leaves more because the unit of the first was executed
before, and so in every run. -/
theorem compile_resolves_late_growing :
    let first := (growingRun { stage := { state := { host := 0 } } }).2
    first.sent .recorder = [.runStarted "flow-run-1" "immediate",
      .tokenResolved "flow-run-1" "one" 1,
      .unitStarted "flow-run-1" "up" "one", .unitCompleted "flow-run-1" "up" "one",
      .tokenResolved "flow-run-1" "two" 2,
      .unitStarted "flow-run-1" "up" "two", .unitCompleted "flow-run-1" "up" "two",
      .unitStarted "flow-run-1" "up" "two", .unitCompleted "flow-run-1" "up" "two",
      .runCompleted "flow-run-1" 3] ∧
    ∃ steps result v, ((Compiled.tour growingTour).reporter first).Records 0 growingTour.tree .nobody
      ((Compiled.tour growingTour).outset first) steps result v ∧
      (Step.resolutions steps).map (·.id) = [0, 1] := by
  refine ⟨by decide, ?_⟩
  generalize hfirst : (growingRun { stage := { state := { host := 0 } } }).2 = first
  have htold : (growingRun first).1 = some (.ok ()) := by subst hfirst; rfl
  obtain ⟨-, -, k, stop, hends, hruns⟩ := compile_resolves_late growingCalls
    { config := { strategy := .immediate, surfaceFailures := true }, sink := .recorder } rfl
    { state := { host := 0 } } { state := { host := 0 } } (.tour growingTour) rfl
  obtain ⟨-, hall, steps, result, v, ended, records, hended, hplay⟩ := hruns 0 .nobody first
  refine ⟨steps, result, v, records, ?_⟩
  -- Failures are told, so that a run that is complete has come through.
  have hok : ended = some (.ok ()) := by
    rw [growingRun, hplay] at htold
    cases ended with
    | none => cases htold
    | some outcome =>
      obtain ⟨told, last, final, hfinish, -, -, -, hcloses⟩ :=
        ((Compiled.tour growingTour).reporter first).play_finish .nobody ⟨v.started, outcome⟩ v.scene
      rw [Reporter.wrapUp, hfinish] at htold
      cases htold
      cases hcloses with
      | completed => rfl
      | hushed _ quiet => cases quiet
  subst hok
  cases hended with
  | through _ reached free =>
    subst free
    cases hends with
    | complete _ through =>
      have hle : k ≤ 2 := (through 2).mp rfl
      have hlt : ¬ k ≤ 1 := fun h => nomatch (through 1).mpr h
      obtain rfl : k = 2 := by omega
      have hpreorder := (hall _ _ _ records).preorder
      rw [reached] at hpreorder
      exact hpreorder

end Growing

end Engine

end Flowchart
