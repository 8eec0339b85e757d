import Flowchart.Proofs.Model.Growth
import Flowchart.Proofs.Model.Guards

/-! Which tokens of a pass are resolved: those whose guards are the sides that branches have chosen
earlier in the same pass. What a branch decided before the pass is never looked at. -/
namespace Flowchart

namespace Graph.Laid

variable {g : Graph} {unseen : List Node} {ahead : List Arrival} {tokens : List NodeToken}

theorem mem_unseen (h : g.Laid unseen ahead tokens) {t : NodeToken} (ht : t ∈ tokens) :
    ∃ n ∈ unseen, n.id = t.node := by
  induction h with
  | nil => cases ht
  | cons found rest ih =>
    rcases List.mem_cons.mp ht with rfl | ht
    · exact ⟨_, List.mem_of_find?_eq_some found, by simpa using List.find?_some found⟩
    · obtain ⟨n, hn, hid⟩ := ih ht
      exact ⟨n, List.mem_of_mem_filter hn, hid⟩

theorem nodup (h : g.Laid unseen ahead tokens) : (tokens.map (·.node)).Nodup := by
  induction h with
  | nil => exact List.nodup_nil
  | @cons unseen a ahead n id tokens found rest ih =>
    rw [List.map_cons, List.nodup_cons]
    refine ⟨fun hmem => ?_, ih⟩
    obtain ⟨t, ht, hnode⟩ := List.mem_map.mp hmem
    obtain ⟨k, hk, hid⟩ := rest.mem_unseen ht
    have hne : k.id ≠ a.node := by simpa using (List.mem_filter.mp hk).2
    exact hne (hid.trans hnode)

/-- The token of a guard's node comes before the guarded one, and is guarded
by what precedes the guard. -/
theorem guard_before (h : g.Laid unseen ahead tokens) {k : Nat} {t : NodeToken}
    (ht : tokens[k]? = some t) {pre post : List (String × String)} {guard : String × String}
    (hguards : t.guards = pre ++ guard :: post) :
    (∃ a ∈ ahead, pre ++ [guard] <+: a.guards) ∨
      ∃ j < k, tokens[j]? = some ⟨guard.1, pre⟩ ∧
        ∃ n ∈ unseen, n.id = guard.1 ∧ ∃ p ∈ n.flowOutputs, p.id = guard.2 := by
  induction h generalizing k with
  | nil => cases ht
  | @cons unseen a ahead n id tokens found rest ih =>
    have hn := List.mem_of_find?_eq_some found
    have hid : n.id = a.node := by simpa using List.find?_some found
    cases k with
    | zero =>
      cases ht
      dsimp only at hguards
      exact .inl ⟨a, List.mem_cons_self, post, by rw [hguards, List.append_assoc]; rfl⟩
    | succ k =>
      rcases ih ht with ⟨x, hx, hprefix⟩ | ⟨j, hj, htoken, m, hm, hport⟩
      · rcases List.mem_append.mp hx with hx | hx
        · rcases guards_of_mem_departures hx with heq | ⟨p, hp, heq⟩
          · exact .inl ⟨a, List.mem_cons_self, heq ▸ hprefix⟩
          · rw [heq] at hprefix
            rcases List.prefix_concat_iff.mp hprefix with hsame | hprefix
            · -- The guard is the last one, that of the node itself.
              obtain ⟨rfl, hguard⟩ := List.append_inj' hsame rfl
              obtain rfl : guard = (n.id, p.id) := List.singleton_inj.mp hguard
              exact .inr ⟨0, k.succ_pos, by rw [hid]; rfl, n, hn, rfl, p, hp, rfl⟩
            · exact .inl ⟨a, List.mem_cons_self, hprefix⟩
        · exact .inl ⟨x, List.mem_cons_of_mem _ hx, hprefix⟩
      · exact .inr ⟨j + 1, Nat.succ_lt_succ hj, htoken, m, List.mem_of_mem_filter hm, hport⟩

end Graph.Laid

namespace Model

variable {m : Model}

/-- The guard is the port of a branch for one way that it can decide. -/
def IsSide (m : Model) (guard : String × String) (choice : Bool) : Prop :=
  m.behaviour? guard.1 = some .branch ∧ ∃ n p, m.graph.node? guard.1 = some n ∧
    n.port? guard.2 = some p ∧ p.name = if choice then "true" else "false"

def condition (m : Model) (n : Node) (d : Desk) : Except Fault Bool :=
  ((n.requireBool m.inputValue "condition").run d).1

/-- A pass gets to a token and resolves its node; `desks` are those it finds at its visits. -/
def Resolves (m : Model) (tokens : List NodeToken) (desks : Nat → Option Desk) (k : Nat) : Prop :=
  ∃ t d, tokens[k]? = some t ∧ desks k = some d ∧ m.allOpen d t.guards = .ok true

/-- Before a visit the pass has resolved the node, which then pulled this condition. -/
def Chose (m : Model) (tokens : List NodeToken) (desks : Nat → Option Desk) (k : Nat) (node : String)
    (choice : Bool) : Prop :=
  ∃ j < k, ∃ t d n, tokens[j]? = some t ∧ desks j = some d ∧ t.node = node ∧
    m.graph.node? node = some n ∧ m.allOpen d t.guards = .ok true ∧ m.condition n d = .ok choice

/-- A token's turn leaves the decisions of other nodes, and a branch notes
the condition that it pulls. -/
structure Turns (m : Model) (t : NodeToken) (d d' : Desk) : Prop where
  others : ∀ id, id ≠ t.node → d'.decision? id = d.decision? id
  decided : m.allOpen d t.guards = .ok true → m.behaviour? t.node = some .branch →
    ∀ n, m.graph.node? t.node = some n →
      ∃ choice, m.condition n d = .ok choice ∧ d'.decision? t.node = some choice

structure TakesTurns (m : Model) (tokens : List NodeToken) (desks : Nat → Option Desk) : Prop where
  before : ∀ k d, desks (k + 1) = some d → ∃ d, desks k = some d
  turns : ∀ k t d d', tokens[k]? = some t → desks k = some d → desks (k + 1) = some d' → m.Turns t d d'

/-- A pass that takes its turns while nobody else decides for the nodes it has been at. -/
structure MindsTurns (m : Model) (tokens : List NodeToken) (desks : Nat → Option Desk) : Prop where
  before : ∀ k d, desks (k + 1) = some d → ∃ d, desks k = some d
  kept : ∀ j k t u d d', tokens[j]? = some t → tokens[k]? = some u → j < k → t.node ≠ u.node →
    desks k = some d → desks (k + 1) = some d' → d'.decision? t.node = d.decision? t.node
  decided : ∀ k t d d', tokens[k]? = some t → desks k = some d → desks (k + 1) = some d' →
    m.allOpen d t.guards = .ok true → m.behaviour? t.node = some .branch →
      ∀ n, m.graph.node? t.node = some n →
        ∃ choice, m.condition n d = .ok choice ∧ d'.decision? t.node = some choice

/-- A pass resolves just the tokens whose guards, where these are sides of branches, were chosen
earlier in it. -/
structure Selects (m : Model) (tokens : List NodeToken) (desks : Nat → Option Desk) : Prop where
  resolves_iff : ∀ k t d, tokens[k]? = some t → desks k = some d → ∃ b, m.allOpen d t.guards = .ok b ∧
    (b = true ↔ ∀ guard ∈ t.guards, ∀ choice, m.IsSide guard choice →
      m.Chose tokens desks k guard.1 choice)
  one_side : ∀ j k t u x y b c, tokens[j]? = some t → tokens[k]? = some u → m.Resolves tokens desks j →
    m.Resolves tokens desks k → x ∈ t.guards → y ∈ u.guards → x.1 = y.1 → m.IsSide x b → m.IsSide y c →
      b = c
  inside : ∀ j k t u x b, tokens[j]? = some t → tokens[k]? = some u → x ∈ u.guards → x.1 = t.node →
    m.IsSide x b → m.Resolves tokens desks k → m.Resolves tokens desks j

theorem TakesTurns.minds {tokens : List NodeToken} {desks : Nat → Option Desk}
    (h : m.TakesTurns tokens desks) : m.MindsTurns tokens desks where
  before := h.before
  kept _ k _ u d d' _ hu _ hne hd hd' := (h.turns k u d d' hu hd hd').others _ hne
  decided k t d d' ht hd hd' := (h.turns k t d d' ht hd hd').decided

theorem MindsTurns.desk_before {tokens : List NodeToken} {desks : Nat → Option Desk}
    (hturns : m.MindsTurns tokens desks) {j k : Nat} (hjk : j ≤ k) {d : Desk}
    (hd : desks k = some d) : ∃ d, desks j = some d := by
  induction k generalizing d with
  | zero =>
    obtain rfl : j = 0 := by omega
    exact ⟨d, hd⟩
  | succ k ih =>
    rcases Nat.lt_or_ge k j with hkj | hjk'
    · obtain rfl : j = k + 1 := by omega
      exact ⟨d, hd⟩
    · obtain ⟨d₁, hd₁⟩ := hturns.before k d hd
      exact ih hjk' hd₁

theorem allOpen_eq_true_iff {guards : List (String × String)} (h : ∀ guard ∈ guards, m.Knows guard)
    (d : Desk) : m.allOpen d guards = .ok true ↔
      ∀ guard ∈ guards, m.isOpen d guard.1 guard.2 = .ok true := by
  induction guards with
  | nil => exact iff_of_true rfl (List.forall_mem_nil _)
  | cons guard guards ih =>
    obtain ⟨b, hb⟩ := (h guard List.mem_cons_self).isOpen_eq d
    have hopen : m.allOpen d (guard :: guards) = if b then m.allOpen d guards else .ok false := by
      rw [allOpen, hb]
      rfl
    rw [List.forall_mem_cons, hopen, hb]
    cases b with
    | false => simp
    | true => simpa using ih fun x hx => h x (List.mem_cons_of_mem _ hx)

theorem IsSide.isOpen_eq {guard : String × String} {choice : Bool} (h : m.IsSide guard choice)
    (d : Desk) : m.isOpen d guard.1 guard.2 = .ok (d.decision? guard.1 = some choice) := by
  obtain ⟨hb, n, p, hn, hp, hname⟩ := h
  unfold isOpen
  simp only [hn, hp, hb, Option.map_some, Option.getD_some, Behaviour.isOpen, hname]
  cases choice <;> rfl

theorem isOpen_of_not_side (hlib : m.OfLibrary) {guard : String × String} (hknows : m.Knows guard)
    (h : ∀ choice, ¬ m.IsSide guard choice) (d : Desk) : m.isOpen d guard.1 guard.2 = .ok true := by
  obtain ⟨n, p, hn, hp⟩ := hknows
  unfold isOpen
  simp only [hn, hp]
  cases hb : m.behaviour? guard.1 with
  | none => rfl
  | some b =>
    have hopen : b.isOpen d guard.1 p = true := by
      cases hlib.declares hn hb with
      | constant | add | getVariable | setVariable | print | delay | fail => rfl
      | branch id =>
        have htrue : p.name ≠ "true" := fun hname => h true ⟨hb, _, p, hn, hp, hname⟩
        have hfalse : p.name ≠ "false" := fun hname => h false ⟨hb, _, p, hn, hp, hname⟩
        simp [Behaviour.isOpen, htrue, hfalse]
    rw [Option.map_some, Option.getD_some, hopen]
    rfl

section

variable (hwf : m.graph.WellFormed) (hlib : m.OfLibrary) {start : String}
  {tokens all : List NodeToken} (hlaid : m.graph.Laid m.graph.nodes [{ node := start }] all)
  (hfirst : tokens <+: all)

theorem getElem?_of_first (hfirst : tokens <+: all) {k : Nat} (hk : k < tokens.length) :
    all[k]? = tokens[k]? := by
  obtain ⟨rest, rfl⟩ := hfirst
  exact List.getElem?_append_left hk

include hlaid hfirst in
theorem place_eq {j k : Nat} {t u : NodeToken} (ht : tokens[j]? = some t) (hu : tokens[k]? = some u)
    (hnode : t.node = u.node) : j = k := by
  have hnodup : (tokens.map (·.node)).Nodup := hlaid.nodup.sublist (hfirst.sublist.map _)
  have hj : (tokens.map (·.node))[j]? = some t.node := by rw [List.getElem?_map, ht]; rfl
  have hk : (tokens.map (·.node))[k]? = some t.node := by rw [List.getElem?_map, hu, hnode]; rfl
  have hlt := (List.getElem?_eq_some_iff.mp hj).1
  exact (List.getElem?_inj hlt hnodup).mp (hj.trans hk.symm)

include hlaid hfirst in
theorem guard_placed {k : Nat} {t : NodeToken} (ht : tokens[k]? = some t)
    {pre post : List (String × String)} {guard : String × String}
    (hguards : t.guards = pre ++ guard :: post) : ∃ j < k, tokens[j]? = some ⟨guard.1, pre⟩ ∧
      ∃ n ∈ m.graph.nodes, n.id = guard.1 ∧ ∃ p ∈ n.flowOutputs, p.id = guard.2 := by
  have hlt := (List.getElem?_eq_some_iff.mp ht).1
  have ht' : all[k]? = some t := (getElem?_of_first hfirst hlt).trans ht
  rcases hlaid.guard_before ht' hguards with ⟨a, ha, hprefix⟩ | ⟨j, hj, hbefore⟩
  · rw [List.mem_singleton.mp ha] at hprefix
    have hlength := hprefix.length_le
    simp at hlength
  · exact ⟨j, hj, getElem?_of_first hfirst (hj.trans hlt) ▸ hbefore⟩

include hwf hlaid hfirst in
theorem knows_guard {k : Nat} {t : NodeToken} (ht : tokens[k]? = some t) :
    ∀ guard ∈ t.guards, m.Knows guard := by
  intro guard hguard
  obtain ⟨pre, post, hsplit⟩ := List.append_of_mem hguard
  obtain ⟨_, _, _, n, hn, hid, p, hp, hport⟩ := guard_placed hlaid hfirst ht hsplit
  exact ⟨n, p, (Graph.node?_eq_some_iff hwf.nodes_nodup).mpr ⟨hn, hid⟩,
    (Graph.port?_eq_some_iff hwf.ports_nodup hn).mpr ⟨List.mem_of_mem_filter hp, hport⟩⟩

variable {desks : Nat → Option Desk} (hturns : m.MindsTurns tokens desks)

include hlaid hfirst in
theorem Chose.unique {j k : Nat} {node : String} {b c : Bool} (hb : m.Chose tokens desks j node b)
    (hc : m.Chose tokens desks k node c) : b = c := by
  obtain ⟨i, _, t, d, n, ht, hd, hnode, hn, _, hb⟩ := hb
  obtain ⟨i', _, t', d', n', ht', hd', hnode', hn', _, hc⟩ := hc
  obtain rfl := place_eq hlaid hfirst ht ht' (hnode.trans hnode'.symm)
  cases hd.symm.trans hd'
  cases hn.symm.trans hn'
  exact Except.ok.inj (hb.symm.trans hc)

include hlaid hfirst hturns

theorem decision?_after {i j k : Nat} {t u : NodeToken} (ht : tokens[i]? = some t)
    (hu : tokens[k]? = some u) (hij : i < j) (hjk : j ≤ k) {d : Desk} (hd : desks k = some d) :
    ∃ d', desks j = some d' ∧ d.decision? t.node = d'.decision? t.node := by
  induction k generalizing u d with
  | zero => omega
  | succ k ih =>
    rcases Nat.lt_or_ge k j with hkj | hjk'
    · obtain rfl : j = k + 1 := by omega
      exact ⟨d, hd, rfl⟩
    · obtain ⟨d₁, hd₁⟩ := hturns.before k d hd
      have hlt := (List.getElem?_eq_some_iff.mp hu).1
      have hv : tokens[k]? = some tokens[k] := List.getElem?_eq_getElem (Nat.lt_of_succ_lt hlt)
      obtain ⟨d', hd', heq⟩ := ih hv hjk' hd₁
      refine ⟨d', hd', ?_⟩
      rw [← heq]
      refine hturns.kept i k t _ d₁ d ht hv (by omega) (fun hnode => ?_) hd₁ hd
      have := place_eq hlaid hfirst ht hv hnode
      omega

include hwf hlib

theorem allOpen_iff_chose {k : Nat} {t : NodeToken} (ht : tokens[k]? = some t) {d : Desk}
    (hd : desks k = some d) : m.allOpen d t.guards = .ok true ↔
      ∀ guard ∈ t.guards, ∀ choice, m.IsSide guard choice →
        m.Chose tokens desks k guard.1 choice := by
  have hknows := knows_guard hwf hlaid hfirst ht
  rw [allOpen_eq_true_iff hknows]
  constructor
  · intro hall guard hguard choice hside
    obtain ⟨pre, post, hsplit⟩ := List.append_of_mem hguard
    obtain ⟨j, hj, hu, n, hn, hid, _⟩ := guard_placed hlaid hfirst ht hsplit
    have hn := (Graph.node?_eq_some_iff hwf.nodes_nodup).mpr ⟨hn, hid⟩
    obtain ⟨dj, hdj⟩ := hturns.desk_before (Nat.le_of_lt hj) hd
    -- The guards in front of this one are those of the branch, open at its turn as they are now.
    have hopen : m.allOpen dj pre = .ok true := by
      refine (allOpen_eq_true_iff (knows_guard hwf hlaid hfirst hu) dj).mpr fun x hx => ?_
      have hx' : x ∈ t.guards := hsplit ▸ List.mem_append_left _ hx
      obtain ⟨pre', post', hsplit'⟩ := List.append_of_mem hx
      obtain ⟨i, hi, hv, _⟩ := guard_placed hlaid hfirst hu hsplit'
      obtain ⟨d', hd', heq⟩ := decision?_after hlaid hfirst hturns hv ht hi (Nat.le_of_lt hj) hd
      cases hdj.symm.trans hd'
      rw [← hall x hx']
      exact (isOpen_congr heq x.2).symm
    obtain ⟨dj', hdj', heq⟩ := decision?_after hlaid hfirst hturns hu ht j.lt_succ_self hj hd
    obtain ⟨c, hc, hdecided⟩ := hturns.decided j _ dj dj' hu hdj hdj' hopen hside.1 n hn
    have hchoice := hall guard hguard
    rw [hside.isOpen_eq, heq, hdecided] at hchoice
    have hcc : some c = some choice := by simpa using Except.ok.inj hchoice
    cases hcc
    exact ⟨j, hj, _, dj, n, hu, hdj, rfl, hn, hopen, hc⟩
  · intro hchosen guard hguard
    by_cases hside : ∃ choice, m.IsSide guard choice
    · obtain ⟨choice, hside⟩ := hside
      obtain ⟨j, hj, u, dj, n, hu, hdj, hnode, hn, hopen, hc⟩ := hchosen guard hguard choice hside
      obtain ⟨dj', hdj', heq⟩ := decision?_after hlaid hfirst hturns hu ht j.lt_succ_self hj hd
      obtain ⟨c, hc', hdecided⟩ := hturns.decided j u dj dj' hu hdj hdj' hopen
        (hnode ▸ hside.1) n (hnode ▸ hn)
      cases hc.symm.trans hc'
      rw [hside.isOpen_eq, ← hnode, heq, hdecided]
      simp
    · exact isOpen_of_not_side hlib (hknows guard hguard) (fun c hc => hside ⟨c, hc⟩) d

theorem MindsTurns.selects : m.Selects tokens desks where
  resolves_iff k t d ht hd := by
    refine ⟨_, allOpen_eq (knows_guard hwf hlaid hfirst ht) d, ?_⟩
    rw [← allOpen_iff_chose hwf hlib hlaid hfirst hturns ht hd, allOpen_eq (knows_guard hwf hlaid hfirst ht) d]
    exact ⟨fun h => congrArg Except.ok h, Except.ok.inj⟩
  one_side j k t u x y b c ht hu hj hk hx hy hxy hb hc := by
    obtain ⟨t', d, ht', hd, hopen⟩ := hj
    cases ht.symm.trans ht'
    obtain ⟨u', d', hu', hd', hopen'⟩ := hk
    cases hu.symm.trans hu'
    have hchose := (allOpen_iff_chose hwf hlib hlaid hfirst hturns ht hd).mp hopen x hx b hb
    have hchose' := (allOpen_iff_chose hwf hlib hlaid hfirst hturns hu hd').mp hopen' y hy c hc
    exact Chose.unique hlaid hfirst (hxy ▸ hchose) hchose'
  inside j k t u x b ht hu hx hnode hb hk := by
    obtain ⟨u', d, hu', hd, hopen⟩ := hk
    cases hu.symm.trans hu'
    obtain ⟨i, _, t', d', _, ht', hd', hnode', _, hopen', _⟩ :=
      (allOpen_iff_chose hwf hlib hlaid hfirst hturns hu hd).mp hopen x hx b hb
    obtain rfl := place_eq hlaid hfirst ht ht' (hnode.symm.trans hnode'.symm)
    exact ⟨t', d', ht', hd', hopen'⟩

omit hturns in
theorem selects (hturns : m.TakesTurns tokens desks) : m.Selects tokens desks :=
  hturns.minds.selects hwf hlib hlaid hfirst

end

end Model

end Flowchart
