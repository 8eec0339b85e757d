import Flowchart.Proofs.Graph.History
import Flowchart.Proofs.Model.Growth
import Flowchart.Proofs.Model.Guards
import Flowchart.Proofs.Model.Turn

/-! A run over the tokens of a model does what interpreting the flow of the model directly does. -/
namespace Flowchart

namespace Model

variable {m : Model}

/-- The guards of an arrival are ports, and their nodes are not to come any more. -/
def Settled (m : Model) (unseen : List Node) (a : Arrival) : Prop :=
  ∀ guard ∈ a.guards, m.Knows guard ∧ ∀ n ∈ unseen, n.id ≠ guard.1

theorem Settled.nodesBut {unseen : List Node} {a : Arrival} (h : m.Settled unseen a) (id : String) :
    m.Settled (Graph.nodesBut id unseen) a := fun guard hguard =>
  ⟨(h guard hguard).1, fun n hn => (h guard hguard).2 n (List.mem_of_mem_filter hn)⟩

/-- The nodes of the arrivals at which control comes in, as things are. -/
def comingTo (m : Model) (d : Desk) (ahead : List Arrival) : List String :=
  (ahead.filter fun a => m.opens d a.guards).map (·.node)

theorem comingTo_append (d : Desk) (xs ys : List Arrival) :
    m.comingTo d (xs ++ ys) = m.comingTo d xs ++ m.comingTo d ys := by
  simp [comingTo]

theorem comingTo_cons_of_closed {d : Desk} {a : Arrival} (h : m.opens d a.guards = false)
    (ahead : List Arrival) : m.comingTo d (a :: ahead) = m.comingTo d ahead := by
  simp [comingTo, h]

theorem comingTo_cons_of_open {d : Desk} {a : Arrival} (h : m.opens d a.guards = true)
    (ahead : List Arrival) : m.comingTo d (a :: ahead) = a.node :: m.comingTo d ahead := by
  simp [comingTo, h]

/-- What a node decides changes nothing for arrivals that are settled while the node is to come. -/
theorem comingTo_congr {d d' : Desk} {unseen : List Node} {n : Node} (hn : n ∈ unseen)
    (hothers : ∀ id, id ≠ n.id → d'.decision? id = d.decision? id) {ahead : List Arrival}
    (hsettled : ∀ a ∈ ahead, m.Settled unseen a) : m.comingTo d' ahead = m.comingTo d ahead := by
  unfold comingTo
  congr 1
  refine List.filter_congr fun a ha => opens_congr fun guard hguard => hothers _ ?_
  exact ((hsettled a ha guard hguard).2 n hn).symm

section

variable (hwf : m.graph.WellFormed) {n : Node} (hn : n ∈ m.graph.nodes)
include hwf hn

theorem knows_of_flowOutput {p : Port} (hp : p ∈ n.flowOutputs) : m.Knows (n.id, p.id) :=
  ⟨n, p, (Graph.node?_eq_some_iff hwf.nodes_nodup).mpr ⟨hn, rfl⟩,
    (Graph.port?_eq_some_iff hwf.ports_nodup hn).mpr ⟨List.mem_of_mem_filter hp, rfl⟩⟩

theorem isOpen_of_behaviour {b : Behaviour} (hb : m.behaviour? n.id = some b) {p : Port}
    (hp : p ∈ n.flowOutputs) (d : Desk) : m.isOpen d n.id p.id = .ok (b.isOpen d n.id p) := by
  unfold isOpen
  rw [(Graph.node?_eq_some_iff hwf.nodes_nodup).mpr ⟨hn, rfl⟩]
  dsimp only
  rw [(Graph.port?_eq_some_iff hwf.ports_nodup hn).mpr ⟨List.mem_of_mem_filter hp, rfl⟩, hb]
  rfl

/-- The guards of what a node leads to are settled once the node has been seen. -/
theorem settled_departures {unseen : List Node} {a : Arrival} (hid : n.id = a.node)
    (hsettled : m.Settled unseen a) {id : TokenId} {x : Arrival}
    (hx : x ∈ m.graph.departures n a.guards id) :
    m.Settled (Graph.nodesBut a.node unseen) x := by
  have hold := hsettled.nodesBut a.node
  rcases Graph.guards_of_mem_departures hx with hg | ⟨p, hp, hg⟩
  · intro guard hguard
    exact hold guard (hg ▸ hguard)
  · intro guard hguard
    rw [hg, List.mem_append, List.mem_singleton] at hguard
    rcases hguard with hguard | rfl
    · exact hold guard hguard
    · refine ⟨knows_of_flowOutput hwf hn hp, fun k hk => ?_⟩
      have hne := (List.mem_filter.mp hk).2
      rw [hid]
      simpa using hne

theorem comingTo_departures_of_closed {d : Desk} {guards : List (String × String)}
    (hknows : ∀ guard ∈ guards, m.Knows guard) (hclosed : m.opens d guards = false) (id : TokenId) :
    m.comingTo d (m.graph.departures n guards id) = [] := by
  unfold comingTo
  rw [List.map_eq_nil_iff, List.filter_eq_nil_iff]
  intro x hx
  rcases Graph.guards_of_mem_departures hx with hg | ⟨p, hp, hg⟩
  · simp [hg, hclosed]
  · obtain ⟨b, hb⟩ := (knows_of_flowOutput hwf hn hp).isOpen_eq d
    simp [hg, opens_append hknows hb, hclosed]

end

/-- After the turn of a node, control comes to what is followed from it and
then to what was ahead. -/
theorem comingTo_after (hwf : m.graph.WellFormed) {n : Node} (hn : n ∈ m.graph.nodes) {b : Behaviour}
    (hb : m.behaviour? n.id = some b) (hdeclares : Library.Declares b n) {unseen : List Node}
    (hunseen : n ∈ unseen) {a : Arrival} {ahead : List Arrival}
    (hsettled : ∀ x ∈ a :: ahead, m.Settled unseen x) {d d' : Desk}
    (hopens : m.opens d a.guards = true) {p : Performance (Option Bool)} {choice : Option Bool}
    (hp : p.outcome = .ok choice) (hturned : b.Turned n p d d') (id : TokenId) :
    m.comingTo d' (m.graph.departures n a.guards id ++ ahead) =
      m.followed n choice ++ m.comingTo d ahead := by
  have hhere := hsettled a List.mem_cons_self
  have hopens' : m.opens d' a.guards = true := by
    rw [← hopens]
    refine opens_congr fun guard hguard => hturned.others _ ?_
    exact ((hhere guard hguard).2 n hunseen).symm
  have hways : ∀ q ∈ n.flowOutputs, m.isOpen d' n.id q.id = .ok (q.isTaken choice) := by
    intro q hq
    rw [isOpen_of_behaviour hwf hn hb hq, hturned.ways choice hp]
  have hfollowed : m.comingTo d' (m.graph.departures n a.guards id) = m.followed n choice :=
    map_departures hwf hn hdeclares (fun guard hguard => (hhere guard hguard).1) hopens' hways id
  have hahead : m.comingTo d' ahead = m.comingTo d ahead :=
    comingTo_congr hunseen hturned.others fun x hx => hsettled x (List.mem_cons_of_mem _ hx)
  rw [comingTo_append, hfollowed, hahead]

/-- A run that attends to tokens as they were laid does what interpreting
their nodes does, and notes decisions. -/
theorem simulates (hwf : m.graph.WellFormed) (hlib : m.OfLibrary) {unseen : List Node}
    {ahead : List Arrival} {tokens : List NodeToken} (hlaid : m.graph.Laid unseen ahead tokens)
    (hsub : ∀ n ∈ unseen, n ∈ m.graph.nodes) (hsettled : ∀ a ∈ ahead, m.Settled unseen a)
    (decisions : List (String × Bool)) (r : Reporter) (signal : Signal) (d : Desk) (started : Nat) :
    ∃ started' p d', Activity.Yields signal (r.attend signal (tokens.map (·.token m)) started) d
        ⟨started', p.outcome⟩ p.effects d' ∧
      m.Interprets (m.comingTo d ahead) (d.withDecisions decisions) p ∧
      d'.withDecisions decisions = p.desk := by
  -- The nodes that control comes to next always stand first among the arrivals, so a token and its
  -- node have their turns together.
  induction hlaid generalizing d started with
  | nil => exact ⟨started, ⟨[], .ok (), _⟩, d, .pure _, .nil, rfl⟩
  | @cons unseen a ahead n id tokens found rest ih =>
    have hmem := List.mem_of_find?_eq_some found
    have hid : n.id = a.node := by simpa using List.find?_some found
    have hnode := (Graph.node?_eq_some_iff hwf.nodes_nodup).mpr ⟨hsub n hmem, hid⟩
    obtain ⟨b, hb, hdeclares⟩ := hlib n (hsub n hmem)
    have hknows : ∀ guard ∈ a.guards, m.Knows guard := fun guard hguard =>
      (hsettled a List.mem_cons_self guard hguard).1
    have hsettled' : ∀ x ∈ m.graph.departures n a.guards id ++ ahead,
        m.Settled (Graph.nodesBut a.node unseen) x := by
      intro x hx
      rcases List.mem_append.mp hx with hx | hx
      · exact settled_departures hwf (hsub n hmem) hid (hsettled a List.mem_cons_self) hx
      · exact (hsettled x (List.mem_cons_of_mem _ hx)).nodesBut a.node
    have ih := ih (fun k hk => hsub k (List.mem_of_mem_filter hk)) hsettled'
    have hall := allOpen_eq hknows d
    cases hopens : m.opens d a.guards with
    | false =>
      -- The token does nothing, and all that its node leads to is behind the same closed guard.
      rw [hopens] at hall
      obtain ⟨started', p, d', hyields, hinterprets, hdesk⟩ := ih d started
      rw [comingTo_append, comingTo_departures_of_closed hwf (hsub n hmem) hknows hopens,
        List.nil_append] at hinterprets
      rw [comingTo_cons_of_closed hopens]
      have hidle := NodeToken.yields_closed (t := { node := a.node, guards := a.guards }) hall r
        signal started
      exact ⟨started', p, d', hidle.attend_cons_ok hyields, hinterprets, hdesk⟩
    | true =>
      rw [hopens] at hall
      rw [comingTo_cons_of_open hopens]
      have hb' : m.behaviour? a.node = some b := hid ▸ hb
      obtain ⟨started₁, d₁, hturn, hturned⟩ := NodeToken.yields_open
        (t := { node := a.node, guards := a.guards }) hlib hnode hb' hall r signal started
      have hperform := Behaviour.perform_withDecisions hlib hdeclares d decisions
      rcases hp : b.perform m n d with ⟨effects, f | choice, d₂⟩
      · rw [hp] at hturn hturned hperform
        refine ⟨started₁, ⟨effects, .error f, _⟩, d₁, hturn.attend_cons_error, ?_, hturned.desk decisions⟩
        exact .fails hnode hb' hperform
      · rw [hp] at hturn hturned hperform
        obtain ⟨started', p, d', hyields, hinterprets, hdesk⟩ := ih d₁ started₁
        refine ⟨started', p.after effects, d', hturn.attend_cons_ok hyields, ?_, hdesk⟩
        refine .of_followed hnode hb' hperform ?_
        rw [comingTo_after hwf (hsub n hmem) hb hdeclares hmem hsettled hopens rfl hturned,
          hturned.desk] at hinterprets
        exact hinterprets

end Model

end Flowchart
