import Flowchart.Config
import Flowchart.Event
import Flowchart.Graph.Written
import Flowchart.Proofs.Json.Syntax

/-! Graphs, events and settings read back from their text. -/
namespace Flowchart

namespace Json.Written

section Legible

theorem legible_ofText (s : String) : (ofText s).Legible := by
  simp [Legible, ofText, tokens, Token.Legible]

theorem legible_ofNat (n : Nat) : (ofNat n).Legible := by
  simp [Legible, ofNat, tokens, Token.Legible, Numeral.legible_ofNat]

theorem legible_bool (b : Bool) : (bool b).Legible := by
  simp [Legible, tokens, Token.Legible]

theorem legible_itemTokens {items : List Written} (h : ∀ w ∈ items, w.Legible) :
    ∀ t ∈ itemTokens items, t.Legible := by
  induction items with
  | nil => simp [itemTokens, Token.Legible]
  | cons w rest ih =>
    have hw := h w List.mem_cons_self
    have hrest := ih fun v hv => h v (List.mem_cons_of_mem _ hv)
    intro t ht
    cases rest with
    | nil =>
      simp only [itemTokens, List.mem_append, List.mem_singleton] at ht
      rcases ht with ht | rfl
      · exact hw t ht
      · exact True.intro
    | cons v rest =>
      simp only [itemTokens_cons, List.mem_append, List.mem_cons] at ht
      rcases ht with ht | rfl | ht
      · exact hw t ht
      · exact True.intro
      · exact hrest t ht

theorem legible_list {items : List Written} (h : ∀ w ∈ items, w.Legible) :
    (list items).Legible := by
  intro t ht
  rcases List.mem_cons.mp ht with rfl | ht
  · exact True.intro
  · exact legible_itemTokens h t ht

theorem legible_fieldTokens {fields : List (String × Written)} (h : ∀ f ∈ fields, f.2.Legible) :
    ∀ t ∈ fieldTokens (fields.map fun (k, w) => (some k, w)), t.Legible := by
  induction fields with
  | nil => simp [fieldTokens, Token.Legible]
  | cons f rest ih =>
    have hw := h f List.mem_cons_self
    have hrest := ih fun g hg => h g (List.mem_cons_of_mem _ hg)
    intro t ht
    cases rest with
    | nil =>
      simp only [List.map_cons, List.map_nil, fieldTokens, List.cons_append, List.mem_cons,
        List.mem_append, List.not_mem_nil, or_false] at ht
      rcases ht with rfl | rfl | ht | rfl
      · rfl
      · exact True.intro
      · exact hw t ht
      · exact True.intro
    | cons g rest =>
      simp only [List.map_cons, fieldTokens_cons, List.mem_cons, List.mem_append] at ht
      rcases ht with rfl | rfl | ht | rfl | ht
      · rfl
      · exact True.intro
      · exact hw t ht
      · exact True.intro
      · exact hrest t ht

theorem legible_ofFields {fields : List (String × Written)} (h : ∀ f ∈ fields, f.2.Legible) :
    (ofFields fields).Legible := by
  intro t ht
  rcases List.mem_cons.mp ht with rfl | ht
  · exact True.intro
  · exact legible_fieldTokens h t ht

end Legible

section Restored

theorem toText?_ofText (s : String) : (ofText s).toText? = some s := rfl

theorem toBool?_bool (b : Bool) : (bool b).toBool? = some b := rfl

theorem toNat?_ofNat {n : Nat} (h : n < Nat.pow 2 64) : (ofNat n).toNat? = some n := by
  have hfits : ¬ Nat.pow 2 64 ≤ n := Nat.not_le.mpr h
  simp only [toNat?, ofNat, Numeral.toNat?, Numeral.ofNat]
  exact if_neg (by simp [hfits])

/-- A field is found by its name, if no other one has this. -/
theorem field?_ofFields {fields : List (String × Written)} (hnodup : (fields.map (·.1)).Nodup)
    {f : String × Written} (hf : f ∈ fields) :
    field? (fields.map fun (k, w) => (some k, w)) f.1 = some (some f.2) := by
  have hfilter : fields.filter (·.1 == f.1) = [f] := by
    induction fields with
    | nil => cases hf
    | cons g rest ih =>
      obtain ⟨hg, hrest⟩ := List.nodup_cons.mp hnodup
      rcases List.mem_cons.mp hf with rfl | hf
      · have hnone : rest.filter (·.1 == f.1) = [] := by
          rw [List.filter_eq_nil_iff]
          intro k hk heq
          exact hg (List.mem_map.mpr ⟨k, hk, by simpa using heq⟩)
        rw [List.filter_cons_of_pos (by simp), hnone]
      · have hne : g.1 ≠ f.1 := fun heq => hg (List.mem_map.mpr ⟨f, hf, heq.symm⟩)
        rw [List.filter_cons_of_neg (by simpa using hne), ih hrest hf]
  have hsome : (fields.map fun (k, w) => (some k, w)).filter (·.1 == some f.1) =
      (fields.filter (·.1 == f.1)).map fun (k, w) => (some k, w) := by
    rw [List.filter_map]
    rfl
  unfold field?
  rw [hsome, hfilter]
  rfl

theorem toRecord?_ofFields {names : List String} {fields : List (String × Written)}
    (hnodup : names.Nodup) (hnames : fields.map (·.1) = names) :
    (ofFields fields).toRecord? names = some (fields.map fun f => some f.2) := by
  have hfound : ∀ f ∈ fields, field? (fields.map fun (k, w) => (some k, w)) f.1 = some (some f.2) :=
    fun f hf => field?_ofFields (hnames ▸ hnodup) hf
  have hall : (fields.map fun (k, w) => (some k, w)).all (·.1.isSome) = true := by
    simp [List.all_eq_true]
  have hmap : ∀ found : List (Option String × Written),
      (∀ f ∈ fields, field? found f.1 = some (some f.2)) →
        (fields.map (·.1)).mapM (field? found) = some (fields.map fun f => some f.2) := by
    intro found h
    clear hfound hall hnames
    induction fields with
    | nil => rfl
    | cons f rest ih =>
      have hrest := ih fun g hg => h g (List.mem_cons_of_mem _ hg)
      rw [List.map_cons, List.mapM_cons, h f List.mem_cons_self, hrest]
      rfl
  unfold toRecord? ofFields
  dsimp only
  rw [hall, if_pos rfl, ← hnames]
  exact hmap _ hfound

theorem toList?_map {α : Type} {encode : α → Written} {decode : Written → Option α}
    (h : ∀ a, decode (encode a) = some a) (items : List α) :
    (list (items.map encode)).toList? decode = some items := by
  unfold toList?
  induction items with
  | nil => rfl
  | cons a rest ih =>
    dsimp only at ih ⊢
    rw [List.map_cons, List.mapM_cons, h, ih]
    rfl

end Restored

section Plain

/-- A single value, that is no list and no object. -/
def Plain (w : Written) : Prop := w.depth = 0 ∧ (decode? w).isSome

theorem plain_ofText (s : String) : (ofText s).Plain := ⟨rfl, rfl⟩

theorem plain_ofNat {n : Nat} (h : n < Nat.pow 2 64) : (ofNat n).Plain := by
  constructor
  case left => rfl
  case right => simp [ofNat, decode?, ofNumeral?, Numeral.toInt?, Numeral.ofNat, h]

theorem isSome_ofFields {fields : List (String × Written)} (h : ∀ f ∈ fields, f.2.Plain) :
    (Json.ofWritten? (ofFields fields)).isSome := by
  have hdepth : fieldsDepth (fields.map fun (k, w) => (some k, w)) = 0 := by
    induction fields with
    | nil => rfl
    | cons f rest ih =>
      have hrest := ih fun g hg => h g (List.mem_cons_of_mem _ hg)
      have hf := (h f List.mem_cons_self).1
      rw [List.map_cons, fieldsDepth, hf, hrest]
      rfl
  have hdecode : ∀ done, (decodeFields? done (fields.map fun (k, w) => (some k, w))).isSome := by
    clear hdepth
    induction fields with
    | nil => exact fun _ => rfl
    | cons f rest ih =>
      intro done
      obtain ⟨v, hv⟩ := Option.isSome_iff_exists.mp (h f List.mem_cons_self).2
      have hrest := ih fun g hg => h g (List.mem_cons_of_mem _ hg)
      simp [decodeFields?, hv, hrest]
  unfold Json.ofWritten? ofFields
  rw [if_pos (by simp [depth, hdepth, maxDepth])]
  simp [decode?, hdecode]

end Plain

end Json.Written

open Json (Written)

section Choices

theorem Direction.toChoice?_name (d : Direction) :
    (Written.ofText d.name).toChoice? Direction.choices = some d := by
  cases d <;> rfl

theorem DataType.toChoice?_name (t : DataType) :
    (Written.ofText t.name).toChoice? DataType.choices = some t := by
  cases t <;> rfl

theorem Capacity.toChoice?_name (c : Capacity) :
    (Written.ofText c.name).toChoice? Capacity.choices = some c := by
  cases c <;> rfl

theorem Strategy.toChoice?_name (s : Strategy) :
    (Written.ofText s.name).toChoice? Strategy.choices = some s := by
  cases s <;> rfl

end Choices

open Json.Written (legible_ofText legible_ofNat legible_bool legible_list legible_ofFields
  toText?_ofText toBool?_bool toNat?_ofNat toRecord?_ofFields toList?_map
  plain_ofText plain_ofNat isSome_ofFields)

namespace Port

theorem legible (p : Port) : p.toWritten.Legible := by
  apply legible_ofFields
  simp [legible_ofText, legible_bool]

theorem ofWritten?_toWritten (p : Port) : ofWritten? p.toWritten = some p := by
  unfold ofWritten? toWritten
  rw [toRecord?_ofFields]
  · simp [toText?_ofText, toBool?_bool, Direction.toChoice?_name, DataType.toChoice?_name,
      Capacity.toChoice?_name]
  · decide
  · rfl

end Port

namespace Node

theorem legible (n : Node) : n.toWritten.Legible := by
  have hports : (Written.list (n.ports.map Port.toWritten)).Legible :=
    legible_list (by simp [Port.legible])
  apply legible_ofFields
  simp [legible_ofText, hports]

theorem ofWritten?_toWritten (n : Node) : ofWritten? n.toWritten = some n := by
  unfold ofWritten? toWritten
  rw [toRecord?_ofFields]
  · simp [toText?_ofText, toList?_map Port.ofWritten?_toWritten]
  · decide
  · rfl

end Node

namespace Connection

theorem legible (c : Connection) : c.toWritten.Legible := by
  apply legible_ofFields
  simp [legible_ofText]

theorem ofWritten?_toWritten (c : Connection) : ofWritten? c.toWritten = some c := by
  unfold ofWritten? toWritten
  rw [toRecord?_ofFields]
  · simp [toText?_ofText]
  · decide
  · rfl

end Connection

namespace Graph

theorem legible (g : Graph) : g.toWritten.Legible := by
  have hnodes : (Written.list (g.nodes.map Node.toWritten)).Legible :=
    legible_list (by simp [Node.legible])
  have hconnections : (Written.list (g.connections.map Connection.toWritten)).Legible :=
    legible_list (by simp [Connection.legible])
  apply legible_ofFields
  simp [legible_ofText, hnodes, hconnections]

theorem ofWritten?_toWritten (g : Graph) : ofWritten? g.toWritten = some g := by
  unfold ofWritten? toWritten
  rw [toRecord?_ofFields]
  · simp [toText?_ofText, toList?_map Node.ofWritten?_toWritten,
      toList?_map Connection.ofWritten?_toWritten]
  · decide
  · rfl

theorem read?_render (g : Graph) : Graph.read? g.render = some g := by
  unfold Graph.read? render
  rw [Json.Written.read?_render _ g.legible]
  exact g.ofWritten?_toWritten

end Graph

namespace Config

theorem legible (c : Config) : c.toWritten.Legible := by
  apply legible_ofFields
  simp [legible_ofText, legible_ofNat, legible_bool]

theorem ofWritten?_toWritten {c : Config} (h : c.maxTokens < Nat.pow 2 64) :
    ofWritten? c.toWritten = some c := by
  unfold ofWritten? toWritten
  rw [toRecord?_ofFields]
  · simp [orDefault, Strategy.toChoice?_name, toNat?_ofNat h, toBool?_bool]
  · decide
  · rfl

theorem read?_render {c : Config} (h : c.maxTokens < Nat.pow 2 64) :
    Config.read? c.render = some c := by
  unfold Config.read? render
  rw [Json.Written.read?_render _ c.legible]
  exact ofWritten?_toWritten h

end Config

namespace Event

def counts : Event → List Nat
  | tokenResolved _ _ n | runCompleted _ n | runFailed _ n _ | runCancelled _ n => [n]
  | _ => []

theorem legible (e : Event) : e.toWritten.Legible := by
  apply legible_ofFields
  cases e <;> simp [fields, legible_ofText, legible_ofNat]

theorem ofKind?_fields {e : Event} (h : ∀ n ∈ e.counts, n < Nat.pow 2 64) :
    ofKind? e.kind (.ofFields e.fields) = some e := by
  cases e with
  | runStarted | unitStarted | unitCompleted | unitFailed =>
    simp only [ofKind?, kind, fields]
    rw [toRecord?_ofFields]
    · simp [toText?_ofText]
    · decide
    · rfl
  | tokenResolved _ _ n | runCompleted _ n | runFailed _ n _ | runCancelled _ n =>
    have hn : n < Nat.pow 2 64 := h n List.mem_cons_self
    simp only [ofKind?, kind, fields]
    rw [toRecord?_ofFields]
    · simp [toText?_ofText, toNat?_ofNat hn]
    · decide
    · rfl

/-- No field of an event is called as its kind is, and each stands for a value. -/
theorem plain_fields {e : Event} (h : ∀ n ∈ e.counts, n < Nat.pow 2 64) :
    ∀ f ∈ e.fields, f.1 ≠ "type" ∧ f.2.Plain := by
  cases e with
  | runStarted | unitStarted | unitCompleted | unitFailed => simp [fields, plain_ofText]
  | tokenResolved _ _ n | runCompleted _ n | runFailed _ n _ | runCancelled _ n =>
    have hn := plain_ofNat (h n List.mem_cons_self)
    simp [fields, plain_ofText, hn]

theorem ofWritten?_toWritten {e : Event} (h : ∀ n ∈ e.counts, n < Nat.pow 2 64) :
    ofWritten? e.toWritten = some e := by
  have hplain := plain_fields h
  have hvalue : (Json.ofWritten? e.toWritten).isSome := by
    apply isSome_ofFields
    intro f hf
    rcases List.mem_cons.mp hf with rfl | hf
    · exact plain_ofText e.kind
    · exact (hplain f hf).2
  have hothers : (e.fields.map fun (k, w) => (some k, w)).filter (·.1 == some "type") = [] := by
    rw [List.filter_eq_nil_iff]
    intro f hf
    obtain ⟨g, hg, rfl⟩ := List.mem_map.mp hf
    simpa using (hplain g hg).1
  have hfields : (e.fields.map fun (k, w) => (some k, w)).filter (·.1 != some "type") =
      e.fields.map fun (k, w) => (some k, w) := by
    rw [List.filter_eq_self]
    intro f hf
    obtain ⟨g, hg, rfl⟩ := List.mem_map.mp hf
    simpa using (hplain g hg).1
  have hnone : (Json.ofWritten? e.toWritten).isNone = false := Option.isNone_eq_false_iff.mpr hvalue
  unfold ofWritten?
  rw [hnone, if_neg Bool.false_ne_true]
  unfold toWritten Written.ofFields
  have hself : (some "type" != some "type") = false := rfl
  simp only [List.map_cons, Written.field?, List.filter_cons, BEq.rfl, if_true, hothers, hself,
    hfields, Bool.false_eq_true, if_false]
  exact ofKind?_fields h

theorem read?_render {e : Event} (h : ∀ n ∈ e.counts, n < Nat.pow 2 64) :
    Event.read? e.render = some e := by
  unfold Event.read? render
  rw [Json.Written.read?_render _ e.legible]
  exact ofWritten?_toWritten h

end Event

/-- Nothing is lost in the text of a graph, of an event or of settings, if
each number fits in 64 bits. -/
theorem records_restored :
    (∀ g : Graph, Graph.read? g.render = some g) ∧
    (∀ e : Event, (∀ n ∈ e.counts, n < Nat.pow 2 64) → Event.read? e.render = some e) ∧
    ∀ c : Config, c.maxTokens < Nat.pow 2 64 → Config.read? c.render = some c := by
  constructor
  case left => exact Graph.read?_render
  case right =>
    constructor
    case left => exact fun _ => Event.read?_render
    case right => exact fun _ => Config.read?_render

/-- A graph that breaks rules and has quotes, backslashes and control characters in its texts. -/
def Graph.scrawl : Graph where
  id := "\"scrawl\""
  name := "C:\\flows\n\t\x00\x1f 😀 \u2028"
  nodes := [⟨"", "print", []⟩,
    ⟨"x", "\\\\u0041", [.output "p\"" "/" .flow, .input "p\"" "\x7f" .any]⟩]
  connections := [⟨"x", "p\"", "x", "q"⟩, ⟨"x", "p\"", "x", "q"⟩, ⟨"", "", "nowhere", "\r"⟩]

theorem scrawl_restored :
    Nat.pow 2 64 - 1 < Nat.pow 2 64 ∧
    Graph.read? Graph.scrawl.render = some Graph.scrawl ∧
    Event.read? (Event.runFailed "\x7f" (Nat.pow 2 64 - 1) "type\"\x08").render =
      some (.runFailed "\x7f" (Nat.pow 2 64 - 1) "type\"\x08") ∧
    Config.read? (Config.render { strategy := .immediate, maxTokens := Nat.pow 2 64 - 1 }) =
      some { strategy := .immediate, maxTokens := Nat.pow 2 64 - 1 } := by
  have hfits : Nat.pow 2 64 - 1 < Nat.pow 2 64 := by decide
  obtain ⟨hgraphs, hevents, hconfigs⟩ := records_restored
  exact ⟨hfits, hgraphs _, hevents _ fun n hn => List.mem_singleton.mp hn ▸ hfits, hconfigs _ hfits⟩

end Flowchart
