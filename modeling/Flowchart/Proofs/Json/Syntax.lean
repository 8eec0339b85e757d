import Flowchart.Json.Written
import Flowchart.Proofs.Json.Lexemes

/-! Written values read back from their text. -/
namespace Flowchart.Json.Written

/-- A property that passes from items to their list and from fields to their
object is one of all values. -/
@[elab_as_elim]
theorem induction {P : Written → Prop} (null : P null) (bool : ∀ b, P (bool b))
    (number : ∀ n, P (number n)) (text : ∀ s, P (text s))
    (list : ∀ items, (∀ w ∈ items, P w) → P (list items))
    (object : ∀ fields, (∀ f ∈ fields, P f.2) → P (object fields)) : ∀ w, P w
  | .null => null
  | .bool b => bool b
  | .number n => number n
  | .text s => text s
  | .list items => list items fun w _ => induction null bool number text list object w
  | .object fields => object fields fun f _ => induction null bool number text list object f.2
termination_by w => sizeOf w
decreasing_by
  · next hw =>
    have := List.sizeOf_lt_of_mem hw
    simp only [Written.list.sizeOf_spec]
    omega
  · next hf =>
    have := List.sizeOf_lt_of_mem hf
    obtain ⟨k, w⟩ := f
    simp only [Prod.mk.sizeOf_spec, Written.object.sizeOf_spec] at this ⊢
    omega

theorem itemTokens_cons (w v : Written) (rest : List Written) :
    itemTokens (w :: v :: rest) = w.tokens ++ .comma :: itemTokens (v :: rest) := by
  rw [itemTokens]
  simp

theorem fieldTokens_cons (k : Option String) (w : Written) (f : Option String × Written)
    (rest : List (Option String × Written)) : fieldTokens ((k, w) :: f :: rest) =
      .text k :: .colon :: (w.tokens ++ .comma :: fieldTokens (f :: rest)) := by
  rw [fieldTokens]
  · rfl
  · simp

section Lexemes

/-- The lexemes of a value lead a reading from where it expects a value to
where it has read this one. -/
def Retraced (w : Written) : Prop :=
  ∀ inside, w.tokens.foldlM Reading.step ⟨.value, inside⟩ = some ⟨.after w, inside⟩

theorem foldlM_itemTokens {w : Written} {rest : List Written} (h : ∀ v ∈ w :: rest, v.Retraced)
    (before : List Written) (inside : List Frame) :
    (itemTokens (w :: rest)).foldlM Reading.step ⟨.value, .items before :: inside⟩ =
      some ⟨.after (.list (before.reverse ++ w :: rest)), inside⟩ := by
  have hw := h w List.mem_cons_self
  induction rest generalizing w before with
  | nil =>
    rw [itemTokens, List.foldlM_append, hw]
    simp [Reading.step]
  | cons v rest ih =>
    have hrest : ∀ u ∈ v :: rest, u.Retraced := fun u hu => h u (List.mem_cons_of_mem _ hu)
    have hv := ih hrest (w :: before) (hrest v List.mem_cons_self)
    rw [itemTokens_cons, List.foldlM_append, hw]
    simpa [Reading.step] using hv

theorem foldlM_fieldTokens {f : Option String × Written} {rest : List (Option String × Written)}
    (h : ∀ g ∈ f :: rest, g.2.Retraced) (before : List (Option String × Written))
    (inside : List Frame) :
    (fieldTokens (f :: rest)).foldlM Reading.step ⟨.key before, inside⟩ =
      some ⟨.after (.object (before.reverse ++ f :: rest)), inside⟩ := by
  obtain ⟨k, w⟩ := f
  have hw : w.Retraced := h (k, w) List.mem_cons_self
  induction rest generalizing k w before with
  | nil =>
    rw [fieldTokens, List.foldlM_append]
    simp [Reading.step, hw (.fields before k :: inside)]
  | cons g rest ih =>
    have hrest : ∀ u ∈ g :: rest, u.2.Retraced := fun u hu => h u (List.mem_cons_of_mem _ hu)
    have hg := ih ((k, w) :: before) g.1 g.2 hrest (hrest g List.mem_cons_self)
    rw [fieldTokens_cons]
    simpa [Reading.step, hw (.fields before k :: inside)] using hg

theorem exists_tokens_cons (w : Written) : ∃ t ts, w.tokens = t :: ts ∧ t ≠ .closeList := by
  cases w <;> exact ⟨_, _, rfl, by simp⟩

theorem retraced (w : Written) : w.Retraced := by
  induction w using induction with
  | null | bool | number | text => exact fun _ => rfl
  | list items ih =>
    intro inside
    cases items with
    | nil => rfl
    | cons w rest =>
      -- The first item is read like the others, though the list might end before it.
      have hfirst : (itemTokens (w :: rest)).foldlM Reading.step ⟨.itemOrClose, inside⟩ =
          (itemTokens (w :: rest)).foldlM Reading.step ⟨.value, .items [] :: inside⟩ := by
        obtain ⟨t, ts, htokens, ht⟩ := exists_tokens_cons w
        obtain ⟨us, hus⟩ : ∃ us, itemTokens (w :: rest) = t :: us := by
          cases rest with
          | nil => exact ⟨_, by rw [itemTokens, htokens]; rfl⟩
          | cons v rest => exact ⟨_, by rw [itemTokens_cons, htokens]; rfl⟩
        have hstep : Reading.step ⟨.itemOrClose, inside⟩ t =
            Reading.step ⟨.value, .items [] :: inside⟩ t := by
          cases t <;> first | rfl | exact absurd rfl ht
        rw [hus, List.foldlM_cons, List.foldlM_cons, hstep]
      have hitems := foldlM_itemTokens ih [] inside
      exact hfirst.trans hitems
  | object fields ih =>
    intro inside
    cases fields with
    | nil => rfl
    | cons f rest =>
      have hfirst : (fieldTokens (f :: rest)).foldlM Reading.step ⟨.keyOrClose, inside⟩ =
          (fieldTokens (f :: rest)).foldlM Reading.step ⟨.key [], inside⟩ := by
        obtain ⟨k, w⟩ := f
        cases rest with
        | nil => rfl
        | cons g rest => rw [fieldTokens_cons]; rfl
      have hfields := foldlM_fieldTokens ih [] inside
      exact hfirst.trans hfields

/-- A value is read back from its lexemes. -/
theorem ofTokens?_tokens (w : Written) : ofTokens? w.tokens = some w := by
  unfold ofTokens?
  rw [w.retraced []]
  rfl

end Lexemes

section Text

open Token (readAll?)

/-- The text of some lexemes is read into these, and what follows it is read on. -/
def Relexed (ts : List Token) (rest : List Char) : Prop :=
  readAll? (ts.flatMap Token.render ++ rest) = (readAll? rest).map (ts ++ ·)

theorem Relexed.append {ts us : List Token} {rest : List Char}
    (ht : Relexed ts (us.flatMap Token.render ++ rest)) (hu : Relexed us rest) :
    Relexed (ts ++ us) rest := by
  unfold Relexed at ht hu ⊢
  rw [List.flatMap_append, List.append_assoc, ht, hu, Option.map_map]
  simp [Function.comp_def]

theorem Relexed.cons {t : Token} {us : List Token} {rest : List Char} (h : t.Legible)
    (hstops : t.Stops (us.flatMap Token.render ++ rest)) (hu : Relexed us rest) :
    Relexed (t :: us) rest := by
  have ht : Relexed [t] (us.flatMap Token.render ++ rest) := by
    unfold Relexed
    rw [List.flatMap_singleton, Token.readAll?_render h hstops]
    rfl
  exact ht.append hu

theorem Relexed.nil (rest : List Char) : Relexed [] rest := by
  simp [Relexed]

def Legible (w : Written) : Prop := ∀ t ∈ w.tokens, t.Legible

theorem relexed_itemTokens {w : Written} {rest : List Written}
    (h : ∀ v ∈ w :: rest, v.Legible → ∀ tail, Ended tail → Relexed v.tokens tail)
    (hlegible : ∀ t ∈ itemTokens (w :: rest), t.Legible) (tail : List Char) :
    Relexed (itemTokens (w :: rest)) tail := by
  induction rest generalizing w with
  | nil =>
    have hw := h w List.mem_cons_self fun t ht => hlegible t (by simp [itemTokens, ht])
    have hclose : Relexed [.closeList] tail := .cons True.intro True.intro (.nil tail)
    rw [itemTokens]
    exact (hw (']' :: tail) ⟨rfl, by decide⟩).append hclose
  | cons v rest ih =>
    have hw := h w List.mem_cons_self fun t ht => hlegible t (by simp [itemTokens_cons, ht])
    have hrest := ih (fun u hu => h u (List.mem_cons_of_mem _ hu)) fun t ht =>
      hlegible t (by simp [itemTokens_cons, ht])
    have hcomma : Relexed (.comma :: itemTokens (v :: rest)) tail :=
      .cons True.intro True.intro hrest
    have hended : Ended (',' :: ((itemTokens (v :: rest)).flatMap Token.render ++ tail)) :=
      ⟨rfl, by decide⟩
    rw [itemTokens_cons]
    exact (hw _ hended).append hcomma

theorem relexed_fieldTokens {f : Option String × Written} {rest : List (Option String × Written)}
    (h : ∀ g ∈ f :: rest, g.2.Legible → ∀ tail, Ended tail → Relexed g.2.tokens tail)
    (hlegible : ∀ t ∈ fieldTokens (f :: rest), t.Legible) (tail : List Char) :
    Relexed (fieldTokens (f :: rest)) tail := by
  induction rest generalizing f with
  | nil =>
    obtain ⟨k, w⟩ := f
    have hk : (Token.text k).Legible := hlegible _ (by simp [fieldTokens])
    have hw := h _ List.mem_cons_self fun t ht => hlegible t (by simp [fieldTokens, ht])
    have hclose : Relexed [.closeObject] tail := .cons True.intro True.intro (.nil tail)
    have hvalue : Relexed (w.tokens ++ [.closeObject]) tail :=
      (hw ('\x7d' :: tail) ⟨rfl, by decide⟩).append hclose
    have hcolon : Relexed (.colon :: (w.tokens ++ [.closeObject])) tail :=
      .cons True.intro True.intro hvalue
    exact .cons hk True.intro hcolon
  | cons g rest ih =>
    obtain ⟨k, w⟩ := f
    have hk : (Token.text k).Legible := hlegible _ (by simp [fieldTokens_cons])
    have hw := h _ List.mem_cons_self fun t ht => hlegible t (by simp [fieldTokens_cons, ht])
    have hrest := ih (fun u hu => h u (List.mem_cons_of_mem _ hu)) fun t ht =>
      hlegible t (by simp [fieldTokens_cons, ht])
    have hcomma : Relexed (.comma :: fieldTokens (g :: rest)) tail :=
      .cons True.intro True.intro hrest
    have hended : Ended (',' :: ((fieldTokens (g :: rest)).flatMap Token.render ++ tail)) :=
      ⟨rfl, by decide⟩
    have hvalue : Relexed (w.tokens ++ .comma :: fieldTokens (g :: rest)) tail :=
      (hw _ hended).append hcomma
    have hcolon : Relexed (.colon :: (w.tokens ++ .comma :: fieldTokens (g :: rest))) tail :=
      .cons True.intro True.intro hvalue
    rw [fieldTokens_cons]
    exact .cons hk True.intro hcolon

theorem relexed (w : Written) (h : w.Legible) (tail : List Char) (htail : Ended tail) :
    Relexed w.tokens tail := by
  induction w using induction generalizing tail with
  | null | bool => exact .cons True.intro True.intro (.nil tail)
  | number n => exact .cons (h (.number n) List.mem_cons_self) htail (.nil tail)
  | text s => exact .cons (h (.text s) List.mem_cons_self) True.intro (.nil tail)
  | list items ih =>
    have hitems : Relexed (itemTokens items) tail := by
      cases items with
      | nil => exact .cons True.intro True.intro (.nil tail)
      | cons w rest =>
        exact relexed_itemTokens ih (fun t ht => h t (List.mem_cons_of_mem _ ht)) tail
    exact .cons True.intro True.intro hitems
  | object fields ih =>
    have hfields : Relexed (fieldTokens fields) tail := by
      cases fields with
      | nil => exact .cons True.intro True.intro (.nil tail)
      | cons f rest =>
        exact relexed_fieldTokens ih (fun t ht => h t (List.mem_cons_of_mem _ ht)) tail
    exact .cons True.intro True.intro hfields

/-- A value all of whose lexemes are read back is itself read back from its text. -/
theorem read?_render (w : Written) (h : w.Legible) : read? (String.ofList w.render) = some w := by
  have htokens : readAll? w.render = some w.tokens := by
    have hw := w.relexed h [] True.intro
    unfold Relexed at hw
    rw [List.append_nil] at hw
    rw [render, hw, readAll?]
    simp
  unfold read?
  rw [String.toList_ofList, htokens]
  exact w.ofTokens?_tokens

end Text

end Flowchart.Json.Written
