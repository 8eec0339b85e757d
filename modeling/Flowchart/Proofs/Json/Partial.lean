import Mathlib.Data.Finset.Basic
import Flowchart.Proofs.Json.Grammar
import Flowchart.Proofs.Json.Records

/-! Settings written in part: a text that gives some of them, among fields of other names, is read as
these with the defaults for the rest. -/
namespace Flowchart

open Json

section Text

/-- What a text of settings may give. -/
inductive ConfigKey
  | strategy
  | maxTokens
  | surfaceFailures
deriving DecidableEq

def ConfigKey.name : ConfigKey → String
  | strategy => "producer"
  | maxTokens => "maxTokens"
  | surfaceFailures => "surfaceFailures"

def IsText (name : List Char) : Prop := ∃ t, Spells t name

namespace Config

/-- A text of the value that these settings have in a field. -/
inductive Puts (c : Config) : ConfigKey → List Char → Prop
  | strategy {s : List Char} : Spells c.strategy.name.toList s →
      Puts c .strategy ('"' :: (s ++ ['"']))
  | maxTokens : Puts c .maxTokens (Nat.toDigits 10 c.maxTokens)
  | surfaceFailures :
      Puts c .surfaceFailures (if c.surfaceFailures then "true".toList else "false".toList)

/-- A field that gives one setting, or one of another name that `Name` allows and with any value. -/
inductive Field (c : Config) (Name : List Char → Prop) : Option ConfigKey → List Char → Prop
  | setting {f : ConfigKey} {b k b' v : List Char} {before after : List Char} : Blanks b →
      Spells f.name.toList k → Blanks b' → Blanks before → c.Puts f v → Blanks after →
        Field c Name (some f) (fieldText b k b' (before ++ (v ++ after)))
  | other {b k b' v : List Char} : Blanks b → Name k → (∀ f : ConfigKey, ¬ Spells f.name.toList k) →
      Blanks b' → Legal .spaced v → Field c Name none (fieldText b k b' v)

/-- Fields up to the end of the object, and what each of them gives. -/
inductive Fields (c : Config) (Name : List Char → Prop) : List (Option ConfigKey) → List Char → Prop
  | last {f : Option ConfigKey} {s : List Char} : c.Field Name f s →
      Fields c Name [f] (s ++ ['\x7d'])
  | next {f : Option ConfigKey} {fs : List (Option ConfigKey)} {s s' : List Char} : c.Field Name f s →
      Fields c Name fs s' → Fields c Name (f :: fs) (s ++ ',' :: s')

/-- A text of one object that gives the chosen settings as they are here,
each once, and no other setting. -/
inductive Gives (c : Config) (Name : List Char → Prop) (chosen : Finset ConfigKey) : String → Prop
  | empty {b b' b'' : List Char} : Blanks b → Blanks b' → Blanks b'' → chosen = ∅ →
      Gives c Name chosen (String.ofList (b ++ ('\x7b' :: (b' ++ ['\x7d']) ++ b'')))
  | fields {b s b' : List Char} {fs : List (Option ConfigKey)} : Blanks b → c.Fields Name fs s →
      Blanks b' → (∀ f, fs.count (some f) = if f ∈ chosen then 1 else 0) →
        Gives c Name chosen (String.ofList (b ++ ('\x7b' :: s ++ b')))

/-- The chosen ones of these settings, and the defaults of the others. -/
def only (c : Config) (chosen : Finset ConfigKey) : Config :=
  let default : Config := {}
  { strategy := if .strategy ∈ chosen then c.strategy else default.strategy
    maxTokens := if .maxTokens ∈ chosen then c.maxTokens else default.maxTokens
    surfaceFailures := if .surfaceFailures ∈ chosen then c.surfaceFailures
      else default.surfaceFailures }

end Config

end Text

section Read

open Written (fieldTokens field?)

variable {c : Config}

theorem ConfigKey.name_inj : ∀ f g : ConfigKey, f.name = g.name → f = g := by
  intro f g
  cases f <;> cases g <;> decide

namespace Config

/-- A value that is read as these settings have it. -/
def Fills (c : Config) : ConfigKey → Written → Prop
  | .strategy, w => w.toChoice? Strategy.choices = some c.strategy
  | .maxTokens, w => w.toNat? = some c.maxTokens
  | .surfaceFailures, w => w.toBool? = some c.surfaceFailures

def Reads (c : Config) : Option ConfigKey → Option String × Written → Prop
  | some f, (k, w) => k = some f.name ∧ c.Fills f w
  | none, (k, _) => ∃ t : String, k = some t ∧ ∀ f : ConfigKey, t ≠ f.name

theorem Puts.exists_lexes (hfits : c.maxTokens < Nat.pow 2 64) {f : ConfigKey} {v : List Char}
    (h : c.Puts f v) : ∃ w : Written, Lexes v w.tokens ∧ c.Fills f w := by
  cases h with
  | strategy hs =>
    exact ⟨.ofText c.strategy.name, lexes_quoted (Quoted.read?_of_spells hs),
      c.strategy.toChoice?_name⟩
  | maxTokens =>
    have hrender : (Numeral.ofNat c.maxTokens).render = Nat.toDigits 10 c.maxTokens := by
      simp [Numeral.ofNat, Numeral.render, Numeral.mantissaText, Numeral.exponentText]
    have hread := Numeral.legible_ofNat c.maxTokens
    unfold Numeral.Legible at hread
    rw [hrender] at hread
    exact ⟨.ofNat c.maxTokens, lexes_number hread, Written.toNat?_ofNat hfits⟩
  | surfaceFailures =>
    refine ⟨.bool c.surfaceFailures, .of_read? fun rest _ => ?_, rfl⟩
    cases c.surfaceFailures <;> rfl

theorem Field.exists_lexes (hfits : c.maxTokens < Nat.pow 2 64) {f : Option ConfigKey} {s : List Char}
    (h : c.Field IsText f s) :
    ∃ k, ∃ w : Written, Lexes s (.text k :: .colon :: w.tokens) ∧ c.Reads f (k, w) := by
  cases h with
  | @setting f _ _ _ _ _ _ hb hk hb' hbefore hv hafter =>
    obtain ⟨w, hw, hfills⟩ := hv.exists_lexes hfits
    have hfield := lexes_field hb (Quoted.read?_of_spells hk) hb' (.spaced hbefore hw hafter)
    exact ⟨_, w, hfield, rfl, hfills⟩
  | @other _ k _ _ hb hk hother hb' hv =>
    obtain ⟨w, hw⟩ := hv.lexed
    obtain ⟨t, ht⟩ := hk
    have htext : Spells (String.ofList t).toList k := by rwa [String.toList_ofList]
    refine ⟨_, w, lexes_field hb (Quoted.read?_of_spells htext) hb' hw, _, rfl, ?_⟩
    intro f heq
    exact hother f (heq ▸ htext)

theorem Fields.exists_lexes (hfits : c.maxTokens < Nat.pow 2 64) {fs : List (Option ConfigKey)}
    {s : List Char} (h : c.Fields IsText fs s) :
    ∃ g gs, Lexes s (fieldTokens (g :: gs)) ∧ List.Forall₂ c.Reads fs (g :: gs) := by
  induction h with
  | last hf =>
    obtain ⟨k, w, hlexes, hreads⟩ := hf.exists_lexes hfits
    exact ⟨(k, w), [], lexes_lastField hlexes, .cons hreads .nil⟩
  | next hf _ ih =>
    obtain ⟨k, w, hlexes, hreads⟩ := hf.exists_lexes hfits
    obtain ⟨g, gs, hlater, hothers⟩ := ih
    exact ⟨(k, w), g :: gs, lexes_nextField hlexes hlater, .cons hreads hothers⟩

theorem Gives.exists_written (hfits : c.maxTokens < Nat.pow 2 64) {chosen : Finset ConfigKey}
    {text : String} (h : c.Gives IsText chosen text) :
    ∃ fs fields, Written.read? text = some (.object fields) ∧ List.Forall₂ c.Reads fs fields ∧
      ∀ f, fs.count (some f) = if f ∈ chosen then 1 else 0 := by
  cases h with
  | @empty b b' b'' hb hb' hb'' hchosen =>
    have hfields : Lexes (b' ++ ['\x7d']) [.closeObject] :=
      (Lexes.nil hb').append (fun _ _ => ⟨rfl, by decide⟩) (lexes_symbol fun _ => rfl)
    have hobject : Lexes ('\x7b' :: (b' ++ ['\x7d'])) (Written.object []).tokens :=
      .cons (fun _ => rfl) hfields
    exact ⟨[], [], Written.read?_of_lexes (.spaced hb hobject hb''), .nil, by simp [hchosen]⟩
  | @fields b s b' fs hb hfields hb' hcount =>
    obtain ⟨g, gs, hlexes, hreads⟩ := hfields.exists_lexes hfits
    have hobject : Lexes ('\x7b' :: s) (Written.object (g :: gs)).tokens :=
      .cons (fun _ => rfl) hlexes
    exact ⟨fs, g :: gs, Written.read?_of_lexes (.spaced hb hobject hb'), hreads, hcount⟩

variable {fs : List (Option ConfigKey)} {fields : List (Option String × Written)}

theorem isSome_of_reads (h : List.Forall₂ c.Reads fs fields) :
    fields.all (·.1.isSome) = true := by
  induction h with
  | nil => rfl
  | @cons f g _ _ hfirst _ ih =>
    obtain ⟨k, w⟩ := g
    have hk : k.isSome = true := by
      cases f with
      | none =>
        obtain ⟨t, rfl, _⟩ := hfirst
        rfl
      | some f => exact hfirst.1 ▸ rfl
    simp [hk, ih]

/-- The fields of a setting's name are those that give it. -/
theorem filter_of_reads (h : List.Forall₂ c.Reads fs fields) (f : ConfigKey) :
    (fields.filter (·.1 == some f.name)).length = fs.count (some f) ∧
      ∀ g ∈ fields.filter (·.1 == some f.name), c.Fills f g.2 := by
  induction h with
  | nil => simp
  | @cons f' g _ _ hfirst _ ih =>
    obtain ⟨k, w⟩ := g
    by_cases hf : f' = some f
    · subst hf
      obtain ⟨rfl, hfills⟩ := hfirst
      refine ⟨by simp [ih.1], ?_⟩
      simpa [hfills] using ih.2
    · have hk : k ≠ some f.name := by
        cases f' with
        | none =>
          obtain ⟨t, rfl, ht⟩ := hfirst
          simpa using ht f
        | some f' =>
          obtain ⟨rfl, _⟩ := hfirst
          intro heq
          exact hf (congrArg some (ConfigKey.name_inj f' f (Option.some.inj heq)))
      rw [List.filter_cons_of_neg (by simpa using hk), List.count_cons_of_ne hf]
      exact ih

/-- A setting is found if it is chosen, with the value that it has, and else it is not there. -/
theorem exists_field?_of_reads {chosen : Finset ConfigKey} (h : List.Forall₂ c.Reads fs fields)
    (hcount : ∀ f, fs.count (some f) = if f ∈ chosen then 1 else 0) (f : ConfigKey) :
    ∃ given, field? fields f.name = some given ∧
      if f ∈ chosen then ∃ w, given = some w ∧ c.Fills f w else given = none := by
  obtain ⟨hlength, hfills⟩ := filter_of_reads h f
  rw [hcount f] at hlength
  unfold field?
  by_cases hf : f ∈ chosen
  · rw [if_pos hf] at hlength
    obtain ⟨g, hg⟩ := List.length_eq_one_iff.mp hlength
    rw [hg] at hfills ⊢
    exact ⟨some g.2, rfl, by simpa [hf] using hfills g List.mem_cons_self⟩
  · rw [if_neg hf] at hlength
    rw [List.length_eq_zero_iff.mp hlength]
    exact ⟨none, rfl, by simp [hf]⟩

/-- A setting that is given just if it is chosen is read as its value or as its default. -/
theorem orDefault_of_given {α : Type} {default value : α} {decode : Written → Option α}
    {given : Option Written} {p : Prop} [Decidable p]
    (h : if p then ∃ w, given = some w ∧ decode w = some value else given = none) :
    orDefault default decode given = some (if p then value else default) := by
  by_cases hp : p
  · rw [if_pos hp] at h ⊢
    obtain ⟨w, rfl, hw⟩ := h
    exact hw
  · rw [if_neg hp] at h ⊢
    rw [h]
    rfl

/-- Settings that are written in part, beside fields of other names, are
read with the defaults for the rest. -/
theorem chosen_restored {chosen : Finset ConfigKey} {text : String}
    (hfits : c.maxTokens < Nat.pow 2 64) (h : c.Gives IsText chosen text) :
    Config.read? text = some (c.only chosen) := by
  obtain ⟨fs, fields, hread, hreads, hcount⟩ := h.exists_written hfits
  obtain ⟨strategy, hstrategy, hs⟩ := exists_field?_of_reads hreads hcount .strategy
  obtain ⟨maxTokens, hmaxTokens, hm⟩ := exists_field?_of_reads hreads hcount .maxTokens
  obtain ⟨surface, hsurface, hf⟩ := exists_field?_of_reads hreads hcount .surfaceFailures
  simp only [ConfigKey.name] at hstrategy hmaxTokens hsurface
  have hrecord : (Written.object fields).toRecord? ["producer", "maxTokens", "surfaceFailures"] =
      some [strategy, maxTokens, surface] := by
    simp [Written.toRecord?, isSome_of_reads hreads, hstrategy, hmaxTokens, hsurface]
  simp only [Config.read?, hread, ofWritten?, hrecord, Option.bind_eq_bind, Option.bind_some,
    orDefault_of_given hs, orDefault_of_given hm, orDefault_of_given hf]
  rfl

end Config

end Read

section Samples

namespace Config

/-- Settings of which none is the default. -/
def thorough : Config := { strategy := .immediate, maxTokens := 7, surfaceFailures := true }

/-- A text of one of them, its name with an escape, before a note that holds
half of a surrogate pair. -/
def jotted : String :=
  " \x7b\"\\u0070roducer\": \"immediate\",\"note\":[\"\\uD800\",-1E+9]\x7d\n"

theorem half_escape : UnitEscape 0xD800 ['\\', 'u', 'D', '8', '0', '0'] :=
  .digits (i := 13) (j := 8) (k := 0) (l := 0) (by decide) (by decide) (by decide) (by decide)

theorem gives_jotted : thorough.Gives IsText {.strategy} jotted := by
  have hnone : Blanks [] := by simp [Blanks]
  have hspace : Blanks [' '] := by simp [Blanks]
  have hline : Blanks ['\n'] := by simp [Blanks]
  have hp : UnitEscape 'p'.toNat ['\\', 'u', '0', '0', '7', '0'] :=
    .digits (i := 0) (j := 0) (k := 7) (l := 0) (by decide) (by decide) (by decide) (by decide)
  have hname : Spells ConfigKey.strategy.name.toList _ :=
    .unit hp (.self (t := ['r', 'o', 'd', 'u', 'c', 'e', 'r']) (by simp [Unescaped]))
  have hvalue : thorough.Puts .strategy _ :=
    .strategy (.self (t := ['i', 'm', 'm', 'e', 'd', 'i', 'a', 't', 'e']) (by simp [Unescaped]))
  have hstrategy : thorough.Field IsText (some .strategy) _ :=
    .setting hnone hname hnone hspace hvalue hnone
  have hhalf : Legal .spaced _ := .spaced hnone (.text (.unit half_escape .nil)) hnone
  have hone : Digits ['1'] := by simp [Digits]
  have hnine : Digits ['9'] := by simp [Digits]
  have hnumber : Number _ :=
    .parts (.inr rfl) (.digits (by decide) hone) .none (.digits (.inr rfl) (.inr (.inr rfl)) hnine)
  have hlist : Legal .spaced _ :=
    .spaced hnone (.list (.item hhalf (.lastItem (.spaced hnone (.number hnumber) hnone)))) hnone
  have hnote : Spells ['n', 'o', 't', 'e'] _ := .self (by simp [Unescaped])
  have hother : ∀ f : ConfigKey, ¬ Spells f.name.toList ['n', 'o', 't', 'e'] := by
    intro f hf
    have heq := Quoted.spells_unique hf hnote
    cases f <;> simp [ConfigKey.name] at heq
  have hunknown : thorough.Field IsText none _ := .other hnone ⟨_, hnote⟩ hother hnone hlist
  have hcount : ∀ f : ConfigKey, [some ConfigKey.strategy, none].count (some f) =
      if f ∈ ({.strategy} : Finset ConfigKey) then 1 else 0 := by
    intro f
    cases f <;> decide
  have hgives := Config.Gives.fields hspace (.next hstrategy (.last hunknown)) hline hcount
  simpa [fieldText, jotted] using hgives

/-- The chosen strategy is restored, beside the defaults. -/
theorem jotted_restored : thorough.maxTokens < Nat.pow 2 64 ∧
    thorough.Gives IsText {.strategy} jotted ∧
      Config.read? jotted = some { strategy := .immediate } :=
  ⟨by decide, gives_jotted, chosen_restored (by decide) gives_jotted⟩

/-- A text of one setting beside a field that is named by half of a surrogate pair. -/
def halved : String := "\x7b\"maxTokens\":7,\"\\uD800\":null\x7d"

theorem gives_halved : thorough.Gives Quotable {.maxTokens} halved := by
  have hnone : Blanks [] := by simp [Blanks]
  have hname : Spells ConfigKey.maxTokens.name.toList _ :=
    .self (t := ['m', 'a', 'x', 'T', 'o', 'k', 'e', 'n', 's']) (by simp [Unescaped])
  have hvalue : thorough.Puts .maxTokens ['7'] := .maxTokens
  have hmaxTokens : thorough.Field Quotable (some .maxTokens) _ :=
    .setting hnone hname hnone hnone hvalue hnone
  have hhalf : Quotable _ := .unit half_escape .nil
  have hother : ∀ f : ConfigKey, ¬ Spells f.name.toList ['\\', 'u', 'D', '8', '0', '0'] := by
    intro f hf
    obtain ⟨units, hscan, hjoin⟩ := Quoted.exists_scansTo_of_spells hf
    cases hscan []
    cases hjoin
  have hunknown : thorough.Field Quotable none _ :=
    .other hnone hhalf hother hnone (.spaced hnone .null hnone)
  have hcount : ∀ f : ConfigKey, [some ConfigKey.maxTokens, none].count (some f) =
      if f ∈ ({.maxTokens} : Finset ConfigKey) then 1 else 0 := by
    intro f
    cases f <;> decide
  have hgives := Config.Gives.fields hnone (.next hmaxTokens (.last hunknown)) hnone hcount
  simpa [fieldText, halved] using hgives

/-- A name that is no text makes a text of settings unreadable, though
nothing of its field is wanted. -/
theorem halved_refused : thorough.maxTokens < Nat.pow 2 64 ∧
    thorough.Gives Quotable {.maxTokens} halved ∧ Config.read? halved = none :=
  ⟨by decide, gives_halved, by decide +kernel⟩

end Config

end Samples

end Flowchart
