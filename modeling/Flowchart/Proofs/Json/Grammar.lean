import Flowchart.Proofs.Json.Syntax

/-! The grammar of JSON text, apart from any reading of it, and the lexemes of every such text,
whatever white space, escapes and number literals it holds. -/
namespace Flowchart.Json

section Grammar

def Blanks (s : List Char) : Prop := ∀ c ∈ s, c = ' ' ∨ c = '\t' ∨ c = '\n' ∨ c = '\r'

def HexDigit (v : Nat) (c : Char) : Prop :=
  (c, v) ∈ "0123456789abcdef".toList.zipIdx ∨ (c, v) ∈ "0123456789ABCDEF".toList.zipIdx

instance (v : Nat) (c : Char) : Decidable (HexDigit v c) :=
  inferInstanceAs (Decidable (_ ∨ _))

/-- An escape that names a code unit by its four digits. -/
inductive UnitEscape : Nat → List Char → Prop
  | digits {a b c d : Char} {i j k l : Nat} : HexDigit i a → HexDigit j b → HexDigit k c →
      HexDigit l d → UnitEscape (((i * 16 + j) * 16 + k) * 16 + l) ['\\', 'u', a, b, c, d]

def shortEscapes : List (Char × Char) :=
  [('"', '"'), ('\\', '\\'), ('/', '/'), ('b', '\x08'), ('f', '\x0c'), ('n', '\n'), ('r', '\r'),
    ('t', '\t')]

/-- A character that may stand for itself between quotes. -/
def Unescaped (c : Char) : Prop := c ≠ '"' ∧ c ≠ '\\' ∧ 32 ≤ c.toNat

instance : DecidablePred Unescaped := fun _ => inferInstanceAs (Decidable (_ ∧ _ ∧ _))

/-- What may stand between the quotes of a string. -/
inductive Quotable : List Char → Prop
  | nil : Quotable []
  | plain {c : Char} {s : List Char} : Unescaped c → Quotable s → Quotable (c :: s)
  | short {e c : Char} {s : List Char} : (e, c) ∈ shortEscapes → Quotable s →
      Quotable ('\\' :: e :: s)
  | unit {u : Nat} {e s : List Char} : UnitEscape u e → Quotable s → Quotable (e ++ s)

/-- What stands between quotes is a way to write a text. There is none to
write half of a surrogate pair. -/
inductive Spells : List Char → List Char → Prop
  | nil : Spells [] []
  | plain {c : Char} {t s : List Char} : Unescaped c → Spells t s → Spells (c :: t) (c :: s)
  | short {e c : Char} {t s : List Char} : (e, c) ∈ shortEscapes → Spells t s →
      Spells (c :: t) ('\\' :: e :: s)
  | unit {c : Char} {t e s : List Char} : UnitEscape c.toNat e → Spells t s →
      Spells (c :: t) (e ++ s)
  | pair {c : Char} {high low : Nat} {t e e' s : List Char} : UnitEscape (0xD800 + high) e →
      UnitEscape (0xDC00 + low) e' → high < 0x400 → low < 0x400 →
        c.toNat = 0x10000 + high * 0x400 + low → Spells t s → Spells (c :: t) (e ++ (e' ++ s))

theorem Spells.self {t : List Char} (h : ∀ c ∈ t, Unescaped c) : Spells t t := by
  induction t with
  | nil => exact .nil
  | cons c t ih =>
    exact .plain (h c List.mem_cons_self) (ih fun d hd => h d (List.mem_cons_of_mem _ hd))

def Digits (s : List Char) : Prop := s ≠ [] ∧ ∀ c ∈ s, c.isDigit = true

/-- The digits before the decimal point, which begin with a zero only if that is all. -/
inductive Whole : List Char → Prop
  | zero : Whole ['0']
  | digits {d : Char} {ds : List Char} : d ≠ '0' → Digits (d :: ds) → Whole (d :: ds)

inductive Fraction : List Char → Prop
  | none : Fraction []
  | digits {ds : List Char} : Digits ds → Fraction ('.' :: ds)

inductive Exponent : List Char → Prop
  | none : Exponent []
  | digits {e : Char} {sign ds : List Char} : e = 'e' ∨ e = 'E' →
      sign = [] ∨ sign = ['-'] ∨ sign = ['+'] → Digits ds → Exponent (e :: (sign ++ ds))

inductive Number : List Char → Prop
  | parts {sign whole fraction exponent : List Char} : sign = [] ∨ sign = ['-'] → Whole whole →
      Fraction fraction → Exponent exponent →
        Number (sign ++ (whole ++ (fraction ++ exponent)))

/-- A field: its name in quotes and its value, with white space around each. -/
def fieldText (before name after value : List Char) : List Char :=
  before ++ '"' :: (name ++ '"' :: (after ++ ':' :: value))

/-- The parts of JSON text. The items of a list and the fields of an object go up to its end. -/
inductive Part
  | value
  | spaced
  | items
  | field
  | fields

inductive Legal : Part → List Char → Prop
  | null : Legal .value "null".toList
  | true : Legal .value "true".toList
  | false : Legal .value "false".toList
  | number {s : List Char} : Number s → Legal .value s
  | text {s : List Char} : Quotable s → Legal .value ('"' :: (s ++ ['"']))
  | emptyList {b : List Char} : Blanks b → Legal .value ('[' :: (b ++ [']']))
  | list {s : List Char} : Legal .items s → Legal .value ('[' :: s)
  | emptyObject {b : List Char} : Blanks b → Legal .value ('\x7b' :: (b ++ ['\x7d']))
  | object {s : List Char} : Legal .fields s → Legal .value ('\x7b' :: s)
  | spaced {b v b' : List Char} : Blanks b → Legal .value v → Blanks b' →
      Legal .spaced (b ++ (v ++ b'))
  | lastItem {v : List Char} : Legal .spaced v → Legal .items (v ++ [']'])
  | item {v s : List Char} : Legal .spaced v → Legal .items s → Legal .items (v ++ ',' :: s)
  | field {b k b' v : List Char} : Blanks b → Quotable k → Blanks b' → Legal .spaced v →
      Legal .field (fieldText b k b' v)
  | lastField {f : List Char} : Legal .field f → Legal .fields (f ++ ['\x7d'])
  | nextField {f s : List Char} : Legal .field f → Legal .fields s → Legal .fields (f ++ ',' :: s)

end Grammar

namespace Quoted

theorem hexValue?_of_hexDigit {v : Nat} {c : Char} (h : HexDigit v c) : hexValue? c = some v := by
  have hlower : ∀ p ∈ "0123456789abcdef".toList.zipIdx, hexValue? p.1 = some p.2 := by decide
  have hupper : ∀ p ∈ "0123456789ABCDEF".toList.zipIdx, hexValue? p.1 = some p.2 := by decide
  rcases h with h | h
  · exact hlower _ h
  · exact hupper _ h

theorem scan?_unitEscape {u : Nat} {e : List Char} (h : UnitEscape u e) (rest : List Char) :
    scan? (e ++ rest) = (scan? rest).map fun (units, s) => (u :: units, s) := by
  obtain ⟨ha, hb, hc, hd⟩ := h
  rename_i a b c d i j k l
  have hunit : codeUnit? a b c d = some (((i * 16 + j) * 16 + k) * 16 + l) := by
    simp [codeUnit?, hexValue?_of_hexDigit ha, hexValue?_of_hexDigit hb, hexValue?_of_hexDigit hc,
      hexValue?_of_hexDigit hd]
  simp only [List.cons_append, List.nil_append]
  rw [scan?, hunit]
  cases scan? rest <;> rfl

theorem shortEscape?_of_mem : ∀ p ∈ shortEscapes, p.1 ≠ 'u' ∧ shortEscape? p.1 = some p.2 := by
  decide

theorem scan?_unescaped {c : Char} (h : Unescaped c) (rest : List Char) :
    scan? (c :: rest) = (scan? rest).map fun (units, s) => (c.toNat :: units, s) :=
  scan?_plain h.1 h.2.1 (Nat.not_lt.mpr h.2.2) rest

/-- The code units between two quotes are read up to the second one. -/
def ScansTo (s : List Char) (units : List Nat) : Prop :=
  ∀ rest, scan? (s ++ '"' :: rest) = some (units, rest)

theorem exists_scansTo {s : List Char} (h : Quotable s) : ∃ units, ScansTo s units := by
  induction h with
  | nil => exact ⟨[], fun rest => rfl⟩
  | plain hc _ ih =>
    obtain ⟨units, hs⟩ := ih
    exact ⟨_, fun rest => by rw [List.cons_append, scan?_unescaped hc, hs]; rfl⟩
  | short he _ ih =>
    obtain ⟨units, hs⟩ := ih
    obtain ⟨hu, hc⟩ := shortEscape?_of_mem _ he
    exact ⟨_, fun rest => by rw [List.cons_append, List.cons_append, scan?_short hu hc, hs]; rfl⟩
  | unit he _ ih =>
    obtain ⟨units, hs⟩ := ih
    exact ⟨_, fun rest => by rw [List.append_assoc, scan?_unitEscape he, hs]; rfl⟩

theorem join?_cons_toNat (c : Char) (units : List Nat) :
    join? (c.toNat :: units) = (join? units).map (c :: ·) := by
  obtain ⟨hhigh, hlow⟩ := not_half c
  cases units with
  | nil => simp [join?, hhigh, hlow, Char.ofNat_toNat]
  | cons u units => simp [join?, hhigh, hlow, Char.ofNat_toNat]

theorem join?_pair {c : Char} {high low : Nat} (hhigh : high < 0x400) (hlow : low < 0x400)
    (hc : c.toNat = 0x10000 + high * 0x400 + low) (units : List Nat) :
    join? ((0xD800 + high) :: (0xDC00 + low) :: units) = (join? units).map (c :: ·) := by
  have hpair : pair (0xD800 + high) (0xDC00 + low) = c := by
    simp only [pair, Nat.add_sub_cancel_left]
    rw [← hc, Char.ofNat_toNat]
  have hisHigh : isHigh (0xD800 + high) = true := by
    simp only [isHigh, Bool.and_eq_true, decide_eq_true_eq]
    omega
  have hisLow : isLow (0xDC00 + low) = true := by
    simp only [isLow, Bool.and_eq_true, decide_eq_true_eq]
    omega
  simp [join?, hisHigh, hisLow, hpair]

theorem exists_scansTo_of_spells {t s : List Char} (h : Spells t s) :
    ∃ units, ScansTo s units ∧ join? units = some t := by
  induction h with
  | nil => exact ⟨[], fun rest => rfl, rfl⟩
  | plain hc _ ih =>
    obtain ⟨units, hs, ht⟩ := ih
    refine ⟨_, fun rest => ?_, by rw [join?_cons_toNat, ht]; rfl⟩
    rw [List.cons_append, scan?_unescaped hc, hs]
    rfl
  | short he _ ih =>
    obtain ⟨units, hs, ht⟩ := ih
    obtain ⟨hu, hc⟩ := shortEscape?_of_mem _ he
    refine ⟨_, fun rest => ?_, by rw [join?_cons_toNat, ht]; rfl⟩
    rw [List.cons_append, List.cons_append, scan?_short hu hc, hs]
    rfl
  | unit he _ ih =>
    obtain ⟨units, hs, ht⟩ := ih
    refine ⟨_, fun rest => ?_, by rw [join?_cons_toNat, ht]; rfl⟩
    rw [List.append_assoc, scan?_unitEscape he, hs]
    rfl
  | pair he he' hhigh hlow hc _ ih =>
    obtain ⟨units, hs, ht⟩ := ih
    refine ⟨_, fun rest => ?_, by rw [join?_pair hhigh hlow hc, ht]; rfl⟩
    rw [List.append_assoc, scan?_unitEscape he, List.append_assoc, scan?_unitEscape he', hs]
    rfl

theorem spells_unique {t t' s : List Char} (h : Spells t s) (h' : Spells t' s) : t = t' := by
  obtain ⟨units, hs, ht⟩ := exists_scansTo_of_spells h
  obtain ⟨units', hs', ht'⟩ := exists_scansTo_of_spells h'
  have hunits : units = units' := by simpa [hs []] using hs' []
  rw [hunits, ht'] at ht
  exact (Option.some.inj ht).symm

theorem exists_read? {s : List Char} (h : Quotable s) :
    ∃ t, ∀ rest, read? (s ++ '"' :: rest) = some (t, rest) := by
  obtain ⟨units, hs⟩ := exists_scansTo h
  exact ⟨_, fun rest => by rw [read?, hs]; rfl⟩

/-- A text is read from every way to write it. -/
theorem read?_of_spells {t : String} {s : List Char} (h : Spells t.toList s) (rest : List Char) :
    read? (s ++ '"' :: rest) = some (some t, rest) := by
  obtain ⟨units, hs, ht⟩ := exists_scansTo_of_spells h
  simp [read?, hs rest, ht, String.ofList_toList]

end Quoted

namespace Numeral

/-- No digit goes on in a text, and no decimal point if that might follow. -/
def Cut (point : Bool) (rest : List Char) : Prop :=
  ∀ c ∈ rest.head?, c.isDigit = false ∧ (point = true → c ≠ '.')

theorem digitRun_cut {ds rest : List Char} {point : Bool} (hds : ∀ c ∈ ds, c.isDigit = true)
    (hrest : Cut point rest) : digitRun (ds ++ rest) = (ds, rest) := by
  unfold digitRun
  rw [List.takeWhile_append_of_pos hds, List.dropWhile_append_of_pos hds]
  cases rest with
  | nil => simp
  | cons c rest => simp [(hrest c rfl).1]

theorem cut_of_ended {rest : List Char} (h : Ended rest) (point : Bool) : Cut point rest := by
  intro c hc
  cases rest with
  | nil => cases hc
  | cons d rest =>
    cases hc
    exact ⟨h.1, fun _ => h.2.1⟩

theorem exponentSign_append {sign ds : List Char} (h : sign = [] ∨ sign = ['-'] ∨ sign = ['+'])
    (hds : Digits ds) :
    ∃ negative, ∀ rest, exponentSign (sign ++ (ds ++ rest)) = (negative, ds ++ rest) := by
  rcases h with rfl | rfl | rfl
  · obtain ⟨hne, hdigits⟩ := hds
    cases ds with
    | nil => exact absurd rfl hne
    | cons d ds =>
      have hd : d.isDigit = true := hdigits d List.mem_cons_self
      refine ⟨false, fun rest => ?_⟩
      rw [List.nil_append, List.cons_append, exponentSign.eq_def]
      -- A digit is no sign.
      split
      · next heq =>
        cases heq
        cases hd
      · next heq =>
        cases heq
        cases hd
      · rfl
  · exact ⟨true, fun _ => rfl⟩
  · exact ⟨false, fun _ => rfl⟩

theorem exists_readExponent? {s : List Char} (h : Exponent s) :
    ∃ e, ∀ rest, Ended rest → readExponent? (s ++ rest) = some (e, rest) := by
  cases h with
  | none => exact ⟨none, fun _ => readExponent?_ended⟩
  | @digits e sign ds he hsign hds =>
    obtain ⟨negative, hsplit⟩ := exponentSign_append hsign hds
    refine ⟨some (if negative then -(Nat.ofDigitChars 10 ds 0 : Int) else Nat.ofDigitChars 10 ds 0),
      fun rest hrest => ?_⟩
    have hrun := digitRun_append hds.2 hrest
    simp only [readExponent?, he, hsplit, hrun, List.cons_append, List.append_assoc, if_true,
      List.isEmpty_eq_false_iff.mpr hds.1, Bool.false_eq_true, if_false]

theorem cut_exponent {s rest : List Char} (h : Exponent s) (hrest : Ended rest) :
    Cut true (s ++ rest) := by
  cases h with
  | none => exact cut_of_ended hrest true
  | @digits e sign ds he _ _ =>
    intro c hc
    cases hc
    rcases he with rfl | rfl <;> exact ⟨rfl, by decide⟩

theorem exists_readFraction? {s : List Char} (h : Fraction s) :
    ∃ ds, ∀ rest, Cut true rest → readFraction? (s ++ rest) = some (ds, rest) := by
  cases h with
  | none =>
    refine ⟨none, fun rest hrest => ?_⟩
    cases rest with
    | nil => rfl
    | cons c rest =>
      rw [List.nil_append, readFraction?]
      simp [(hrest c rfl).2]
  | @digits ds hds =>
    refine ⟨some ds, fun rest hrest => ?_⟩
    have hrun := digitRun_cut hds.2 hrest
    simp [readFraction?, hrun, hds.1]

theorem cut_fraction {s rest : List Char} (h : Fraction s) (hrest : Cut true rest) :
    Cut false (s ++ rest) := by
  cases h with
  | none => exact fun c hc => ⟨(hrest c hc).1, by simp⟩
  | digits _ =>
    intro c hc
    cases hc
    exact ⟨rfl, by simp⟩

theorem readWhole?_append {s rest : List Char} (h : Whole s) (hrest : Cut false rest) :
    readWhole? (s ++ rest) = some (s, rest) := by
  cases h with
  | zero => rfl
  | @digits d ds hd hds =>
    have hrun : digitRun (d :: (ds ++ rest)) = (d :: ds, rest) := digitRun_cut hds.2 hrest
    rw [List.cons_append, readWhole?]
    · simp [hrun]
    · simp [hd]

theorem exists_readUnsigned? {whole fraction exponent : List Char} (hwhole : Whole whole)
    (hfraction : Fraction fraction) (hexponent : Exponent exponent) (negative : Bool) :
    ∃ n, ∀ rest, Ended rest →
      readUnsigned? negative (whole ++ (fraction ++ (exponent ++ rest))) = some (n, rest) := by
  obtain ⟨ds, hds⟩ := exists_readFraction? hfraction
  obtain ⟨e, he⟩ := exists_readExponent? hexponent
  let digits := Nat.ofDigitChars 10 (whole ++ ds.getD []) 0
  refine ⟨⟨negative, digits, ds.map List.length, e⟩, fun rest hrest => ?_⟩
  have hcut := cut_exponent hexponent hrest
  have hw := readWhole?_append hwhole (cut_fraction hfraction hcut)
  simp only [readUnsigned?, hw, hds _ hcut, he rest hrest, Option.bind_eq_bind, Option.bind_some]
  rfl

theorem read?_of_whole {whole s : List Char} (h : Whole whole) :
    read? (whole ++ s) = readUnsigned? false (whole ++ s) := by
  rw [read?.eq_def]
  split
  · next heq =>
    cases h with
    | zero => cases heq
    | digits _ hdigits =>
      have hd := hdigits.2 _ List.mem_cons_self
      cases heq
      cases hd
  · rfl

theorem exists_read? {s : List Char} (h : Number s) :
    ∃ n, ∀ rest, Ended rest → read? (s ++ rest) = some (n, rest) := by
  cases h with
  | @parts sign whole fraction exponent hsign hwhole hfraction hexponent =>
    rcases hsign with rfl | rfl
    · obtain ⟨n, hn⟩ := exists_readUnsigned? hwhole hfraction hexponent false
      refine ⟨n, fun rest hrest => ?_⟩
      simpa [read?_of_whole hwhole] using hn rest hrest
    · obtain ⟨n, hn⟩ := exists_readUnsigned? hwhole hfraction hexponent true
      refine ⟨n, fun rest hrest => ?_⟩
      simpa [read?] using hn rest hrest

end Numeral

section Lexed

open Token (readAll?)

/-- A text is read into some lexemes, and what follows it is read on. -/
def Lexes (s : List Char) (ts : List Token) : Prop :=
  ∀ rest, Ended rest → readAll? (s ++ rest) = (readAll? rest).map (ts ++ ·)

theorem Lexes.of_read? {s : List Char} {t : Token}
    (h : ∀ rest, Ended rest → Token.read? (s ++ rest) = some (t, rest)) : Lexes s [t] :=
  fun rest hrest => Token.readAll?_of_read? (h rest hrest)

theorem Lexes.append {s s' : List Char} {ts ts' : List Token} (h : Lexes s ts)
    (hended : ∀ rest, Ended rest → Ended (s' ++ rest)) (h' : Lexes s' ts') :
    Lexes (s ++ s') (ts ++ ts') := by
  intro rest hrest
  rw [List.append_assoc, h _ (hended rest hrest), h' rest hrest, Option.map_map]
  simp [Function.comp_def]

/-- A lexeme of one character is read whatever follows it. -/
theorem Lexes.cons {c : Char} {s : List Char} {t : Token} {ts : List Token}
    (hc : ∀ rest, Token.read? (c :: rest) = some (t, rest)) (h : Lexes s ts) :
    Lexes (c :: s) (t :: ts) := by
  intro rest hrest
  rw [List.cons_append, Token.readAll?_of_read? (hc (s ++ rest)), h rest hrest, Option.map_map]
  rfl

theorem isBlank_of_blanks {b : List Char} (hb : Blanks b) : ∀ c ∈ b, Token.isBlank c = true := by
  intro c hc
  rcases hb c hc with rfl | rfl | rfl | rfl <;> rfl

theorem readAll?_blanks {b : List Char} (hb : Blanks b) (rest : List Char) :
    readAll? (b ++ rest) = readAll? rest := by
  induction b with
  | nil => rfl
  | cons c b ih =>
    have hc := isBlank_of_blanks hb c List.mem_cons_self
    rw [List.cons_append, readAll?, if_pos hc]
    exact ih fun d hd => hb d (List.mem_cons_of_mem _ hd)

theorem ended_blanks {b rest : List Char} (hb : Blanks b) (hrest : Ended rest) :
    Ended (b ++ rest) := by
  cases b with
  | nil => exact hrest
  | cons c b =>
    rcases hb c List.mem_cons_self with rfl | rfl | rfl | rfl <;> exact ⟨rfl, by decide⟩

theorem Lexes.spaced {b s b' : List Char} {ts : List Token} (hb : Blanks b) (h : Lexes s ts)
    (hb' : Blanks b') : Lexes (b ++ (s ++ b')) ts := by
  intro rest hrest
  rw [List.append_assoc, readAll?_blanks hb, List.append_assoc, h _ (ended_blanks hb' hrest),
    readAll?_blanks hb']

theorem Lexes.nil {b : List Char} (hb : Blanks b) : Lexes b [] := by
  intro rest _
  simp [readAll?_blanks hb]

theorem lexes_symbol {c : Char} {t : Token}
    (hc : ∀ rest, Token.read? (c :: rest) = some (t, rest)) : Lexes [c] [t] :=
  .of_read? fun rest _ => hc rest

theorem lexes_quoted {k : List Char} {name : Option String}
    (hk : ∀ rest, Quoted.read? (k ++ '"' :: rest) = some (name, rest)) :
    Lexes ('"' :: (k ++ ['"'])) [.text name] := by
  refine .of_read? fun rest _ => ?_
  have hread := hk rest
  simp [Token.read?, hread]

theorem lexes_number {s : List Char} {n : Numeral}
    (h : ∀ rest, Ended rest → Numeral.read? (s ++ rest) = some (n, rest)) :
    Lexes s [.number n] := by
  refine .of_read? fun rest hrest => ?_
  have hn := h rest hrest
  cases hs : s ++ rest with
  | nil =>
    rw [hs] at hn
    cases hn
  | cons c s' =>
    rw [hs] at hn
    rw [Token.read?_number (Numeral.head_of_read? hn), hn]
    rfl

section Parts

open Written (itemTokens fieldTokens)

variable {s v f : List Char} {k : Option String} {w : Written}

theorem lexes_lastItem (h : Lexes v w.tokens) : Lexes (v ++ [']']) (itemTokens [w]) := by
  have hclose : Lexes [']'] [.closeList] := lexes_symbol fun _ => rfl
  rw [itemTokens]
  exact h.append (fun _ _ => ⟨rfl, by decide⟩) hclose

theorem lexes_item {u : Written} {us : List Written} (h : Lexes v w.tokens)
    (hs : Lexes s (itemTokens (u :: us))) :
    Lexes (v ++ ',' :: s) (itemTokens (w :: u :: us)) := by
  have hcomma : Lexes (',' :: s) (.comma :: itemTokens (u :: us)) := .cons (fun _ => rfl) hs
  rw [Written.itemTokens_cons]
  exact h.append (fun _ _ => ⟨rfl, by decide⟩) hcomma

theorem lexes_field {b name b' : List Char} (hb : Blanks b)
    (hk : ∀ rest, Quoted.read? (name ++ '"' :: rest) = some (k, rest)) (hb' : Blanks b')
    (h : Lexes v w.tokens) : Lexes (fieldText b name b' v) (.text k :: .colon :: w.tokens) := by
  have hcolon : Lexes (':' :: v) (.colon :: w.tokens) := .cons (fun _ => rfl) h
  have hname : Lexes (b ++ (('"' :: (name ++ ['"'])) ++ b')) [.text k] :=
    .spaced hb (lexes_quoted hk) hb'
  have hfield : Lexes (b ++ (('"' :: (name ++ ['"'])) ++ b') ++ ':' :: v)
      ([.text k] ++ .colon :: w.tokens) := hname.append (fun _ _ => ⟨rfl, by decide⟩) hcolon
  simpa [fieldText] using hfield

theorem lexes_lastField (h : Lexes f (.text k :: .colon :: w.tokens)) :
    Lexes (f ++ ['\x7d']) (fieldTokens [(k, w)]) := by
  have hclose : Lexes ['\x7d'] [.closeObject] := lexes_symbol fun _ => rfl
  rw [fieldTokens]
  exact h.append (fun _ _ => ⟨rfl, by decide⟩) hclose

theorem lexes_nextField {g : Option String × Written} {gs : List (Option String × Written)}
    (h : Lexes f (.text k :: .colon :: w.tokens)) (hs : Lexes s (fieldTokens (g :: gs))) :
    Lexes (f ++ ',' :: s) (fieldTokens ((k, w) :: g :: gs)) := by
  have hcomma : Lexes (',' :: s) (.comma :: fieldTokens (g :: gs)) := .cons (fun _ => rfl) hs
  have hfields : Lexes (f ++ ',' :: s)
      (.text k :: .colon :: w.tokens ++ .comma :: fieldTokens (g :: gs)) :=
    h.append (fun _ _ => ⟨rfl, by decide⟩) hcomma
  rw [Written.fieldTokens_cons]
  simpa using hfields

/-- A part of JSON text is read into the lexemes of such a part. -/
def Part.Lexed (s : List Char) : Part → Prop
  | .value | .spaced => ∃ w : Written, Lexes s w.tokens
  | .items => ∃ w ws, Lexes s (itemTokens (w :: ws))
  | .field => ∃ k, ∃ w : Written, Lexes s (.text k :: .colon :: w.tokens)
  | .fields => ∃ f fs, Lexes s (fieldTokens (f :: fs))

theorem Legal.lexed {p : Part} (h : Legal p s) : p.Lexed s := by
  induction h with
  | null => exact ⟨.null, .of_read? fun _ _ => rfl⟩
  | true => exact ⟨.bool Bool.true, .of_read? fun _ _ => rfl⟩
  | false => exact ⟨.bool Bool.false, .of_read? fun _ _ => rfl⟩
  | number hn =>
    obtain ⟨n, hn⟩ := Numeral.exists_read? hn
    exact ⟨.number n, lexes_number hn⟩
  | text hs =>
    obtain ⟨t, ht⟩ := Quoted.exists_read? hs
    exact ⟨.text t, lexes_quoted ht⟩
  | @emptyList b hb =>
    have hclose : Lexes [']'] [.closeList] := lexes_symbol fun _ => rfl
    have hitems : Lexes (b ++ [']']) [.closeList] :=
      (Lexes.nil hb).append (fun _ _ => ⟨rfl, by decide⟩) hclose
    exact ⟨.list [], .cons (fun _ => rfl) hitems⟩
  | list _ ih =>
    obtain ⟨w, ws, hs⟩ := ih
    exact ⟨.list (w :: ws), .cons (fun _ => rfl) hs⟩
  | @emptyObject b hb =>
    have hclose : Lexes ['\x7d'] [.closeObject] := lexes_symbol fun _ => rfl
    have hfields : Lexes (b ++ ['\x7d']) [.closeObject] :=
      (Lexes.nil hb).append (fun _ _ => ⟨rfl, by decide⟩) hclose
    exact ⟨.object [], .cons (fun _ => rfl) hfields⟩
  | object _ ih =>
    obtain ⟨f, fs, hs⟩ := ih
    exact ⟨.object (f :: fs), .cons (fun _ => rfl) hs⟩
  | spaced hb _ hb' ih =>
    obtain ⟨w, hw⟩ := ih
    exact ⟨w, .spaced hb hw hb'⟩
  | lastItem _ ih =>
    obtain ⟨w, hw⟩ := ih
    exact ⟨w, [], lexes_lastItem hw⟩
  | item _ _ ihv ihs =>
    obtain ⟨w, hw⟩ := ihv
    obtain ⟨u, us, hs⟩ := ihs
    exact ⟨w, u :: us, lexes_item hw hs⟩
  | field hb hk hb' _ ih =>
    obtain ⟨w, hw⟩ := ih
    obtain ⟨t, ht⟩ := Quoted.exists_read? hk
    exact ⟨t, w, lexes_field hb ht hb' hw⟩
  | lastField _ ih =>
    obtain ⟨k, w, hf⟩ := ih
    exact ⟨(k, w), [], lexes_lastField hf⟩
  | nextField _ _ ihf ihs =>
    obtain ⟨k, w, hf⟩ := ihf
    obtain ⟨g, gs, hs⟩ := ihs
    exact ⟨(k, w), g :: gs, lexes_nextField hf hs⟩

theorem Written.read?_of_lexes (h : Lexes s w.tokens) : Written.read? (String.ofList s) = some w := by
  have htokens : readAll? s = some w.tokens := by simpa [readAll?] using h [] True.intro
  unfold Written.read?
  rw [String.toList_ofList, htokens]
  exact w.ofTokens?_tokens

end Parts

end Lexed

end Flowchart.Json
