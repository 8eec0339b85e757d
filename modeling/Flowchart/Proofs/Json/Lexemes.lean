import Flowchart.Json.Token

/-! Reading lexemes back from their text. -/
namespace Flowchart.Json

namespace Quoted

theorem codeUnit?_control : ∀ n < 32,
    codeUnit? '0' '0' (hexDigit (n / 16)) (hexDigit (n % 16)) = some n := by decide

theorem scan?_plain {c : Char} (hquote : c ≠ '"') (hescape : c ≠ '\\') (hcontrol : ¬ c.toNat < 32)
    (rest : List Char) :
    scan? (c :: rest) = (scan? rest).map fun (units, s) => (c.toNat :: units, s) := by
  rw [scan?, if_neg (by simp [hcontrol, hescape])]
  · cases scan? rest <;> rfl
  · exact hquote
  · simp [hescape]
  · simp [hescape]

theorem scan?_short {e c : Char} (he : e ≠ 'u') (hc : shortEscape? e = some c) (rest : List Char) :
    scan? ('\\' :: e :: rest) = (scan? rest).map fun (units, s) => (c.toNat :: units, s) := by
  rw [scan?, hc]
  · cases scan? rest <;> rfl
  · simp [he]

theorem scan?_encodeChar (c : Char) (rest : List Char) :
    scan? (encodeChar c ++ rest) = (scan? rest).map fun (units, s) => (c.toNat :: units, s) := by
  unfold encodeChar
  -- The quote, the backslash and five control characters have short escapes.
  iterate 7
    split
    · next h =>
      subst h
      exact scan?_short (by decide) rfl rest
  split
  · next hcontrol =>
    have hunit := codeUnit?_control c.toNat hcontrol
    simp only [List.cons_append, List.nil_append]
    rw [scan?, hunit]
    cases scan? rest <;> rfl
  · next hquote hescape _ _ _ _ _ hcontrol => exact scan?_plain hquote hescape hcontrol rest

theorem scan?_encode (s rest : List Char) :
    scan? (encode s ++ '"' :: rest) = some (s.map Char.toNat, rest) := by
  induction s with
  | nil => rfl
  | cons c s ih =>
    have hcons : encode (c :: s) = encodeChar c ++ encode s := rfl
    rw [hcons, List.append_assoc, scan?_encodeChar, ih]
    rfl

/-- No character is half of a surrogate pair. -/
theorem not_half (c : Char) : isHigh c.toNat = false ∧ isLow c.toNat = false := by
  have hvalid : c.toNat < 0xD800 ∨ 0xDFFF < c.toNat ∧ c.toNat < 0x110000 := c.valid
  simp only [isHigh, isLow, Bool.and_eq_false_iff, decide_eq_false_iff_not]
  omega

theorem join?_toNat (s : List Char) : join? (s.map Char.toNat) = some s := by
  induction s with
  | nil => rfl
  | cons c s ih =>
    obtain ⟨hhigh, hlow⟩ := not_half c
    cases s with
    | nil => simp [join?, hhigh, hlow, Char.ofNat_toNat]
    | cons c' s =>
      rw [List.map_cons, List.map_cons, join?, ← List.map_cons, ih, hhigh, hlow]
      simp [Char.ofNat_toNat]

/-- A string that is written is read back, whatever follows its closing quote. -/
theorem read?_encode (s : String) (rest : List Char) :
    read? (encode s.toList ++ '"' :: rest) = some (some s, rest) := by
  simp [read?, scan?_encode, join?_toNat, String.ofList_toList]

end Quoted

def Ended : List Char → Prop
  | [] => True
  | c :: _ => c.isDigit = false ∧ c ≠ '.' ∧ c ≠ 'e' ∧ c ≠ 'E'

namespace Numeral

/-- A literal that is read back from its text, wherever that ends. -/
def Legible (n : Numeral) : Prop :=
  ∀ rest, Ended rest → read? (n.render ++ rest) = some (n, rest)

theorem digitRun_append {ds rest : List Char} (hds : ∀ c ∈ ds, c.isDigit = true)
    (hrest : Ended rest) : digitRun (ds ++ rest) = (ds, rest) := by
  unfold digitRun
  rw [List.takeWhile_append_of_pos hds, List.dropWhile_append_of_pos hds]
  cases rest with
  | nil => simp
  | cons c rest => simp [hrest.1]

theorem readFraction?_ended {rest : List Char} (h : Ended rest) :
    readFraction? rest = some (none, rest) := by
  cases rest with
  | nil => rfl
  | cons c rest =>
    rw [readFraction?]
    simp [h.2.1]

theorem readExponent?_ended {rest : List Char} (h : Ended rest) :
    readExponent? rest = some (none, rest) := by
  cases rest with
  | nil => rfl
  | cons c rest => simp [readExponent?, h.2.2.1, h.2.2.2]

theorem head_toDigits {n : Nat} (hn : n ≠ 0) : ∃ d ds, Nat.toDigits 10 n = d :: ds ∧ d ≠ '0' := by
  induction n using Nat.strongRecOn with
  | ind n ih =>
    by_cases hlt : n < 10
    · refine ⟨n.digitChar, [], Nat.toDigits_of_lt_base hlt, ?_⟩
      have hdigits : ∀ k < 10, k ≠ 0 → k.digitChar ≠ '0' := by decide
      exact hdigits n hlt hn
    · obtain ⟨d, ds, hds, hd⟩ := ih (n / 10) (by omega) (by omega)
      refine ⟨d, ds ++ [(n % 10).digitChar], ?_, hd⟩
      rw [Nat.toDigits_of_base_le (by omega) (by omega), hds]
      rfl

theorem readWhole?_toDigits (n : Nat) {rest : List Char} (hrest : Ended rest) :
    readWhole? (Nat.toDigits 10 n ++ rest) = some (Nat.toDigits 10 n, rest) := by
  by_cases hn : n = 0
  · subst hn
    rfl
  · obtain ⟨d, ds, hds, hd⟩ := head_toDigits hn
    have hdigits : ∀ c ∈ Nat.toDigits 10 n, c.isDigit = true := fun c hc =>
      Nat.isDigit_of_mem_toDigits (by decide) (by decide) hc
    rw [readWhole?.eq_def]
    split
    · next heq =>
      rw [hds] at heq
      cases heq
      exact absurd rfl hd
    · rw [digitRun_append hdigits hrest]
      simp [Nat.toDigits_ne_nil]

theorem legible_ofNat (n : Nat) : (ofNat n).Legible := by
  intro rest hrest
  have hrender : (ofNat n).render = Nat.toDigits 10 n := by
    simp [ofNat, render, mantissaText, exponentText]
  have hunsigned : readUnsigned? false (Nat.toDigits 10 n ++ rest) = some (ofNat n, rest) := by
    simp [readUnsigned?, readWhole?_toDigits n hrest, readFraction?_ended hrest,
      readExponent?_ended hrest, Nat.ofDigitChars_toDigits, ofNat]
  rw [hrender, read?.eq_def]
  split
  · next heq =>
    -- Digits begin with no sign.
    cases hds : Nat.toDigits 10 n with
    | nil => exact absurd hds Nat.toDigits_ne_nil
    | cons d ds =>
      have hd : d.isDigit = true := Nat.isDigit_of_mem_toDigits (b := 10) (n := n) (by decide)
        (by decide) (by simp [hds])
      rw [hds] at heq
      cases heq
      cases hd
  · exact hunsigned

theorem head_of_read? {c : Char} {s : List Char} {x : Numeral × List Char}
    (h : read? (c :: s) = some x) : c = '-' ∨ c.isDigit = true := by
  rw [read?.eq_def] at h
  split at h
  · next heq =>
    cases heq
    exact .inl rfl
  · simp only [readUnsigned?, Option.bind_eq_bind, Option.bind_eq_some_iff] at h
    obtain ⟨⟨whole, rest⟩, hwhole, -⟩ := h
    rw [readWhole?.eq_def] at hwhole
    split at hwhole
    · next heq =>
      cases heq
      exact .inr rfl
    · by_cases hc : c.isDigit = true
      · exact .inr hc
      · simp [digitRun, hc] at hwhole

end Numeral

namespace Token

/-- A lexeme that is read back from its text, if that goes on with no other number. -/
def Legible : Token → Prop
  | number n => n.Legible
  | text s => s.isSome
  | _ => True

/-- Whether a text may go on after a lexeme. -/
def Stops (rest : List Char) : Token → Prop
  | number _ => Ended rest
  | _ => True

theorem read?_number {c : Char} {s : List Char} (hc : c = '-' ∨ c.isDigit = true) :
    read? (c :: s) = (Numeral.read? (c :: s)).map fun (n, s) => (number n, s) := by
  have hother : ∀ d : Char, d ≠ '-' → d.isDigit = false → c ≠ d := by
    rintro d hsign hdigit rfl
    rcases hc with hc | hc
    · exact hsign hc
    · cases hdigit.symm.trans hc
  rw [read?.eq_def]
  split
  case h_11 => rfl
  all_goals
    next heq =>
      have := (List.cons.inj heq).1
      exact absurd this (hother _ (by decide) (by decide))

theorem not_isBlank_of_read? {c : Char} {s : List Char} {x : Token × List Char}
    (h : read? (c :: s) = some x) : isBlank c = false := by
  rw [Bool.eq_false_iff]
  intro hblank
  simp only [isBlank, Bool.or_eq_true, decide_eq_true_eq] at hblank
  have hnumeral : read? (c :: s) = (Numeral.read? (c :: s)).map fun (n, s) => (number n, s) := by
    rcases hblank with ((rfl | rfl) | rfl) | rfl <;> rfl
  rw [hnumeral] at h
  obtain ⟨n, hn, -⟩ := Option.map_eq_some_iff.mp h
  rcases Numeral.head_of_read? hn with hhead | hhead
  · rcases hblank with ((rfl | rfl) | rfl) | rfl <;> cases hhead
  · rcases hblank with ((rfl | rfl) | rfl) | rfl <;> cases hhead

theorem read?_render {t : Token} (h : t.Legible) {rest : List Char} (hrest : t.Stops rest) :
    read? (t.render ++ rest) = some (t, rest) := by
  cases t with
  | bool b => cases b <;> rfl
  | number n =>
    have hn : Numeral.read? (n.render ++ rest) = some (n, rest) := h rest hrest
    change read? (n.render ++ rest) = some (number n, rest)
    cases hs : n.render ++ rest with
    | nil =>
      rw [hs] at hn
      cases hn
    | cons c s =>
      rw [hs] at hn
      rw [read?_number (Numeral.head_of_read? hn), hn]
      rfl
  | text s =>
    obtain ⟨s, rfl⟩ := Option.isSome_iff_exists.mp h
    have hs : render (text (some s)) ++ rest = '"' :: (Quoted.encode s.toList ++ '"' :: rest) := by
      simp [render, Quoted.render]
    rw [hs, read?, Quoted.read?_encode]
    rfl
  | openList | closeList | openObject | closeObject | comma | colon | null => rfl

/-- The lexeme at the start of a text is the first one of the whole text. -/
theorem readAll?_of_read? {s rest : List Char} {t : Token} (h : read? s = some (t, rest)) :
    readAll? s = (readAll? rest).map (t :: ·) := by
  cases s with
  | nil => cases h
  | cons c s =>
    rw [readAll?, not_isBlank_of_read? h]
    simp only [Bool.false_eq_true, if_false]
    split
    · next hnone => cases hnone.symm.trans h
    · next hsome =>
      cases hsome.symm.trans h
      rfl

theorem readAll?_render {t : Token} (h : t.Legible) {rest : List Char} (hrest : t.Stops rest) :
    readAll? (t.render ++ rest) = (readAll? rest).map (t :: ·) :=
  readAll?_of_read? (read?_render h hrest)

end Token

end Flowchart.Json
