import PjhJson.GrammarComplete

/-! The JSON5 scanners on the tokens of RFC 8259: every number, escape and run of whitespace that the
strict scanners take is taken by their JSON5 twins with the same result. -/

namespace PjhJson

open Grammar Scanner

/-! ### Numbers -/

/-- The byte behind a number does not turn a leading zero into a hexadecimal prefix. -/
def NoHexPrefix (rest : Bytes) : Prop := Stops (fun c => c == ascii 'x' || c == ascii 'X') rest

/-- What a JSON5 scan finds in a number of the grammar. -/
def Rfc.NumberParts.scanJson5 (parts : Rfc.NumberParts) (rest : Bytes) : NumberScanJson5 where
  intStart := parts.integer ++ (parts.fraction ++ (parts.exponent ++ rest))
  intDigits := parts.integer.length
  negative := !parts.minus.isEmpty
  explicitPlus := false
  isFloat := !parts.fraction.isEmpty || !parts.exponent.isEmpty

section Numbers

variable {integer fraction exponent rest : Bytes}

theorem scanFractionJson5_append (hf : Rfc.Fraction fraction)
    (hstop : Stops isDigit (exponent ++ rest))
    (hdot : fraction = [] → startsWith '.' (exponent ++ rest) = false) :
    scanFractionJson5 (fraction ++ (exponent ++ rest)) = (!fraction.isEmpty, exponent ++ rest) := by
  rw [scanFractionJson5]
  cases hf with
  | none => rw [List.nil_append, hdot rfl, if_neg Bool.false_ne_true]; rfl
  | some digits hdigits =>
      rw [List.cons_append, if_pos (by simp [startsWith]), List.tail_cons,
        dropWhile_run hdigits.isDigit hstop]
      rfl

theorem scanDecimalJson5_append (hint : Rfc.Integer integer) (hf : Rfc.Fraction fraction)
    (he : Rfc.Exponent exponent) (hdigits : Stops isDigit rest)
    (hpoint : fraction = [] → exponent = [] → startsWith '.' rest = false) :
    scanDecimalJson5 (integer ++ (fraction ++ (exponent ++ rest))) =
      .ok ((integer ++ (fraction ++ (exponent ++ rest)), integer.length, !fraction.isEmpty),
        exponent ++ rest) := by
  have hstop := Rfc.NumberParts.stops_integer hf he hdigits
  have hstart := hint.1.startsWithDigit (fraction ++ (exponent ++ rest))
  have hnodot : startsWith '.' (integer ++ (fraction ++ (exponent ++ rest))) = false := by
    obtain ⟨c, digits, rfl⟩ := List.exists_cons_of_ne_nil hint.1.1
    have hc : c ≠ ascii '.' := by
      rintro rfl
      exact absurd (hint.1.isDigit _ List.mem_cons_self) (by decide)
    simp [startsWith, hc]
  have hfraction : scanFractionJson5 (fraction ++ (exponent ++ rest)) =
      (!fraction.isEmpty, exponent ++ rest) := by
    refine scanFractionJson5_append hf (Rfc.NumberParts.stops_integer .none he hdigits) fun hnil => ?_
    cases he with
    | none => exact hpoint hnil rfl
    | some e sign digits hor _ _ => rcases hor with rfl | rfl <;> simp [startsWith, ascii]
  rw [scanDecimalJson5, hnodot]
  simp only [Bool.false_eq_true, if_false, hstart, Bool.not_true,
    dropWhile_run hint.1.isDigit hstop, List.length_append, Nat.add_sub_cancel,
    (hasLeadingZero_iff hint.1).mpr hint, hfraction]

theorem startsWithHexPrefix_integer (hint : Rfc.Integer integer) (hf : Rfc.Fraction fraction)
    (he : Rfc.Exponent exponent) (hhex : NoHexPrefix rest) :
    startsWithHexPrefix (integer ++ (fraction ++ (exponent ++ rest))) = false := by
  by_contra hne
  obtain ⟨x, more, heq, hx⟩ := startsWithHexPrefix_iff.mp (Bool.not_eq_false _ ▸ hne)
  obtain ⟨c, digits, rfl⟩ := List.exists_cons_of_ne_nil hint.1.1
  obtain ⟨rfl, heq'⟩ := List.cons.inj heq
  have hdigits : digits = [] := by
    have hlength := hint.2 rfl
    rw [List.length_cons] at hlength
    exact List.length_eq_zero_iff.mp (Nat.succ.inj hlength)
  subst hdigits
  have hstop : Stops (fun c => c == ascii 'x' || c == ascii 'X') (fraction ++ (exponent ++ rest)) := by
    cases hf with
    | some digits _ => exact stops_cons.mpr (by decide)
    | none =>
        cases he with
        | none => exact hhex
        | some e sign digits hor _ _ => rcases hor with rfl | rfl <;> exact stops_cons.mpr (by decide)
  have hmore : fraction ++ (exponent ++ rest) = x :: more := heq'
  rw [hmore, stops_cons] at hstop
  rcases hx with rfl | rfl
  · exact absurd hstop (by decide)
  · exact absurd hstop (by decide)

theorem scanNumberJson5_append (parts : Rfc.NumberParts) (h : parts.Ends rest)
    (hhex : NoHexPrefix rest) :
    scanNumberJson5 (parts.text ++ rest) = .ok (parts.scanJson5 rest, rest) := by
  obtain ⟨minus, integer, fraction, exponent, hminus, hint, hf, he⟩ := parts
  obtain ⟨hdigits, hpoint, hexp⟩ := h
  simp only at hdigits hpoint hexp
  have hstart := hint.1.startsWithDigit (fraction ++ (exponent ++ rest))
  have hsign : skipSign (minus ++ (integer ++ (fraction ++ (exponent ++ rest)))) =
      integer ++ (fraction ++ (exponent ++ rest)) :=
    skipSign_append (hminus.imp_right .inr) hstart
  have hfirst : startsWith '-' (minus ++ (integer ++ (fraction ++ (exponent ++ rest)))) =
      !minus.isEmpty ∧
      startsWith '+' (minus ++ (integer ++ (fraction ++ (exponent ++ rest)))) = false := by
    rcases hminus with rfl | rfl
    · obtain ⟨c, digits, rfl⟩ := List.exists_cons_of_ne_nil hint.1.1
      have hdigit := hint.1.isDigit c List.mem_cons_self
      have hne : c ≠ ascii '-' ∧ c ≠ ascii '+' := by
        refine ⟨?_, ?_⟩ <;> rintro rfl <;> exact absurd hdigit (by decide)
      simp [startsWith, hne.1, hne.2]
    · simp [startsWith, ascii]
  have hexponent := scanExponent_append he (fun _ => hdigits) hexp
  rw [Rfc.NumberParts.text_append, scanNumberJson5, hfirst.1, hfirst.2, hsign]
  simp only [startsWithHexPrefix_integer hint hf he hhex, Bool.false_eq_true, if_false,
    scanDecimalJson5_append hint hf he hdigits hpoint]
  show (Except.bind _ _) = _
  simp only [Except.bind, hexponent, bind]
  rfl

/-- A number of the grammar is the same number in JSON5. -/
theorem parseNumberJson5_of_scan {platform : Platform} {p : Bytes} {number : Number}
    (h : scanAndClassify platform p = .ok (number, rest)) (hhex : NoHexPrefix rest) :
    parseNumberJson5 platform p = .ok (number, rest) := by
  obtain ⟨parts, rfl, hends, hvalue⟩ := (scanAndClassify_eq_ok platform).mp h
  have hclass := (@classifyNumber_eq_ok platform parts rest number).mpr hvalue
  have hdigit : startsWithDigit (skipSign (parts.text ++ rest)) = true := by
    have hstart := parts.isInteger.1.startsWithDigit (parts.fraction ++ (parts.exponent ++ rest))
    rw [Rfc.NumberParts.text_append, skipSign_append (parts.minus_or.imp_right .inr) hstart]
    exact hstart
  rw [parseNumberJson5, parseNonfinite_digit hdigit, scanNumberJson5_append parts hends hhex]
  have hsame : classifyDecimalJson5 platform (parts.text ++ rest) rest (parts.scanJson5 rest) =
      classifyNumber platform (parts.text ++ rest) rest (parts.scan rest) := rfl
  simp only
  rw [if_neg (show ¬(parts.scanJson5 rest).isHex = true from Bool.false_ne_true), hsame, hclass]
  rfl

end Numbers

/-! ### Escapes -/

/-- The digits of a text that ends in front of `m_end` are read in the same way. -/
theorem readHexDigitsBounded_iff {n code : Nat} {text rest : Bytes} {value : Nat} :
    readHexDigitsBounded n code text = .ok (value, rest) ↔
      Reading.readHexDigits n code text = .ok (value, rest) := by
  induction n generalizing code text with
  | zero => exact Iff.rfl
  | succ n ih =>
      cases text with
      | nil =>
          rw [readHexDigitsBounded, Reading.readHexDigits]
          constructor
          · rintro ⟨⟩
          · rintro ⟨⟩
      | cons c text =>
          rw [readHexDigitsBounded, Reading.readHexDigits]
          cases hexValue c with
          | none => exact Iff.rfl
          | some v => exact ih

theorem handleLowSurrogateBounded_iff {high : Nat} {text written rest : Bytes} :
    handleLowSurrogateBounded high text = .ok (written, rest) ↔
      Reading.readLowSurrogate high text = .ok (written, rest) := by
  rw [handleLowSurrogateBounded, Reading.readLowSurrogate, Res.bind_eq_ok, Res.bind_eq_ok]
  refine exists_congr fun result => and_congr_left fun _ => ?_
  rw [readHex4Bounded]
  exact readHexDigitsBounded_iff

theorem handleCodeUnitBounded_iff {cp : Nat} {text written rest : Bytes} :
    handleCodeUnitBounded cp text = .ok (written, rest) ↔
      Reading.readCodeUnit cp text = .ok (written, rest) := by
  rw [handleCodeUnitBounded, Reading.readCodeUnit]
  split_ifs
  · exact handleLowSurrogateBounded_iff
  · exact Iff.rfl
  · exact Iff.rfl
  · exact Iff.rfl

theorem unicodeEscape_iff {text written rest : Bytes} :
    handleEscapeJson5Bounded (ascii '\\' :: ascii 'u' :: text) = .ok (written, rest) ↔
      Reading.readEscape (ascii '\\' :: ascii 'u' :: text) = .ok (written, rest) := by
  have hseparator : ascii 'u' ≠ 0xE2 := by decide
  rw [handleEscapeJson5Bounded, Reading.readEscape, List.tail_cons]
  show (if ascii 'u' = 0x0A then _ else _) = _ ↔ (if shortEscapeValue (ascii 'u') ≠ 0 then _ else _) = _
  rw [if_neg (by decide), if_neg (by decide), if_neg fun hboth => hseparator hboth.1,
    if_neg (by decide), if_neg (by decide), if_neg (by decide), if_pos rfl, if_neg (by decide),
    if_neg (by decide), Res.bind_eq_ok, Res.bind_eq_ok]
  refine exists_congr fun result => ?_
  rw [readHex4Bounded, readHexDigitsBounded_iff, handleCodeUnitBounded_iff]

/-- The escapes of two characters are none of those that JSON5 handles first. -/
theorem Rfc.ShortEscape.json5 {e value : UInt8} (h : Rfc.ShortEscape e value) :
    (e ≠ 0x0A ∧ e ≠ 0x0D ∧ e ≠ 0xE2 ∧ e ≠ PjhJson.ascii 'x' ∧ e ≠ PjhJson.ascii '0' ∧
      ¬(PjhJson.ascii '1' ≤ e ∧ e ≤ PjhJson.ascii '9') ∧ e ≠ PjhJson.ascii 'u') ∧
      shortEscapeValueJson5 e = shortEscapeValue e := by
  cases h <;> decide

/-- An escape of the grammar is the same escape in JSON5. -/
theorem handleEscapeJson5Bounded_of_read {text written rest : Bytes}
    (h : Reading.readEscape text = .ok (written, rest)) :
    handleEscapeJson5Bounded text = .ok (written, rest) := by
  rw [Reading.readEscape] at h
  rw [handleEscapeJson5Bounded]
  cases htext : text.tail with
  | nil => rw [htext] at h; cases h
  | cons e more =>
      rw [htext] at h
      simp only at h ⊢
      by_cases hshort : shortEscapeValue e ≠ 0
      · rw [if_pos hshort] at h
        obtain ⟨hfirst, hvalue⟩ := Rfc.ShortEscape.json5 (shortEscapeValue_iff.mp ⟨hshort, rfl⟩)
        obtain ⟨hlf, hcr, hls, hx, hzero, hdigit, hu⟩ := hfirst
        rw [if_neg hlf, if_neg hcr, if_neg fun hboth => hls hboth.1, if_neg hx, if_neg hzero,
          if_neg hdigit, if_neg hu, hvalue, if_pos hshort]
        exact h
      · rw [if_neg hshort] at h
        split_ifs at h with hu
        obtain rfl := not_not.mp hu
        obtain ⟨⟨cp, unit⟩, hdigits, hunit⟩ := Res.bind_eq_ok.mp h
        have hls : ascii 'u' ≠ 0xE2 := by decide
        rw [if_neg (by decide), if_neg (by decide), if_neg fun hboth => hls hboth.1,
          if_neg (by decide), if_neg (by decide), if_neg (by decide), if_pos rfl, readHex4Bounded,
          readHexDigitsBounded_iff.mpr hdigits]
        exact handleCodeUnitBounded_iff.mpr hunit

/-! ### Whitespace -/

/-- The bytes that begin JSON5 trivia but no whitespace of RFC 8259. -/
def isTriviaStart (c : UInt8) : Bool := 0x80 ≤ c || c == 0x0B || c == 0x0C || c == ascii '/'

theorem skipTrivia_whitespace {ws rest : Bytes} (hws : Rfc.Whitespace ws)
    (hrest : Stops isWhitespace rest) (htrivia : Stops isTriviaStart rest) :
    skipTrivia (ws ++ rest) = some (rest, false) := by
  have hspace : ∀ c ∈ ws, isJson5WhitespaceAscii c = true := fun c hmem => by
    rw [isJson5WhitespaceAscii, Reading.isWhitespace_iff.mpr (hws c hmem)]
    rfl
  have hstop : Stops isJson5WhitespaceAscii rest := by
    intro c hc
    have hstart := htrivia c hc
    simp only [isTriviaStart, Bool.or_eq_false_iff] at hstart
    rw [isJson5WhitespaceAscii, hrest c hc, hstart.1.1.2, hstart.1.2]
    rfl
  rw [skipTrivia, skipTriviaLoop, dropWhile_run hspace hstop]
  cases rest with
  | nil => rfl
  | cons c rest =>
      have hstart := stops_cons.mp htrivia
      simp only [isTriviaStart, Bool.or_eq_false_iff, decide_eq_false_iff_not,
        beq_eq_false_iff_ne] at hstart
      have hslash : ∀ {d : UInt8} {more : Bytes}, (c :: rest).take 2 ≠ ascii '/' :: d :: more := by
        intro d more heq
        exact hstart.2 (List.cons.inj heq).1
      simp only [skipUnicodeWhitespace, if_pos (UInt8.not_le.mp hstart.1.1.1)]
      exact (if_neg (@hslash (ascii '/') [])).trans (if_neg (@hslash (ascii '*') []))

end PjhJson
