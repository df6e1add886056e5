import PjhJson.LibScanner
import PjhJson.Number
import PjhJson.Rfc

/-! The number scanners and their tokens. `scanNumber` accepts exactly the numbers of the grammar, as
long as the text behind them does not go on with one, and every number parser is decided by the token
it consumes. -/

namespace PjhJson

open Grammar Scanner

theorem isDigit_iff (c : UInt8) : isDigit c = true ↔ Rfc.Digit c := by
  simp [isDigit, Rfc.Digit, ascii]

theorem startsWith_iff {c : Char} {p : Bytes} : startsWith c p = true ↔ p.head? = some (ascii c) := by
  simp [startsWith]

theorem startsWith_eq_false {c : Char} {p : Bytes} :
    startsWith c p = false ↔ Stops (· == ascii c) p := by
  cases p <;> simp [startsWith, Stops]

theorem startsWithDigit_eq_false {p : Bytes} : startsWithDigit p = false ↔ Stops isDigit p := by
  cases p <;> simp [startsWithDigit, Stops]

/-- A text that starts with a digit is a run of digits and a rest that stops it. -/
theorem exists_digits {p : Bytes} (h : startsWithDigit p = true) :
    ∃ digits rest, p = digits ++ rest ∧ Rfc.Digits digits ∧ Stops isDigit rest := by
  obtain ⟨digits, rest, rfl, hdigits, hrest⟩ := exists_run isDigit p
  refine ⟨digits, rest, rfl, ⟨?_, fun c hc => (isDigit_iff c).mp (hdigits c hc)⟩, hrest⟩
  rintro rfl
  rw [List.nil_append, startsWithDigit_eq_false.mpr hrest] at h
  exact Bool.false_ne_true h

theorem Rfc.Digits.isDigit {digits : Bytes} (h : Rfc.Digits digits) :
    ∀ c ∈ digits, isDigit c = true := fun c hc => (isDigit_iff c).mpr (h.2 c hc)

theorem Rfc.Digits.startsWithDigit {digits : Bytes} (h : Rfc.Digits digits) (rest : Bytes) :
    startsWithDigit (digits ++ rest) = true := by
  cases digits with
  | nil => exact absurd rfl h.1
  | cons c digits => exact h.isDigit c List.mem_cons_self

/-! ### Fractions and exponents -/

theorem scanFraction_ok {p rest : Bytes} {found : Bool} (h : scanFraction p = .ok (found, rest)) :
    ∃ fraction, p = fraction ++ rest ∧ Rfc.Fraction fraction ∧ (found = !fraction.isEmpty) ∧
      (fraction ≠ [] → Stops isDigit rest) ∧ (fraction = [] → startsWith '.' rest = false) := by
  rw [scanFraction] at h
  by_cases hdot : startsWith '.' p = true
  · obtain ⟨tail, rfl⟩ : ∃ tail, p = ascii '.' :: tail := by
      cases p with
      | nil => simp [startsWith] at hdot
      | cons c tail => exact ⟨tail, by simpa [startsWith] using hdot⟩
    rw [if_pos hdot, List.tail_cons] at h
    by_cases hdigit : startsWithDigit tail = true
    · obtain ⟨digits, rest', rfl, hdigits, hstop⟩ := exists_digits hdigit
      rw [if_pos hdigit, dropWhile_run hdigits.isDigit hstop] at h
      obtain ⟨rfl, rfl⟩ : true = found ∧ rest' = rest := by simpa using h
      exact ⟨ascii '.' :: digits, rfl, .some digits hdigits, rfl, fun _ => hstop, fun h => by cases h⟩
    · rw [if_neg hdigit] at h
      cases h
  · rw [if_neg hdot] at h
    obtain ⟨rfl, rfl⟩ : false = found ∧ p = rest := by simpa using h
    exact ⟨[], rfl, .none, rfl, fun h => absurd rfl h, fun _ => by simpa using hdot⟩

theorem scanFraction_append {fraction rest : Bytes} (h : Rfc.Fraction fraction)
    (hstop : fraction ≠ [] → Stops isDigit rest)
    (hdot : fraction = [] → startsWith '.' rest = false) :
    scanFraction (fraction ++ rest) = .ok (!fraction.isEmpty, rest) := by
  cases h with
  | none => simp [scanFraction, hdot rfl]
  | some digits hdigits =>
      rw [scanFraction, List.cons_append, if_pos (by simp [startsWith]), List.tail_cons,
        if_pos (hdigits.startsWithDigit rest), dropWhile_run hdigits.isDigit (hstop (by simp))]
      rfl

/-- The sign that `skipSign` skips. -/
theorem exists_sign (p : Bytes) :
    ∃ sign, p = sign ++ skipSign p ∧ Rfc.ExponentSign sign ∧
      (sign = [] → startsWith '+' p = false ∧ startsWith '-' p = false) := by
  rw [skipSign]
  cases p with
  | nil => exact ⟨[], by simp, .inl rfl, fun _ => by simp [startsWith]⟩
  | cons c p =>
      by_cases hplus : c = ascii '+'
      · exact ⟨[c], by simp [startsWith, hplus], by simp [Rfc.ExponentSign, hplus], by simp⟩
      by_cases hminus : c = ascii '-'
      · exact ⟨[c], by simp [startsWith, hminus], by simp [Rfc.ExponentSign, hminus], by simp⟩
      · exact ⟨[], by simp [startsWith, hplus, hminus], .inl rfl,
          fun _ => by simp [startsWith, hplus, hminus]⟩

theorem skipSign_append {sign rest : Bytes} (h : Rfc.ExponentSign sign)
    (hrest : startsWithDigit rest = true) : skipSign (sign ++ rest) = rest := by
  rcases h with rfl | rfl | rfl
  · cases rest with
    | nil => rfl
    | cons c rest =>
        have hplus : c ≠ ascii '+' := by
          rintro rfl
          exact absurd hrest (by rw [startsWithDigit]; decide)
        have hminus : c ≠ ascii '-' := by
          rintro rfl
          exact absurd hrest (by rw [startsWithDigit]; decide)
        simp [skipSign, startsWith, hplus, hminus]
  · simp [skipSign, startsWith]
  · simp [skipSign, startsWith]

theorem scanExponent_ok {p rest : Bytes} {found : Bool} (h : scanExponent p = .ok (found, rest)) :
    ∃ exponent, p = exponent ++ rest ∧ Rfc.Exponent exponent ∧ (found = !exponent.isEmpty) ∧
      (exponent ≠ [] → Stops isDigit rest) ∧
      (exponent = [] → startsWith 'e' rest = false ∧ startsWith 'E' rest = false) := by
  rw [scanExponent] at h
  by_cases he : (startsWith 'e' p || startsWith 'E' p) = true
  · obtain ⟨e, tail, rfl, hor⟩ : ∃ e tail, p = e :: tail ∧ (e = ascii 'e' ∨ e = ascii 'E') := by
      cases p with
      | nil => simp [startsWith] at he
      | cons c tail => exact ⟨c, tail, rfl, by simpa [startsWith] using he⟩
    obtain ⟨sign, hsign, hexp, _⟩ := exists_sign tail
    rw [if_pos he, List.tail_cons] at h
    by_cases hdigit : startsWithDigit (skipSign tail) = true
    · obtain ⟨digits, rest', heq, hdigits, hstop⟩ := exists_digits hdigit
      rw [if_pos hdigit, heq, dropWhile_run hdigits.isDigit hstop] at h
      obtain ⟨rfl, rfl⟩ : true = found ∧ rest' = rest := by simpa using h
      refine ⟨e :: (sign ++ digits), ?_, .some e sign digits hor hexp hdigits, rfl,
        fun _ => hstop, fun h => by cases h⟩
      rw [List.cons_append, List.append_assoc, ← heq, ← hsign]
    · rw [if_neg hdigit] at h
      cases h
  · rw [if_neg he] at h
    obtain ⟨rfl, rfl⟩ : false = found ∧ p = rest := by simpa using h
    refine ⟨[], rfl, .none, rfl, fun h => absurd rfl h, fun _ => ?_⟩
    simpa [not_or] using he

theorem scanExponent_append {exponent rest : Bytes} (h : Rfc.Exponent exponent)
    (hstop : exponent ≠ [] → Stops isDigit rest)
    (he : exponent = [] → startsWith 'e' rest = false ∧ startsWith 'E' rest = false) :
    scanExponent (exponent ++ rest) = .ok (!exponent.isEmpty, rest) := by
  cases h with
  | none => simp [scanExponent, (he rfl).1, (he rfl).2]
  | some e sign digits hor hsign hdigits =>
      have hstart := hdigits.startsWithDigit rest
      have hskip : skipSign (sign ++ digits ++ rest) = digits ++ rest := by
        rw [List.append_assoc, skipSign_append hsign hstart]
      have hif : (startsWith 'e' (e :: (sign ++ digits ++ rest)) ||
          startsWith 'E' (e :: (sign ++ digits ++ rest))) = true := by
        rcases hor with rfl | rfl <;> simp [startsWith]
      rw [scanExponent, List.cons_append, if_pos hif, List.tail_cons, hskip, if_pos hstart,
        dropWhile_run hdigits.isDigit (hstop (by simp))]
      rfl

/-! ### Whole numbers -/

/-- The text behind a number does not go on with it. -/
structure Rfc.NumberParts.Ends (parts : Rfc.NumberParts) (rest : Bytes) : Prop where
  digits : Stops isDigit rest
  point : parts.fraction = [] → parts.exponent = [] → startsWith '.' rest = false
  exponent : parts.exponent = [] → startsWith 'e' rest = false ∧ startsWith 'E' rest = false

theorem Rfc.NumberParts.ends_nil (parts : Rfc.NumberParts) : parts.Ends [] :=
  ⟨stops_nil _, fun _ _ => rfl, fun _ => ⟨rfl, rfl⟩⟩

theorem Rfc.NumberParts.Ends.shorten {parts : Rfc.NumberParts} {rest suffix : Bytes}
    (h : parts.Ends rest) (hpre : suffix <+: rest) : parts.Ends suffix where
  digits := h.digits.shorten hpre
  point hfraction hexponent := startsWith_eq_false.mpr
    ((startsWith_eq_false.mp (h.point hfraction hexponent)).shorten hpre)
  exponent hexponent :=
    ⟨startsWith_eq_false.mpr ((startsWith_eq_false.mp (h.exponent hexponent).1).shorten hpre),
      startsWith_eq_false.mpr ((startsWith_eq_false.mp (h.exponent hexponent).2).shorten hpre)⟩

/-- What `scanNumber` reports of a number with these parts. -/
def Rfc.NumberParts.scan (parts : Rfc.NumberParts) (rest : Bytes) : NumberScan where
  intStart := parts.integer ++ (parts.fraction ++ (parts.exponent ++ rest))
  intDigits := parts.integer.length
  negative := !parts.minus.isEmpty
  isFloat := !parts.fraction.isEmpty || !parts.exponent.isEmpty

theorem Rfc.NumberParts.text_append (parts : Rfc.NumberParts) (rest : Bytes) :
    parts.text ++ rest =
      parts.minus ++ (parts.integer ++ (parts.fraction ++ (parts.exponent ++ rest))) := by
  simp [Rfc.NumberParts.text]

theorem hasLeadingZero_iff {digits rest : Bytes} (h : Rfc.Digits digits) :
    hasLeadingZero (digits ++ rest) digits.length = false ↔ Rfc.Integer digits := by
  obtain ⟨c, digits, rfl⟩ := List.exists_cons_of_ne_nil h.1
  simp only [hasLeadingZero, Rfc.Integer, h, true_and, List.cons_append, List.head?_cons,
    List.length_cons, Bool.and_eq_false_imp, decide_eq_true_eq, beq_eq_false_iff_ne, ne_eq,
    Option.some.injEq]
  constructor
  · intro hzero hc
    by_contra hlength
    exact hzero (by omega) hc
  · intro hzero hlength hc
    have := hzero hc
    omega

/-- After the integer part no digit follows, whatever parts there are. -/
theorem Rfc.NumberParts.stops_integer {fraction exponent rest : Bytes} (hf : Rfc.Fraction fraction)
    (he : Rfc.Exponent exponent) (hrest : Stops isDigit rest) :
    Stops isDigit (fraction ++ (exponent ++ rest)) := by
  cases hf with
  | some digits _ => exact stops_cons.mpr (by decide)
  | none =>
      cases he with
      | none => exact hrest
      | some e sign digits hor _ _ =>
          rcases hor with rfl | rfl
          · exact stops_cons.mpr (by decide)
          · exact stops_cons.mpr (by decide)

theorem scanNumber_append (parts : Rfc.NumberParts) {rest : Bytes} (h : parts.Ends rest) :
    scanNumber (parts.text ++ rest) = .ok (parts.scan rest, rest) := by
  obtain ⟨minus, integer, fraction, exponent, hminus, hint, hf, he⟩ := parts
  obtain ⟨hdigits, hpoint, hexp⟩ := h
  simp only at hdigits hpoint hexp
  have hstop := Rfc.NumberParts.stops_integer hf he hdigits
  have hstart := hint.1.startsWithDigit (fraction ++ (exponent ++ rest))
  have hnegative : startsWith '-' (minus ++ (integer ++ (fraction ++ (exponent ++ rest)))) =
      !minus.isEmpty := by
    rcases hminus with rfl | rfl
    · obtain ⟨c, digits, rfl⟩ := List.exists_cons_of_ne_nil hint.1.1
      have hne : c ≠ ascii '-' := by
        rintro rfl
        exact absurd hstart (by rw [List.cons_append, startsWithDigit]; decide)
      simp [startsWith, hne]
    · simp [startsWith]
  have hfraction : scanFraction (fraction ++ (exponent ++ rest)) =
      .ok (!fraction.isEmpty, exponent ++ rest) := by
    refine scanFraction_append hf ?_ ?_
    · intro _
      exact Rfc.NumberParts.stops_integer .none he hdigits
    · rintro rfl
      cases he with
      | none => exact hpoint rfl rfl
      | some e sign digits hor _ _ => rcases hor with rfl | rfl <;> simp [startsWith, ascii]
  have hexponent := scanExponent_append he (fun _ => hdigits) hexp
  have htail : (if !minus.isEmpty then (minus ++ (integer ++ (fraction ++ (exponent ++ rest)))).tail
      else minus ++ (integer ++ (fraction ++ (exponent ++ rest)))) =
      integer ++ (fraction ++ (exponent ++ rest)) := by
    rcases hminus with rfl | rfl <;> simp
  rw [Rfc.NumberParts.text_append, scanNumber, hnegative]
  simp only [htail, hstart, Bool.not_true, Bool.false_eq_true, if_false,
    dropWhile_run hint.1.isDigit hstop]
  rw [show (integer ++ (fraction ++ (exponent ++ rest))).length -
      (fraction ++ (exponent ++ rest)).length = integer.length by
        rw [List.length_append]; omega]
  rw [(hasLeadingZero_iff hint.1).mpr hint]
  simp only [Bool.false_eq_true, if_false, hfraction]
  show (Except.bind _ _) = _
  simp only [Except.bind, hexponent, bind]
  rfl

theorem scanNumber_ok {p rest : Bytes} {scan : NumberScan} (h : scanNumber p = .ok (scan, rest)) :
    ∃ parts : Rfc.NumberParts, p = parts.text ++ rest ∧ parts.Ends rest ∧ scan = parts.scan rest := by
  obtain ⟨minus, p', rfl, hminus, htail, hnegative⟩ : ∃ minus p', p = minus ++ p' ∧
      (minus = [] ∨ minus = [ascii '-']) ∧
      (if startsWith '-' p then p.tail else p) = p' ∧ startsWith '-' p = !minus.isEmpty := by
    by_cases hminus : startsWith '-' p = true
    · cases p with
      | nil => simp [startsWith] at hminus
      | cons c p' =>
          have hc : c = ascii '-' := by simpa [startsWith] using hminus
          exact ⟨[c], p', rfl, .inr (by rw [hc]), by simp [hminus], by simp [hminus]⟩
    · exact ⟨[], p, rfl, .inl rfl, by simp [hminus], by simpa using hminus⟩
  rw [scanNumber] at h
  simp only [htail] at h
  by_cases hstart : startsWithDigit p' = true
  swap
  · simp [hstart] at h
  obtain ⟨integer, rest', rfl, hint, hstop⟩ := exists_digits hstart
  simp only [hstart, Bool.not_true, Bool.false_eq_true, if_false,
    dropWhile_run hint.isDigit hstop] at h
  rw [show (integer ++ rest').length - rest'.length = integer.length by
    rw [List.length_append]; omega] at h
  by_cases hzero : hasLeadingZero (integer ++ rest') integer.length = true
  · rw [if_pos hzero] at h
    cases h
  have hinteger := (hasLeadingZero_iff hint).mp (Bool.not_eq_true _ ▸ hzero)
  rw [if_neg hzero] at h
  cases hfraction : scanFraction rest' with
  | error e => rw [hfraction] at h; cases h
  | ok found =>
      rw [hfraction] at h
      obtain ⟨fraction, hrest', hf, hfound, hfstop, hfdot⟩ := scanFraction_ok hfraction
      cases hexponent : scanExponent found.2 with
      | error e =>
          change (scanExponent found.2 >>= _) = _ at h
          rw [hexponent] at h
          cases h
      | ok found' =>
          change (scanExponent found.2 >>= _) = _ at h
          rw [hexponent] at h
          obtain ⟨exponent, hrest'', he, hfound', hestop, hee⟩ := scanExponent_ok hexponent
          obtain ⟨rfl, rfl⟩ : _ ∧ found'.2 = rest := by
            have := Except.ok.inj h
            exact ⟨(Prod.mk.inj this).1.symm, (Prod.mk.inj this).2⟩
          refine ⟨⟨minus, integer, fraction, exponent, hminus, hinteger, hf, he⟩, ?_, ?_, ?_⟩
          · rw [Rfc.NumberParts.text_append, hrest', hrest'']
          · constructor
            · by_cases hexp : exponent = []
              · by_cases hfrac : fraction = []
                · rw [hrest', hrest'', hfrac, hexp] at hstop
                  exact hstop
                · have := hfstop hfrac
                  rw [hrest'', hexp] at this
                  exact this
              · exact hestop hexp
            · rintro hfrac hexp
              have := hfdot hfrac
              simp only at hexp
              rw [hrest'', hexp] at this
              exact this
            · exact hee
          · rw [Rfc.NumberParts.scan, hnegative, hfound, hfound', ← hrest'', ← hrest']

/-! ### Classified tokens -/

@[simp] theorem between_append (token rest : Bytes) : between (token ++ rest) rest = token := by
  simp [between]

theorem take_uint32_append (digits more : Bytes) :
    (digits ++ more).take digits.length.toUInt32.toNat = digits.take digits.length.toUInt32.toNat :=
  List.take_append_of_le_length (by
    rw [Nat.toUInt32_eq, UInt32.toNat_ofNat']
    exact Nat.mod_le _ _)

/-- The digits alone decide the integer of a token. -/
theorem integerOf_append (digits more : Bytes) (negative : Bool) :
    integerOf (digits ++ more) digits.length negative = integerOf digits digits.length negative := by
  have htake := take_uint32_append digits more
  have hfits : digits.length.toUInt32.toNat = 19 →
      fitsInt64_19 (digits ++ more) negative = fitsInt64_19 digits negative := by
    intro h19
    rw [h19] at htake
    rw [fitsInt64_19, htake, fitsInt64_19]
  simp only [integerOf, htake]
  by_cases h19 : digits.length.toUInt32.toNat = 19
  · rw [hfits h19]
  · simp only [h19, decide_false, Bool.false_and]

/-- A conversion succeeds when `std::from_chars` takes the whole token. -/
theorem doubleOf_eq_ok {fromChars : Bytes → FromChars} {start first last : Bytes} {d : Double} :
    doubleOf fromChars start first last = .ok d ↔
      fromChars (between first last) = ⟨(between first last).length, .none, d⟩ := by
  rw [doubleOf]
  generalize hresult : fromChars (between first last) = result
  obtain ⟨ptr, ec, value⟩ := result
  cases ec
  · simp only [reduceCtorEq, if_false, ne_eq, not_true_eq_false, false_or, FromChars.mk.injEq, true_and]
    split <;> simp_all
  · simp
  · simp

variable (platform : Platform)

/-- The number that a token with these parts becomes, if it is in range. -/
def Rfc.NumberParts.value (parts : Rfc.NumberParts) : Option PjhJson.Number :=
  match if !parts.fraction.isEmpty || !parts.exponent.isEmpty then none
    else integerOf parts.integer parts.integer.length (!parts.minus.isEmpty) with
  | some value => some (.integer value)
  | none =>
    let result := platform.fromChars parts.text
    if result.ec = .none ∧ result.ptr = parts.text.length then some (.double result.value) else none

theorem classifyNumber_eq_ok {parts : Rfc.NumberParts} {rest : Bytes} {number : Number} :
    classifyNumber platform (parts.text ++ rest) rest (parts.scan rest) = .ok number ↔
      parts.value platform = some number := by
  rw [classifyNumber, Rfc.NumberParts.value]
  simp only [Rfc.NumberParts.scan, integerOf_append]
  cases (if !parts.fraction.isEmpty || !parts.exponent.isEmpty then none
    else integerOf parts.integer parts.integer.length (!parts.minus.isEmpty)) with
  | some value => simp
  | none =>
      simp only
      generalize hresult : platform.fromChars parts.text = result
      obtain ⟨ptr, ec, value⟩ := result
      cases ec
      · by_cases hptr : ptr = parts.text.length <;> simp [doubleOf, hresult, Except.map, hptr]
      · simp [doubleOf, hresult, Except.map]
      · simp [doubleOf, hresult, Except.map]

/-- The RFC number parser consumes a number of the grammar that is in range, and all of it. -/
theorem scanAndClassify_eq_ok {p rest : Bytes} {number : Number} :
    scanAndClassify platform p = .ok (number, rest) ↔
      ∃ parts : Rfc.NumberParts, p = parts.text ++ rest ∧ parts.Ends rest ∧
        parts.value platform = some number := by
  constructor
  · intro h
    rw [scanAndClassify] at h
    cases hscan : scanNumber p with
    | error e => rw [hscan] at h; cases h
    | ok result =>
        obtain ⟨parts, hp, hends, hparts⟩ := @scanNumber_ok _ result.2 result.1 hscan
        rw [hscan] at h
        simp only [hparts] at h
        cases hclass : classifyNumber platform p result.2 (parts.scan result.2) with
        | error e => rw [hclass] at h; cases h
        | ok number' =>
            rw [hclass] at h
            obtain ⟨rfl, rfl⟩ : number' = number ∧ result.2 = rest := by simpa [Except.map] using h
            rw [hp] at hclass
            exact ⟨parts, hp, hends, (classifyNumber_eq_ok platform).mp hclass⟩
  · rintro ⟨parts, rfl, hends, hvalue⟩
    rw [scanAndClassify, scanNumber_append parts hends]
    simp only [(classifyNumber_eq_ok platform).mpr hvalue]
    rfl

theorem scanAndClassify_local : Local (scanAndClassify platform) := by
  intro p number rest h
  obtain ⟨parts, rfl, hends, hvalue⟩ := (scanAndClassify_eq_ok platform).mp h
  refine ⟨parts.text, rfl, fun suffix hsuffix => ?_⟩
  exact (scanAndClassify_eq_ok platform).mpr ⟨parts, rfl, hends.shorten hsuffix, hvalue⟩

/-! ### JSON5 tokens -/

theorem matchLiteral_eq_some {p lit rest : Bytes} : matchLiteral p lit = some rest ↔ p = lit ++ rest := by
  rw [matchLiteral]
  constructor
  · intro h
    split at h
    · rename_i hp
      have hsplit := List.take_append_drop lit.length p
      rw [hp.2, Option.some.inj h] at hsplit
      exact hsplit.symm
    · cases h
  · rintro rfl
    simp

theorem startsWithHexPrefix_iff {p : Bytes} : startsWithHexPrefix p = true ↔
    ∃ x rest, p = ascii '0' :: x :: rest ∧ (x = ascii 'x' ∨ x = ascii 'X') := by
  match p with
  | [] => simp [startsWithHexPrefix]
  | [a] => simp [startsWithHexPrefix]
  | a :: b :: rest =>
    simp only [startsWithHexPrefix, Bool.and_eq_true, beq_iff_eq, Bool.or_eq_true]
    constructor
    · rintro ⟨rfl, h⟩
      exact ⟨b, rest, rfl, h⟩
    · rintro ⟨x, rest', h, hx⟩
      obtain ⟨rfl, rfl, rfl⟩ : a = ascii '0' ∧ b = x ∧ rest = rest' := by simpa using h
      exact ⟨rfl, hx⟩

theorem startsWithHexPrefix_shorten {p q : Bytes} (h : q <+: p) (hq : startsWithHexPrefix q = true) :
    startsWithHexPrefix p = true := by
  obtain ⟨x, rest, rfl, hx⟩ := startsWithHexPrefix_iff.mp hq
  obtain ⟨more, rfl⟩ := h
  exact startsWithHexPrefix_iff.mpr ⟨x, rest ++ more, rfl, hx⟩

theorem scanExponent_local : Local scanExponent := by
  intro p found rest h
  obtain ⟨exponent, hp, he, hfound, hstop, hnone⟩ := scanExponent_ok h
  refine ⟨exponent, hp, fun suffix hsuffix => ?_⟩
  rw [hfound]
  refine scanExponent_append he (fun hne => (hstop hne).shorten hsuffix) fun hnil => ?_
  exact ⟨startsWith_eq_false.mpr ((startsWith_eq_false.mp (hnone hnil).1).shorten hsuffix),
    startsWith_eq_false.mpr ((startsWith_eq_false.mp (hnone hnil).2).shorten hsuffix)⟩

/-- The decimal scanner of JSON5 with the digits that it counts in place of where they start. -/
theorem scanDecimalJson5_ok {p start rest : Bytes} {count : Nat} {point : Bool}
    (h : scanDecimalJson5 p = .ok ((start, count, point), rest)) :
    ∃ token digits more, p = token ++ rest ∧ token ≠ [] ∧ start = digits ++ (more ++ rest) ∧
      count = digits.length ∧ (∀ suffix, suffix <+: rest →
        scanDecimalJson5 (token ++ suffix) = .ok ((digits ++ (more ++ suffix), count, point), suffix)) := by
  rw [scanDecimalJson5] at h
  by_cases hdot : startsWith '.' p = true
  · obtain ⟨tail, rfl⟩ : ∃ tail, p = ascii '.' :: tail := by
      cases p with
      | nil => simp [startsWith] at hdot
      | cons c tail => exact ⟨tail, by simpa [startsWith] using hdot⟩
    rw [if_pos hdot, List.tail_cons] at h
    by_cases hstart : startsWithDigit tail = true
    · obtain ⟨digits, rest', rfl, hdigits, hstop⟩ := exists_digits hstart
      simp only [hstart, Bool.not_true, Bool.false_eq_true, if_false,
        dropWhile_run hdigits.isDigit hstop, List.length_append, Nat.add_sub_cancel] at h
      obtain ⟨⟨rfl, rfl, rfl⟩, rfl⟩ : (digits ++ rest' = start ∧ digits.length = count ∧
          true = point) ∧ rest' = rest := by simpa using h
      refine ⟨ascii '.' :: digits, digits, [], rfl, by simp, rfl, rfl, fun suffix hsuffix => ?_⟩
      rw [scanDecimalJson5, List.cons_append, if_pos (by simp [startsWith]), List.tail_cons]
      simp only [hdigits.startsWithDigit, Bool.not_true, Bool.false_eq_true, if_false,
        dropWhile_run hdigits.isDigit (hstop.shorten hsuffix), List.length_append,
        Nat.add_sub_cancel, List.nil_append]
    · rw [if_pos (by simpa using hstart)] at h
      cases h
  · rw [if_neg hdot] at h
    by_cases hstart : startsWithDigit p = true
    · obtain ⟨digits, rest', rfl, hdigits, hstop⟩ := exists_digits hstart
      simp only [hstart, Bool.not_true, Bool.false_eq_true, if_false,
        dropWhile_run hdigits.isDigit hstop, List.length_append, Nat.add_sub_cancel] at h
      by_cases hzero : hasLeadingZero (digits ++ rest') digits.length = true
      · rw [if_pos hzero] at h
        cases h
      rw [if_neg hzero] at h
      have hinteger := (hasLeadingZero_iff hdigits).mp (Bool.not_eq_true _ ▸ hzero)
      obtain ⟨⟨rfl, rfl, rfl⟩, rfl⟩ : (digits ++ rest' = start ∧ digits.length = count ∧
          (scanFractionJson5 rest').1 = point) ∧ (scanFractionJson5 rest').2 = rest := by
        simpa using h
      -- the optional point and the digits after it
      obtain ⟨more, hmore, hlocal⟩ : ∃ more, rest' = more ++ (scanFractionJson5 rest').2 ∧
          ∀ suffix, suffix <+: (scanFractionJson5 rest').2 →
            Stops isDigit (more ++ suffix) ∧
            scanFractionJson5 (more ++ suffix) = ((scanFractionJson5 rest').1, suffix) := by
        rw [scanFractionJson5]
        by_cases hpoint : startsWith '.' rest' = true
        · obtain ⟨tail, rfl⟩ : ∃ tail, rest' = ascii '.' :: tail := by
            cases rest' with
            | nil => simp [startsWith] at hpoint
            | cons c tail => exact ⟨tail, by simpa [startsWith] using hpoint⟩
          obtain ⟨run, tail, rfl, hrun, htail⟩ := exists_run isDigit tail
          rw [if_pos hpoint, List.tail_cons, dropWhile_run hrun htail]
          refine ⟨ascii '.' :: run, rfl, fun suffix hsuffix => ⟨stops_cons.mpr (by decide), ?_⟩⟩
          rw [scanFractionJson5, List.cons_append, if_pos (by simp [startsWith]), List.tail_cons,
            dropWhile_run hrun (htail.shorten hsuffix)]
        · rw [if_neg hpoint]
          refine ⟨[], rfl, fun suffix hsuffix => ⟨hstop.shorten hsuffix, ?_⟩⟩
          have := (startsWith_eq_false.mp (Bool.not_eq_true _ ▸ hpoint)).shorten hsuffix
          rw [List.nil_append, scanFractionJson5, startsWith_eq_false.mpr this]
          rfl
      refine ⟨digits ++ more, digits, more, ?_, ?_, ?_, rfl, fun suffix hsuffix => ?_⟩
      · rw [List.append_assoc, ← hmore]
      · simp [hdigits.1]
      · rw [← hmore]
      · obtain ⟨hstop', hfraction⟩ := hlocal suffix hsuffix
        have hnodot : startsWith '.' (digits ++ (more ++ suffix)) = false := by
          obtain ⟨c, digits, rfl⟩ := List.exists_cons_of_ne_nil hdigits.1
          have hc : c ≠ ascii '.' := by
            rintro rfl
            exact absurd (hdigits.isDigit _ List.mem_cons_self) (by decide)
          simp [startsWith, hc]
        rw [scanDecimalJson5, List.append_assoc, hnodot]
        simp only [Bool.false_eq_true, if_false, hdigits.startsWithDigit, Bool.not_true,
          dropWhile_run hdigits.isDigit hstop', List.length_append, Nat.add_sub_cancel,
          (hasLeadingZero_iff hdigits).mpr hinteger, hfraction]
    · rw [if_pos (by simpa using hstart)] at h
      cases h

theorem startsWith_append {c : Char} {token : Bytes} (h : token ≠ []) (p q : Bytes) :
    startsWith c (token ++ p) = startsWith c (token ++ q) := by
  cases token with
  | nil => exact absurd rfl h
  | cons b token => rfl

/-- The sign of a number is split off whatever follows its first digit. -/
theorem skipSign_token {p token rest : Bytes} (h : skipSign p = token ++ rest) (htoken : token ≠ []) :
    ∃ sign, p = sign ++ (token ++ rest) ∧ ∀ suffix, skipSign (sign ++ (token ++ suffix)) =
      token ++ suffix := by
  obtain ⟨sign, hp, hsign, hnone⟩ := exists_sign p
  refine ⟨sign, by rw [← h]; exact hp, fun suffix => ?_⟩
  rcases hsign with rfl | rfl | rfl
  · have hno := hnone rfl
    rw [hp, h, List.nil_append] at hno
    rw [List.nil_append, skipSign, startsWith_append htoken suffix rest, hno.1,
      startsWith_append htoken suffix rest, hno.2]
    rfl
  · simp [skipSign, startsWith]
  · simp [skipSign, startsWith]

/-- What the JSON5 scanner reports: the digits of the integer part, and where they start. -/
theorem scanNumberJson5_ok {p rest : Bytes} {scan : NumberScanJson5}
    (h : scanNumberJson5 p = .ok (scan, rest)) :
    ∃ token digits more, p = token ++ rest ∧ token ≠ [] ∧ scan.intStart = digits ++ (more ++ rest) ∧
      scan.intDigits = digits.length ∧ (scan.isHex = true → more = []) ∧
      ∀ suffix, suffix <+: rest → scanNumberJson5 (token ++ suffix) =
        .ok ({ scan with intStart := digits ++ (more ++ suffix) }, suffix) := by
  rw [scanNumberJson5] at h
  by_cases hhex : startsWithHexPrefix (skipSign p) = true
  · obtain ⟨x, tail, hskip, hx⟩ := startsWithHexPrefix_iff.mp hhex
    obtain ⟨digits, rest', rfl, hdigits, hstop⟩ := exists_run isHexDigit tail
    have htail : ascii '0' :: x :: (digits ++ rest') = (ascii '0' :: x :: digits) ++ rest' := rfl
    obtain ⟨sign, hp, hsign⟩ := skipSign_token (hskip.trans htail) (by simp)
    rw [hskip] at h hhex
    simp only [hhex, if_true, List.drop_succ_cons, List.drop_zero,
      dropWhile_run hdigits hstop, List.length_append, Nat.add_sub_cancel] at h
    by_cases hzero : digits.length = 0
    · rw [if_pos hzero] at h
      cases h
    rw [if_neg hzero] at h
    obtain ⟨rfl, rfl⟩ : _ = scan ∧ rest' = rest := by
      have := Except.ok.inj h
      exact ⟨(Prod.mk.inj this).1, (Prod.mk.inj this).2⟩
    refine ⟨sign ++ ascii '0' :: x :: digits, digits, [], by rw [hp, List.append_assoc], by simp,
      rfl, rfl, fun _ => rfl, fun suffix hsuffix => ?_⟩
    have hskip' := hsign suffix
    have hhex' : startsWithHexPrefix ((ascii '0' :: x :: digits) ++ suffix) = true :=
      startsWithHexPrefix_iff.mpr ⟨x, digits ++ suffix, rfl, hx⟩
    have hne : sign ++ ascii '0' :: x :: digits ≠ [] := by simp
    rw [scanNumberJson5, startsWith_append hne suffix rest', startsWith_append hne suffix rest',
      List.append_assoc, hskip', hhex', List.append_assoc, ← hp]
    simp only [if_true, List.cons_append, List.drop_succ_cons, List.drop_zero,
      dropWhile_run hdigits (hstop.shorten hsuffix), List.length_append, Nat.add_sub_cancel,
      if_neg hzero, List.nil_append]
  · simp only [hhex, Bool.false_eq_true, if_false] at h
    cases hdecimal : scanDecimalJson5 (skipSign p) with
    | error e => rw [hdecimal] at h; cases h
    | ok result =>
        obtain ⟨⟨start, count, point⟩, middle⟩ := result
        rw [hdecimal] at h
        change (scanExponent middle >>= _) = _ at h
        cases hexponent : scanExponent middle with
        | error e => rw [hexponent] at h; cases h
        | ok result =>
            obtain ⟨found, rest'⟩ := result
            rw [hexponent] at h
            obtain ⟨rfl, rfl⟩ : _ = scan ∧ rest' = rest := by
              have := Except.ok.inj h
              exact ⟨(Prod.mk.inj this).1, (Prod.mk.inj this).2⟩
            obtain ⟨token, digits, more, hskip, htoken, hstart, hcount, hlocal⟩ :=
              scanDecimalJson5_ok hdecimal
            obtain ⟨exponent, rfl, hlocal'⟩ := scanExponent_local _ _ _ hexponent
            obtain ⟨sign, hp, hsign⟩ := skipSign_token hskip htoken
            refine ⟨sign ++ (token ++ exponent), digits, more ++ exponent, ?_, ?_, ?_, hcount, ?_,
              fun suffix hsuffix => ?_⟩
            · rw [hp, List.append_assoc, List.append_assoc]
            · simp [htoken]
            · rw [hstart, List.append_assoc]
            · intro h
              cases h
            · have hpre : exponent ++ suffix <+: exponent ++ rest' :=
                (List.prefix_append_right_inj exponent).mpr hsuffix
              have hskip' : skipSign (sign ++ (token ++ exponent) ++ suffix) =
                  token ++ (exponent ++ suffix) := by
                rw [List.append_assoc, List.append_assoc, hsign]
              have hnohex : startsWithHexPrefix (token ++ (exponent ++ suffix)) = false := by
                by_contra hcon
                refine hhex ?_
                rw [hskip]
                exact startsWithHexPrefix_shorten ((List.prefix_append_right_inj token).mpr hpre)
                  (by simpa using hcon)
              have hne : sign ++ (token ++ exponent) ≠ [] := by simp [htoken]
              have hp' : p = sign ++ (token ++ exponent) ++ rest' := by
                rw [hp, List.append_assoc, List.append_assoc]
              rw [scanNumberJson5, startsWith_append hne suffix rest',
                startsWith_append hne suffix rest', hskip', hnohex, ← hp']
              simp only [Bool.false_eq_true, if_false, hlocal _ hpre]
              change (scanExponent (exponent ++ suffix) >>= _) = _
              rw [hlocal' suffix hsuffix, List.append_assoc]
              rfl

/-- The significant digits of a run, with what follows them. -/
theorem drop_zeros (digits more : Bytes) :
    (digits ++ more).drop (digits.takeWhile (· == ascii '0')).length =
      digits.dropWhile (· == ascii '0') ++ more := by
  have hsplit := List.takeWhile_append_dropWhile (p := (· == ascii '0')) (l := digits)
  conv_lhs => rw [← hsplit, List.append_assoc, hsplit]
  exact List.drop_left

/-- A hexadecimal token is classified by its digits. -/
theorem classifyHex_congr {start start' rest suffix digits : Bytes} {scan scan' : NumberScanJson5}
    {number : Number} (hstart : scan.intStart = digits ++ rest)
    (hstart' : scan'.intStart = digits ++ suffix) (hnegative : scan'.negative = scan.negative)
    (h : classifyHex platform start rest scan = .ok number) :
    classifyHex platform start' suffix scan' = .ok number := by
  rw [classifyHex] at h ⊢
  simp only [hstart, hstart', hnegative, between_append, drop_zeros, List.length_append,
    Nat.add_sub_cancel] at h ⊢
  split at h
  · rename_i hfits
    rw [if_pos hfits]
    exact h
  · rename_i hfits
    rw [if_neg hfits]
    cases hdouble : doubleOf platform.fromCharsHex start (digits.dropWhile (· == ascii '0') ++ rest)
        rest with
    | error e => rw [hdouble] at h; cases h
    | ok d =>
        rw [hdouble] at h
        rw [doubleOf_eq_ok, between_append] at hdouble
        rw [doubleOf_eq_ok.mpr (by rw [between_append]; exact hdouble)]
        exact h

/-- A decimal token is classified by its spelling and the digits of its integer part. -/
theorem classifyDecimalJson5_congr {token rest suffix digits more : Bytes}
    {scan scan' : NumberScanJson5} {number : Number} (htoken : token ≠ [])
    (hstart : scan.intStart = digits ++ (more ++ rest)) (hdigits : scan.intDigits = digits.length)
    (hscan' : scan' = { scan with intStart := digits ++ (more ++ suffix) })
    (h : classifyDecimalJson5 platform (token ++ rest) rest scan = .ok number) :
    classifyDecimalJson5 platform (token ++ suffix) suffix scan' = .ok number := by
  have htail : ∀ more : Bytes, (if scan.explicitPlus then (token ++ more).tail else token ++ more) =
      (if scan.explicitPlus then token.tail else token) ++ more := by
    intro more
    obtain ⟨c, token, rfl⟩ := List.exists_cons_of_ne_nil htoken
    split <;> rfl
  subst hscan'
  rw [classifyDecimalJson5] at h ⊢
  simp only [hstart, hdigits, integerOf_append, htail] at h ⊢
  cases hint : (if scan.isFloat then none
    else integerOf digits digits.length scan.negative) with
  | some value =>
      rw [hint] at h
      exact h
  | none =>
      rw [hint] at h
      simp only at h ⊢
      cases hdouble : doubleOf platform.fromChars (token ++ rest)
          ((if scan.explicitPlus then token.tail else token) ++ rest) rest with
      | error e => rw [hdouble] at h; cases h
      | ok d =>
          rw [hdouble] at h
          rw [doubleOf_eq_ok, between_append] at hdouble
          rw [doubleOf_eq_ok.mpr (by rw [between_append]; exact hdouble)]
          exact h

theorem matchLiteral_digit {p lit : Bytes} (h : startsWithDigit p = true)
    (hlit : startsWithDigit lit = false) (hne : lit ≠ []) : matchLiteral p lit = none := by
  rw [Option.eq_none_iff_forall_ne_some]
  intro rest hsome
  rw [matchLiteral_eq_some.mp hsome] at h
  cases lit with
  | nil => exact hne rfl
  | cons c lit => exact Bool.false_ne_true (hlit.symm.trans h)

/-- A digit starts neither `Infinity` nor `NaN`. -/
theorem parseNonfinite_digit {p : Bytes} (h : startsWithDigit (skipSign p) = true) :
    parseNonfinite p = none := by
  rw [parseNonfinite, matchJson5Nonfinite, matchLiteral_digit h (by decide) (by decide)]
  simp only
  rw [matchLiteral_digit h (by decide) (by decide)]
  rfl

theorem parseNonfinite_local {p rest : Bytes} {number : Number}
    (h : parseNonfinite p = some (number, rest)) :
    ∃ token, p = token ++ rest ∧ ∀ suffix, parseNonfinite (token ++ suffix) = some (number, suffix) := by
  rw [parseNonfinite, Option.map_eq_some_iff] at h
  obtain ⟨⟨spelling, rest'⟩, hmatch, hnumber⟩ := h
  obtain ⟨rfl, rfl⟩ := Prod.mk.inj hnumber
  obtain ⟨lit, hskip, hne, hlit⟩ : ∃ lit, skipSign p = lit ++ rest' ∧ lit ≠ [] ∧
      ∀ suffix, matchJson5Nonfinite (lit ++ suffix) = some (spelling, suffix) := by
    rw [matchJson5Nonfinite] at hmatch
    split at hmatch
    · rename_i rest hinf
      obtain ⟨rfl, rfl⟩ := Prod.mk.inj (Option.some.inj hmatch)
      refine ⟨asciiBytes "Infinity", matchLiteral_eq_some.mp hinf, by decide, fun suffix => ?_⟩
      rw [matchJson5Nonfinite, matchLiteral_eq_some.mpr rfl]
    · rw [Option.map_eq_some_iff] at hmatch
      obtain ⟨rest, hnan, heq⟩ := hmatch
      obtain ⟨rfl, rfl⟩ := Prod.mk.inj heq
      refine ⟨asciiBytes "NaN", matchLiteral_eq_some.mp hnan, by decide, fun suffix => ?_⟩
      have hnone : matchLiteral (asciiBytes "NaN" ++ suffix) (asciiBytes "Infinity") = none := by
        rw [Option.eq_none_iff_forall_ne_some]
        intro other hother
        have hhead : some (ascii 'N') = some (ascii 'I') :=
          congrArg List.head? (matchLiteral_eq_some.mp hother)
        exact absurd hhead (by decide)
      rw [matchJson5Nonfinite, hnone, matchLiteral_eq_some.mpr rfl]
      rfl
  obtain ⟨sign, hp, hsign⟩ := skipSign_token hskip hne
  refine ⟨sign ++ lit, by rw [hp, List.append_assoc], fun suffix => ?_⟩
  have hsame : startsWith '-' (sign ++ lit ++ suffix) = startsWith '-' p := by
    rw [hp, ← List.append_assoc]
    exact startsWith_append (by simp [hne]) suffix rest'
  rw [parseNonfinite, hsame, List.append_assoc, hsign, hlit]
  rfl

theorem parseNonfinite_shorten {p q : Bytes} (h : q <+: p) (hp : parseNonfinite p = none) :
    parseNonfinite q = none := by
  by_contra hq
  obtain ⟨⟨number, rest⟩, hsome⟩ := Option.ne_none_iff_exists'.mp hq
  obtain ⟨token, rfl, hlocal⟩ := parseNonfinite_local hsome
  obtain ⟨more, rfl⟩ := h
  rw [List.append_assoc, hlocal] at hp
  cases hp

theorem parseNumberJson5_local : Local (parseNumberJson5 platform) := by
  intro p number rest h
  rw [parseNumberJson5] at h
  cases hnonfinite : parseNonfinite p with
  | some result =>
      rw [hnonfinite] at h
      obtain ⟨token, hp, hlocal⟩ := parseNonfinite_local (hnonfinite.trans (by
        rw [Except.ok.inj h]))
      refine ⟨token, hp, fun suffix _ => ?_⟩
      rw [parseNumberJson5, hlocal]
  | none =>
      rw [hnonfinite] at h
      cases hscan : scanNumberJson5 p with
      | error e => rw [hscan] at h; cases h
      | ok result =>
          obtain ⟨scan, rest'⟩ := result
          obtain ⟨token, digits, more, hp, htoken, hstart, hdigits, hmore, hlocal⟩ :=
            scanNumberJson5_ok hscan
          rw [hscan] at h
          simp only at h
          have hrest : rest' = rest ∧ (if scan.isHex then classifyHex platform p rest' scan
              else classifyDecimalJson5 platform p rest' scan) = .ok number := by
            cases hclass : (if scan.isHex then classifyHex platform p rest' scan
              else classifyDecimalJson5 platform p rest' scan) with
            | error e => rw [hclass] at h; cases h
            | ok number' =>
                rw [hclass] at h
                obtain ⟨rfl, rfl⟩ := Prod.mk.inj (Except.ok.inj h)
                exact ⟨rfl, rfl⟩
          obtain ⟨rfl, hclass⟩ := hrest
          refine ⟨token, hp, fun suffix hsuffix => ?_⟩
          have hnone : parseNonfinite (token ++ suffix) = none :=
            parseNonfinite_shorten (hp ▸ (List.prefix_append_right_inj token).mpr hsuffix) hnonfinite
          have hclass' : (if scan.isHex then
                classifyHex platform (token ++ suffix) suffix
                  { scan with intStart := digits ++ (more ++ suffix) }
              else classifyDecimalJson5 platform (token ++ suffix) suffix
                  { scan with intStart := digits ++ (more ++ suffix) }) = .ok number := by
            by_cases hhex : scan.isHex = true
            · rw [if_pos hhex] at hclass ⊢
              obtain rfl := hmore hhex
              exact classifyHex_congr platform hstart rfl rfl hclass
            · rw [if_neg hhex] at hclass ⊢
              rw [hp] at hclass
              exact classifyDecimalJson5_congr platform htoken hstart hdigits rfl hclass
          rw [parseNumberJson5, hnone, hlocal suffix hsuffix]
          simp only [hclass']
          rfl

/-- The number parsers are decided by the token they consume. -/
theorem parseNumberToken_local (cfg : Config) : Local (parseNumberToken platform cfg) := by
  intro p number rest h
  rw [parseNumberToken] at h
  split at h
  · rename_i hjson5
    obtain ⟨token, hp, hlocal⟩ := parseNumberJson5_local platform p number rest h
    refine ⟨token, hp, fun suffix hsuffix => ?_⟩
    rw [parseNumberToken, if_pos hjson5, hlocal suffix hsuffix]
  · rename_i hjson5
    obtain ⟨token, hp, hlocal⟩ := scanAndClassify_local platform p number rest h
    refine ⟨token, hp, fun suffix hsuffix => ?_⟩
    rw [parseNumberToken, if_neg hjson5, hlocal suffix hsuffix]

/-- The number of a token that is parsed as a whole. -/
def tokenNumber (cfg : Config) (token : Bytes) : Number :=
  match parseNumberToken platform cfg token with
  | .ok (number, _) => number
  | .error _ => .integer 0

theorem tokenNumber_between {cfg : Config} {p rest : Bytes} {number : Number}
    (h : parseNumberToken platform cfg p = .ok (number, rest)) :
    tokenNumber platform cfg (between p rest) = number := by
  obtain ⟨token, rfl, hlocal⟩ := parseNumberToken_local platform cfg p number rest h
  have := hlocal [] List.nil_prefix
  rw [List.append_nil] at this
  rw [between_append, tokenNumber, this]

end PjhJson
