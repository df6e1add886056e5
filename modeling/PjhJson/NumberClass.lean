import PjhJson.NumberValue

/-! What `classify_number` makes of the number tokens of the grammar, whatever their length. The
digits of an integer part are counted in a `uint32_t`, so 2^32 digits or more are cut short: the
classification is right exactly when the digits that remain do not pass for an `int64_t`. -/

namespace PjhJson

open Grammar Scanner

/-- What the standard says of `std::from_chars` on the texts of a grammar: all of it is matched, and
the only failure is a value that is out of range. -/
def FromCharsMatches (fromChars : Bytes → FromChars) (text : Bytes) : Prop :=
  (fromChars text).ptr = text.length ∧ (fromChars text).ec ≠ .invalidArgument

/-- The double of a matched text, or the range error at the start of the token. -/
def rangedDouble (fromChars : Bytes → FromChars) (text start : Bytes) :
    Except (ErrorCode × Bytes) Double :=
  if (fromChars text).ec = .resultOutOfRange then .error (.numberOutOfRange, start)
  else .ok (fromChars text).value

theorem doubleOf_matches {fromChars : Bytes → FromChars} {text : Bytes}
    (h : FromCharsMatches fromChars text) (start rest : Bytes) :
    doubleOf fromChars start (text ++ rest) rest = rangedDouble fromChars text start := by
  obtain ⟨hptr, hec⟩ := h
  unfold doubleOf rangedDouble
  rw [between_append]
  generalize fromChars text = result at hptr hec ⊢
  obtain ⟨ptr, ec, value⟩ := result
  cases ec with
  | none =>
      obtain rfl : ptr = text.length := hptr
      simp
  | invalidArgument => exact absurd rfl hec
  | resultOutOfRange => simp

/-- The casts of the code are exact: the magnitude is below `2^63`, or it is the one that the code
treats apart because it has no positive twin. -/
def CastFits (negative : Bool) (uval : UInt64) : Prop :=
  uval.toNat < 2 ^ 63 ∨ (negative = true ∧ uval = kInt64MinAbs)

theorem castFits_of_le {negative : Bool} {uval : UInt64}
    (h : uval.toNat ≤ if negative then 2 ^ 63 else 2 ^ 63 - 1) : CastFits negative uval := by
  by_cases hlt : uval.toNat < 2 ^ 63
  · exact .inl hlt
  · cases negative with
    | true =>
        rw [if_pos rfl] at h
        have heq : uval.toNat = 2 ^ 63 := by omega
        exact .inr ⟨rfl, UInt64.toNat_inj.mp heq⟩
    | false =>
        rw [if_neg (by decide)] at h
        omega

namespace Rfc.NumberParts

variable (parts : NumberParts)

theorem integerValue_eq : parts.integerValue =
    if !parts.minus.isEmpty then -(decimal parts.integer : Int) else decimal parts.integer := by
  unfold integerValue
  cases parts.minus <;> rfl

/-- The digits of the integer part that the code counts. -/
def counted : Bytes := parts.integer.take (parts.integer.length % 2 ^ 32)

def countedValue : Int :=
  if !parts.minus.isEmpty then -(decimal parts.counted : Int) else decimal parts.counted

/-- No integer comes out of a count that was cut short. -/
def CountedRight : Prop :=
  parts.fraction ≠ [] ∨ parts.exponent ≠ [] ∨ parts.integer.length < 2 ^ 32 ∨
    ¬(-2 ^ 63 ≤ parts.countedValue ∧ parts.countedValue < 2 ^ 63)

/-- The right classification of a token that starts at `start`: an `int64_t` is that integer, reached
without a 64-bit overflow, and any other token is what `std::from_chars` makes of all of it. -/
structure Classified (platform : Platform) (start : Bytes)
    (result : Except (ErrorCode × Bytes) PjhJson.Number) : Prop where
  integer : parts.IsInt64 → result = .ok (.integer (Int64.ofInt parts.integerValue))
  exact : parts.IsInt64 → ∀ k,
    (parseU64 (parts.integer.take k)).toNat = decimal (parts.integer.take k)
  casts : parts.IsInt64 → CastFits (!parts.minus.isEmpty) (parseU64 parts.integer)
  other : ¬parts.IsInt64 →
    result = (rangedDouble platform.fromChars parts.text start).map .double

theorem counted_digits : ∀ c ∈ parts.counted, Digit c :=
  fun c hc => parts.isInteger.1.2 c (List.mem_of_mem_take hc)

theorem counted_head (h : 19 < parts.counted.length) : parts.counted.head? ≠ some (ascii '0') := by
  unfold counted at h ⊢
  rw [List.length_take] at h
  rw [List.head?_take, if_neg (by omega)]
  exact parts.isInteger.head (by omega)

/-- An integer is what the code makes of the digits that it counts. -/
theorem integerOf_count (rest : Bytes) :
    integerOf (parts.integer ++ rest) parts.integer.length (!parts.minus.isEmpty) =
      if -2 ^ 63 ≤ parts.countedValue ∧ parts.countedValue < 2 ^ 63 then
        some (Int64.ofInt parts.countedValue) else none := by
  have hsplit : parts.integer ++ rest =
      parts.counted ++ (parts.integer.drop (parts.integer.length % 2 ^ 32) ++ rest) := by
    rw [← List.append_assoc, counted, List.take_append_drop]
  have hcount : parts.integer.length.toUInt32.toNat = parts.counted.length := by
    rw [Nat.toUInt32_eq, UInt32.toNat_ofNat', counted, List.length_take,
      Nat.min_eq_left (Nat.mod_le _ _)]
  rw [hsplit, integerOf_counted parts.counted_digits parts.counted_head _ hcount]
  rfl

theorem counted_of_lt (h : parts.integer.length < 2 ^ 32) : parts.counted = parts.integer := by
  rw [counted, Nat.mod_eq_of_lt h, List.take_length]

theorem countedValue_of_lt (h : parts.integer.length < 2 ^ 32) :
    parts.countedValue = parts.integerValue := by
  rw [countedValue, parts.counted_of_lt h, integerValue_eq]

theorem IsInt64.magnitude {parts : NumberParts} (h : parts.IsInt64) :
    decimal parts.integer ≤ if !parts.minus.isEmpty then 2 ^ 63 else 2 ^ 63 - 1 := by
  have hrange := h.2.2
  rw [integerValue_eq] at hrange
  exact (inRange_iff _ _).mp hrange

theorem IsInt64.le {parts : NumberParts} (h : parts.IsInt64) : decimal parts.integer ≤ 2 ^ 63 := by
  have hmagnitude := h.magnitude
  split at hmagnitude <;> omega

/-- An integer of twenty digits or more is none of `int64_t`. -/
theorem IsInt64.length {parts : NumberParts} (h : parts.IsInt64) : parts.integer.length ≤ 19 := by
  by_contra hlong
  have hle := h.le
  have hdigits := parts.isInteger.1.2
  have hhead := parts.isInteger.head (by omega)
  obtain ⟨c, digits, hcons⟩ := List.exists_cons_of_length_pos (show 0 < parts.integer.length by omega)
  rw [hcons] at hlong hle hdigits hhead
  rw [List.length_cons] at hlong
  have hpow := le_decimal digits (hdigits c List.mem_cons_self) fun hc => hhead (congrArg some hc)
  have hpow' : 10 ^ 19 ≤ 10 ^ digits.length := Nat.pow_le_pow_right (by decide) (by omega)
  omega

theorem IsInt64.exact {parts : NumberParts} (h : parts.IsInt64) (k : Nat) :
    (parseU64 (parts.integer.take k)).toNat = decimal (parts.integer.take k) := by
  exact Positional.value64_take (show 0 < 10 by decide) rfl
    (fun c hc => toNat_sub_zero (parts.isInteger.1.2 c hc)) (Nat.lt_of_le_of_lt h.le (by decide)) k

theorem IsInt64.casts {parts : NumberParts} (h : parts.IsInt64) :
    CastFits (!parts.minus.isEmpty) (parseU64 parts.integer) := by
  refine castFits_of_le ?_
  have hexact := h.exact parts.integer.length
  rw [List.take_length] at hexact
  rw [hexact]
  exact h.magnitude

/-- What `classify_number` makes of a token of the grammar. -/
theorem classifyNumber_eq {platform : Platform}
    (hfrom : FromCharsMatches platform.fromChars parts.text) (rest : Bytes) :
    classifyNumber platform (parts.text ++ rest) rest (parts.scan rest) =
      if (parts.fraction = [] ∧ parts.exponent = []) ∧
          -2 ^ 63 ≤ parts.countedValue ∧ parts.countedValue < 2 ^ 63 then
        .ok (.integer (Int64.ofInt parts.countedValue))
      else (rangedDouble platform.fromChars parts.text (parts.text ++ rest)).map .double := by
  have hfloat : (parts.scan rest).isFloat = true ↔ ¬(parts.fraction = [] ∧ parts.exponent = []) := by
    unfold scan
    cases parts.fraction <;> cases parts.exponent <;> simp
  rw [classifyNumber, doubleOf_matches hfrom]
  by_cases hinteger : parts.fraction = [] ∧ parts.exponent = []
  · rw [if_neg fun h => hfloat.mp h hinteger]
    unfold scan
    simp only [parts.integerOf_count]
    by_cases hrange : -2 ^ 63 ≤ parts.countedValue ∧ parts.countedValue < 2 ^ 63
    · rw [if_pos hrange, if_pos ⟨hinteger, hrange⟩]
    · rw [if_neg hrange, if_neg fun h => hrange h.2]
  · rw [if_pos (hfloat.mpr hinteger), if_neg fun h => hinteger h.1]

/-- Every token of the grammar is scanned, and it is classified as its value demands exactly when no
integer comes out of a count that was cut short. -/
theorem classified_iff {platform : Platform}
    (hfrom : FromCharsMatches platform.fromChars parts.text) {rest : Bytes} (hends : parts.Ends rest) :
    ∃ scan, scanNumber (parts.text ++ rest) = .ok (scan, rest) ∧
      (parts.Classified platform (parts.text ++ rest)
        (classifyNumber platform (parts.text ++ rest) rest scan) ↔ parts.CountedRight) := by
  refine ⟨parts.scan rest, scanNumber_append parts hends, ?_⟩
  rw [parts.classifyNumber_eq hfrom]
  constructor
  · intro h
    by_contra hcounted
    unfold CountedRight at hcounted
    push Not at hcounted
    obtain ⟨hfraction, hexponent, hlong, hrange⟩ := hcounted
    have hint : ¬parts.IsInt64 := fun hint => absurd hint.length (by omega)
    have hother := h.other hint
    rw [if_pos ⟨⟨hfraction, hexponent⟩, hrange⟩] at hother
    unfold rangedDouble at hother
    split at hother <;> cases hother
  · intro hcounted
    refine ⟨fun hint => ?_, IsInt64.exact, IsInt64.casts, fun hint => ?_⟩
    · have hvalue := parts.countedValue_of_lt (by have := hint.length; omega)
      obtain ⟨hfraction, hexponent, hrange⟩ := hint
      rw [hvalue, if_pos ⟨⟨hfraction, hexponent⟩, hrange⟩]
    · refine if_neg fun h => ?_
      obtain ⟨⟨hfraction, hexponent⟩, hrange⟩ := h
      rcases hcounted with h | h | h | h
      · exact h hfraction
      · exact h hexponent
      · rw [parts.countedValue_of_lt h] at hrange
        exact hint ⟨hfraction, hexponent, hrange⟩
      · exact h hrange

/-- `0.5` before a comma. -/
theorem classified_half :
    let parts : NumberParts := ⟨[], asciiBytes "0", asciiBytes ".5", [], .inl rfl,
      ⟨⟨by decide, digits_of_all rfl⟩, fun _ => rfl⟩,
      .some (asciiBytes "5") ⟨by decide, digits_of_all rfl⟩, .none⟩
    ∃ scan, scanNumber (asciiBytes "0.5,") = .ok (scan, asciiBytes ",") ∧
      parts.Classified halfPlatform (asciiBytes "0.5,")
        (classifyNumber halfPlatform (asciiBytes "0.5,") (asciiBytes ",") scan) := by
  intro parts
  have hends : parts.Ends (asciiBytes ",") :=
    ⟨stops_cons.mpr (by decide), fun _ _ => rfl, fun _ => ⟨rfl, rfl⟩⟩
  obtain ⟨scan, hscan, hclassified⟩ := @classified_iff parts halfPlatform ⟨rfl, by decide⟩ _ hends
  exact ⟨scan, hscan, hclassified.mpr (.inl (by decide))⟩

/-- The integer of `n + 1` ones. -/
def ones (n : Nat) : NumberParts where
  minus := []
  integer := List.replicate (n + 1) (ascii '1')
  fraction := []
  exponent := []
  minus_or := .inl rfl
  isInteger := by
    refine ⟨⟨List.cons_ne_nil _ _, fun c hc => ?_⟩, fun h => ?_⟩
    · rw [List.eq_of_mem_replicate hc]
      exact ⟨by decide, by decide⟩
    · exact absurd h (by rw [List.replicate_succ, List.head?_cons]; decide)
  isFraction := .none
  isExponent := .none

theorem ones_counted {n : Nat} (hn : n = 2 ^ 32) : (ones n).counted = [ascii '1'] := by
  have hlength : (ones n).integer.length % 2 ^ 32 = 1 := by
    change (List.replicate (n + 1) (ascii '1')).length % 2 ^ 32 = 1
    rw [List.length_replicate]
    omega
  rw [counted, hlength]
  change (List.replicate (n + 1) (ascii '1')).take 1 = _
  rw [List.replicate_succ, List.take_succ_cons, List.take_zero]

/-- 2^32 + 1 ones are out of the range of a double, and the code makes the integer 1 of them. -/
theorem ones_not_classified :
    let platform : Platform := { halfPlatform with
      fromChars := fun token => { ptr := token.length, ec := .resultOutOfRange, value := ⟨0⟩ } }
    let parts := ones (2 ^ 32)
    scanNumber (parts.text ++ []) = .ok (parts.scan [], []) ∧
      ¬parts.Classified platform (parts.text ++ [])
        (classifyNumber platform (parts.text ++ []) [] (parts.scan [])) := by
  generalize hn : 2 ^ 32 = n
  intro platform parts
  refine ⟨scanNumber_append parts parts.ends_nil, fun h => ?_⟩
  have hcounted : parts.countedValue = 1 := by
    unfold countedValue
    rw [ones_counted hn.symm]
    rfl
  have hlength : parts.integer.length = n + 1 := List.length_replicate
  have hint : ¬parts.IsInt64 := fun hint => absurd hint.length (by omega)
  have hother := h.other hint
  rw [parts.classifyNumber_eq ⟨rfl, Errc.noConfusion⟩, if_pos ⟨⟨rfl, rfl⟩, by omega⟩] at hother
  cases hother

end Rfc.NumberParts

end PjhJson
