import PjhJson.NumberToken

/-! The number scanner on a part of the text. A scan that stops in front of a byte of the part has seen
all that it depends on: with the rest of the text behind the part it does the same. -/

namespace PjhJson

open Grammar Scanner

/-- What more bytes behind a scan change, if it stopped in front of some: nothing but the rest. -/
def extended {ε α : Type} (more : Bytes) : Except (ε × Bytes) (α × Bytes) → Except (ε × Bytes) (α × Bytes)
  | .ok (a, rest) => .ok (a, rest ++ more)
  | .error (reason, anchor) => .error (reason, anchor ++ more)

/-- Where a scan stopped. -/
def stopOf {ε α : Type} : Except (ε × Bytes) (α × Bytes) → Bytes
  | .ok (_, rest) => rest
  | .error (_, anchor) => anchor

theorem startsWith_more {c : Char} {text : Bytes} (h : text ≠ []) (more : Bytes) :
    startsWith c (text ++ more) = startsWith c text := by
  cases text with
  | nil => exact absurd rfl h
  | cons d text => rfl

theorem startsWithDigit_more {text : Bytes} (h : text ≠ []) (more : Bytes) :
    startsWithDigit (text ++ more) = startsWithDigit text := by
  cases text with
  | nil => exact absurd rfl h
  | cons d text => rfl

theorem tail_more {text : Bytes} (h : text ≠ []) (more : Bytes) : (text ++ more).tail = text.tail ++ more := by
  cases text with
  | nil => exact absurd rfl h
  | cons d text => rfl

theorem skipSign_more {text : Bytes} (h : text ≠ []) (more : Bytes) :
    skipSign (text ++ more) = skipSign text ++ more := by
  rw [skipSign, skipSign, startsWith_more h, startsWith_more h]
  split
  · exact tail_more h more
  · rfl

theorem dropWhile_more {q : UInt8 → Bool} {text : Bytes} (h : text.dropWhile q ≠ []) (more : Bytes) :
    (text ++ more).dropWhile q = text.dropWhile q ++ more := by
  rw [List.dropWhile_append, if_neg]
  rwa [List.isEmpty_iff]

theorem scanFraction_more {text : Bytes} (h : stopOf (scanFraction text) ≠ []) (more : Bytes) :
    scanFraction (text ++ more) = extended more (scanFraction text) := by
  have hne : text ≠ [] := by
    rintro rfl
    exact h rfl
  rw [scanFraction] at h ⊢
  rw [scanFraction, startsWith_more hne, tail_more hne]
  split
  · rename_i hpoint
    rw [if_pos hpoint] at h
    cases hdigit : startsWithDigit text.tail with
    | true =>
        have hne' : text.tail ≠ [] := fun hnil => by rw [hnil] at hdigit; cases hdigit
        rw [hdigit, if_pos rfl] at h
        rw [startsWithDigit_more hne', hdigit, if_pos rfl, if_pos rfl, dropWhile_more h]
        rfl
    | false =>
        rw [hdigit, if_neg Bool.false_ne_true] at h
        have hstop : text.tail ≠ [] := h
        rw [startsWithDigit_more hstop, hdigit, if_neg Bool.false_ne_true, if_neg Bool.false_ne_true]
        rfl
  · rfl

theorem scanExponent_more {text : Bytes} (h : stopOf (scanExponent text) ≠ []) (more : Bytes) :
    scanExponent (text ++ more) = extended more (scanExponent text) := by
  have hne : text ≠ [] := by
    rintro rfl
    exact h rfl
  rw [scanExponent] at h ⊢
  rw [scanExponent, startsWith_more hne, startsWith_more hne, tail_more hne]
  split
  · rename_i hexponent
    rw [if_pos hexponent] at h
    have hne' : text.tail ≠ [] := by
      intro hnil
      rw [hnil] at h
      exact h rfl
    rw [skipSign_more hne']
    cases hdigit : startsWithDigit (skipSign text.tail) with
    | true =>
        have hne'' : skipSign text.tail ≠ [] := fun hnil => by rw [hnil] at hdigit; cases hdigit
        rw [hdigit, if_pos rfl] at h
        rw [startsWithDigit_more hne'', hdigit, if_pos rfl, if_pos rfl, dropWhile_more h]
        rfl
    | false =>
        rw [hdigit, if_neg Bool.false_ne_true] at h
        have hstop : skipSign text.tail ≠ [] := h
        rw [startsWithDigit_more hstop, hdigit, if_neg Bool.false_ne_true, if_neg Bool.false_ne_true]
        rfl
  · rfl

/-- A failed scan fails in the same way with more bytes behind the one that it failed at. -/
theorem scanNumber_error_more {text anchor : Bytes} {reason : NumberError}
    (h : scanNumber text = .error (reason, anchor)) (hanchor : anchor ≠ []) (more : Bytes) :
    scanNumber (text ++ more) = .error (reason, anchor ++ more) := by
  have hne : text ≠ [] := by
    rintro rfl
    cases h
    exact hanchor rfl
  rw [scanNumber] at h ⊢
  have hstart : (if startsWith '-' (text ++ more) then (text ++ more).tail else text ++ more) =
      (if startsWith '-' text then text.tail else text) ++ more := by
    rw [startsWith_more hne, tail_more hne]
    split <;> rfl
  generalize (if startsWith '-' text then text.tail else text) = start at h hstart
  simp only [hstart] at h ⊢
  cases hdigit : startsWithDigit start with
  | false =>
      rw [hdigit, Bool.not_false, if_pos rfl] at h
      cases h
      rw [startsWithDigit_more hanchor, hdigit, Bool.not_false, if_pos rfl]
  | true =>
      have hne' : start ≠ [] := fun hnil => by rw [hnil] at hdigit; cases hdigit
      rw [hdigit, Bool.not_true, if_neg Bool.false_ne_true] at h
      have hrest : start.dropWhile isDigit ≠ [] := by
        intro hnil
        rw [hnil] at h
        split at h
        · cases h
          exact hanchor rfl
        · cases h
      have hcount : (start ++ more).length - (start.dropWhile isDigit ++ more).length =
          start.length - (start.dropWhile isDigit).length := by
        rw [List.length_append, List.length_append]
        omega
      have hzero : ∀ n, hasLeadingZero (start ++ more) n = hasLeadingZero start n := by
        intro n
        rw [hasLeadingZero, hasLeadingZero, List.head?_append_of_ne_nil _ hne']
      rw [startsWithDigit_more hne', hdigit, Bool.not_true, if_neg Bool.false_ne_true,
        dropWhile_more hrest, hcount, hzero]
      split at h
      · rename_i hleading
        cases h
        rw [if_pos hleading]
      · rename_i hleading
        rw [if_neg hleading]
        cases hfraction : scanFraction (start.dropWhile isDigit) with
        | error failure =>
            rw [hfraction] at h
            cases h
            have := scanFraction_more (by rw [hfraction]; exact hanchor) more
            rw [this, hfraction]
            rfl
        | ok result =>
            rw [hfraction] at h
            change (scanExponent result.2 >>= _) = _ at h
            cases hexponent : scanExponent result.2 with
            | ok result' => rw [hexponent] at h; cases h
            | error failure =>
                rw [hexponent] at h
                cases h
                have hstop : result.2 ≠ [] := by
                  intro hnil
                  rw [hnil] at hexponent
                  cases hexponent
                have := scanFraction_more (by rw [hfraction]; exact hstop) more
                rw [this, hfraction]
                change (scanExponent (result.2 ++ more) >>= _) = _
                rw [scanExponent_more (by rw [hexponent]; exact hanchor), hexponent]
                rfl

theorem Rfc.NumberParts.Ends.more {parts : Rfc.NumberParts} {rest : Bytes} (h : parts.Ends rest)
    (hne : rest ≠ []) (more : Bytes) : parts.Ends (rest ++ more) where
  digits := fun c hc => h.digits c (by rwa [List.head?_append_of_ne_nil _ hne] at hc)
  point hfraction hexponent := by
    rw [startsWith_more hne]
    exact h.point hfraction hexponent
  exponent hexponent := by
    rw [startsWith_more hne, startsWith_more hne]
    exact h.exponent hexponent

variable (platform : Platform)

/-- What follows a token plays no part in what becomes of it. -/
theorem classifyNumber_more (parts : Rfc.NumberParts) (rest more : Bytes) :
    (classifyNumber platform (parts.text ++ rest ++ more) (rest ++ more) (parts.scan (rest ++ more))).map
        (fun number => (number, rest ++ more)) =
      extended more ((classifyNumber platform (parts.text ++ rest) rest (parts.scan rest)).map
        fun number => (number, rest)) := by
  rw [classifyNumber, classifyNumber, List.append_assoc]
  simp only [Rfc.NumberParts.scan, integerOf_append]
  cases (if !parts.fraction.isEmpty || !parts.exponent.isEmpty then none
    else integerOf parts.integer parts.integer.length (!parts.minus.isEmpty)) with
  | some value => rfl
  | none =>
      simp only [doubleOf, between_append]
      split
      · simp only [Except.map, extended, List.append_assoc]
      · split <;> rfl

/-- A number that stops in front of some byte is the same with more bytes behind that. -/
theorem scanAndClassify_more {text : Bytes} (h : stopOf (scanNumber text) ≠ []) (more : Bytes) :
    scanAndClassify platform (text ++ more) = extended more (scanAndClassify platform text) := by
  rw [scanAndClassify, scanAndClassify]
  cases hscan : scanNumber text with
  | error failure =>
      obtain ⟨reason, anchor⟩ := failure
      rw [hscan] at h
      rw [scanNumber_error_more hscan h]
      rfl
  | ok result =>
      obtain ⟨scan, rest⟩ := result
      rw [hscan] at h
      have hrest : rest ≠ [] := h
      obtain ⟨parts, rfl, hends, rfl⟩ := scanNumber_ok hscan
      rw [List.append_assoc, scanNumber_append parts (hends.more hrest more), ← List.append_assoc]
      exact classifyNumber_more platform parts rest more

theorem length_skipSign_le (text : Bytes) : (skipSign text).length ≤ text.length := by
  rw [skipSign]
  split
  · rw [List.length_tail]
    omega
  · exact Nat.le_refl _

theorem length_dropWhile_le (q : UInt8 → Bool) (text : Bytes) :
    (text.dropWhile q).length ≤ text.length := (List.dropWhile_suffix q).length_le

theorem length_scanFraction_le (text : Bytes) : (stopOf (scanFraction text)).length ≤ text.length := by
  have htail : text.tail.length ≤ text.length := by rw [List.length_tail]; omega
  rw [scanFraction]
  split
  · split
    · exact (length_dropWhile_le _ _).trans htail
    · exact htail
  · exact Nat.le_refl _

theorem length_scanExponent_le (text : Bytes) : (stopOf (scanExponent text)).length ≤ text.length := by
  have htail : text.tail.length ≤ text.length := by rw [List.length_tail]; omega
  rw [scanExponent]
  split
  · split
    · exact (length_dropWhile_le _ _).trans ((length_skipSign_le _).trans htail)
    · exact (length_skipSign_le _).trans htail
  · exact Nat.le_refl _

/-- A scan stops in the text or behind it. -/
theorem length_scanNumber_le (text : Bytes) : (stopOf (scanNumber text)).length ≤ text.length := by
  have hstart : (if startsWith '-' text then text.tail else text).length ≤ text.length := by
    split
    · rw [List.length_tail]
      omega
    · exact Nat.le_refl _
  rw [scanNumber]
  generalize (if startsWith '-' text then text.tail else text) = start at hstart
  have hrest := (length_dropWhile_le isDigit start).trans hstart
  simp only
  split
  · exact hstart
  split
  · exact hrest
  have hfraction := (length_scanFraction_le (start.dropWhile isDigit)).trans hrest
  cases hscan : scanFraction (start.dropWhile isDigit) with
  | error failure =>
      rw [hscan] at hfraction
      exact hfraction
  | ok result =>
      rw [hscan] at hfraction
      have hexponent := (length_scanExponent_le result.2).trans hfraction
      change (stopOf (scanExponent result.2 >>= _)).length ≤ _
      cases hscan' : scanExponent result.2 with
      | error failure =>
          rw [hscan'] at hexponent
          exact hexponent
      | ok result' =>
          rw [hscan'] at hexponent
          exact hexponent

theorem length_scanAndClassify_le (text : Bytes) :
    (stopOf (scanAndClassify platform text)).length ≤ text.length := by
  have hstop := length_scanNumber_le text
  rw [scanAndClassify]
  cases hscan : scanNumber text with
  | error failure =>
      rw [hscan] at hstop
      exact hstop
  | ok result =>
      rw [hscan] at hstop
      simp only
      rw [classifyNumber]
      split
      · exact hstop
      · rw [doubleOf]
        split
        · exact Nat.le_refl _
        · split
          · exact hstop
          · exact hstop

end PjhJson
