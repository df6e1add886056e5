import PjhJson.EscapeText
import PjhJson.ReadingValue

/-! Every reading ends: no loop runs out of fuel, what is left is a suffix of what was there, and a
failure has been recorded. -/

namespace PjhJson

open Grammar

/-! ### Escapes and trivia -/

theorem readHexDigits_ne_stuck (n code : Nat) (text : Bytes) :
    Reading.readHexDigits n code text ≠ .stuck := by
  induction n generalizing code text with
  | zero => intro h; cases h
  | succ n ih =>
      cases text with
      | nil => intro h; cases h
      | cons c text =>
          rw [Reading.readHexDigits]
          split
          · intro h; cases h
          · exact ih _ _

theorem readEncoded_ne_stuck (cp : Nat) (text : Bytes) : Reading.readEncoded cp text ≠ .stuck := by
  rw [Reading.readEncoded]
  split <;> simp

theorem readCodeUnit_ne_stuck (cp : Nat) (text : Bytes) : Reading.readCodeUnit cp text ≠ .stuck := by
  rw [Reading.readCodeUnit]
  split_ifs
  · rw [Reading.readLowSurrogate, Ne, Res.bind_eq_stuck, not_or]
    refine ⟨readHexDigits_ne_stuck _ _ _, ?_⟩
    rintro ⟨_, -, h⟩
    simp only at h
    split at h
    · exact readEncoded_ne_stuck _ _ h
    · cases h
  · simp
  · simp
  · exact readEncoded_ne_stuck _ _

theorem readEscape_ne_stuck (text : Bytes) : Reading.readEscape text ≠ .stuck := by
  rw [Reading.readEscape]
  split
  · simp
  · split_ifs
    · simp
    · simp
    · rw [Ne, Res.bind_eq_stuck, not_or]
      refine ⟨readHexDigits_ne_stuck _ _ _, ?_⟩
      rintro ⟨_, -, h⟩
      exact readCodeUnit_ne_stuck _ _ h

theorem readHexDigitsBounded_ne_stuck (n code : Nat) (text : Bytes) :
    readHexDigitsBounded n code text ≠ .stuck := by
  induction n generalizing code text with
  | zero => intro h; cases h
  | succ n ih =>
      cases text with
      | nil => intro h; cases h
      | cons c text =>
          rw [readHexDigitsBounded]
          split
          · intro h; cases h
          · exact ih _ _

theorem encodeEscape_ne_stuck (cp : Nat) (text : Bytes) : encodeEscape cp text ≠ .stuck := by
  rw [encodeEscape]
  split <;> simp

theorem handleCodeUnitBounded_ne_stuck (cp : Nat) (text : Bytes) :
    handleCodeUnitBounded cp text ≠ .stuck := by
  rw [handleCodeUnitBounded]
  split_ifs
  · rw [handleLowSurrogateBounded, Ne, Res.bind_eq_stuck, not_or]
    refine ⟨readHexDigitsBounded_ne_stuck _ _ _, ?_⟩
    rintro ⟨_, -, h⟩
    simp only at h
    split at h
    · exact encodeEscape_ne_stuck _ _ h
    · cases h
  · simp
  · simp
  · exact encodeEscape_ne_stuck _ _

theorem handleHexByte_ne_stuck (text : Bytes) : handleHexByte text ≠ .stuck := by
  rw [handleHexByte.eq_def]
  split
  · split
    · simp
    · split <;> simp
  · simp

theorem handleEscapeJson5Bounded_ne_stuck (text : Bytes) :
    handleEscapeJson5Bounded text ≠ .stuck := by
  rw [handleEscapeJson5Bounded]
  split
  · simp
  · split_ifs
    all_goals first | simp; done | exact handleHexByte_ne_stuck _ | skip
    rw [Ne, Res.bind_eq_stuck, not_or]
    refine ⟨readHexDigitsBounded_ne_stuck _ _ _, ?_⟩
    rintro ⟨_, -, h⟩
    exact handleCodeUnitBounded_ne_stuck _ _ h

theorem length_skipUnicodeWhitespace {p rest : Bytes} (h : skipUnicodeWhitespace p = some rest) :
    rest.length < p.length := by
  rw [skipUnicodeWhitespace.eq_def] at h
  cases p with
  | nil => cases h
  | cons c p =>
      simp only at h
      split at h
      · cases h
      split at h
      · rename_i cp length hdecode
        split at h
        · obtain rfl := Option.some.inj h
          have := length_decodeUtf8 hdecode
          rw [List.length_drop]
          omega
        · cases h
      · cases h

theorem length_skipLineComment (p : Bytes) : (skipLineComment p).length ≤ p.length := by
  induction p with
  | nil => exact Nat.le_refl _
  | cons c rest ih =>
      rw [skipLineComment]
      split_ifs
      · exact Nat.le_refl _
      · exact Nat.le_refl _
      · exact Nat.le_trans ih (Nat.le_succ _)

theorem length_skipBlockComment {p rest : Bytes} (h : skipBlockComment p = .ok rest) :
    rest.length ≤ p.length := by
  induction p with
  | nil => cases h
  | cons a p ih =>
      cases p with
      | nil => cases h
      | cons b p =>
          rw [skipBlockComment] at h
          split at h
          · obtain rfl := Except.ok.inj h
            simp only [List.length_cons]
            omega
          · exact Nat.le_trans (ih h) (Nat.le_succ _)

/-- The trivia loop ends within its fuel. -/
theorem skipTriviaLoop_ne_none {fuel : Nat} {p : Bytes} (h : p.length < fuel) :
    skipTriviaLoop fuel p ≠ none := by
  induction fuel generalizing p with
  | zero => omega
  | succ fuel ih =>
      have hdrop : (p.dropWhile isJson5WhitespaceAscii).length ≤ p.length :=
        (List.dropWhile_sublist _).length_le
      have htake : ∀ {text : Bytes}, (p.dropWhile isJson5WhitespaceAscii).take 2 = text →
          text.length = 2 → 2 ≤ (p.dropWhile isJson5WhitespaceAscii).length := by
        intro text heq hlength
        have := congrArg List.length heq
        rw [List.length_take, hlength] at this
        omega
      rw [skipTriviaLoop]
      cases hunicode : skipUnicodeWhitespace (p.dropWhile isJson5WhitespaceAscii) with
      | some rest =>
          have := length_skipUnicodeWhitespace hunicode
          exact ih (by omega)
      | none =>
          simp only
          split_ifs with hline hblock
          · have := htake hline (by decide)
            have := length_skipLineComment ((p.dropWhile isJson5WhitespaceAscii).drop 2)
            rw [List.length_drop] at this
            exact ih (by omega)
          · have := htake hblock (by decide)
            cases hcomment : skipBlockComment ((p.dropWhile isJson5WhitespaceAscii).drop 2) with
            | ok rest =>
                have := length_skipBlockComment hcomment
                rw [List.length_drop] at this
                exact ih (by omega)
            | error rest => simp
          · simp

theorem skipTrivia_ne_none (p : Bytes) : skipTrivia p ≠ none :=
  skipTriviaLoop_ne_none (Nat.lt_succ_self _)

namespace Reading

variable {platform : Platform} {cfg : Config} {tail : Nat} {r : Reading} {α β : Type}

/-- The reading ends in what is left of `r`, or with a recorded failure. -/
abbrev Reads (r : Reading) (run : Res Reading (α × Reading)) : Prop :=
  Prog.Ends run (fun _ r' => r'.rest <:+ r.rest) fun r' => r'.failure.isSome = true

/-! ### Primitive steps -/

theorem reads_bind {program : Prog Reading α} {next : α → Prog Reading β}
    (h : Reads r (program r)) (hnext : ∀ a r', r'.rest <:+ r.rest → Reads r' (next a r')) :
    Reads r ((program >>= next) r) :=
  Prog.ends_bind h fun a r' _ hsuffix =>
    Prog.ends_mono (hnext a r' hsuffix) fun _ _ hsuffix' => hsuffix'.trans hsuffix

theorem reads_pure (value : α) : Reads r ((pure value : Prog Reading α) r) :=
  List.suffix_refl r.rest

theorem record_isSome (failure : Failure) :
    (if r.failure.isSome then r else { r with failure := some failure }).failure.isSome = true := by
  split
  · assumption
  · rfl

theorem reads_record (failure : Failure) : Reads r (record failure r) := by
  rw [record, Prog.modify_apply]
  split
  · exact List.suffix_refl _
  · exact List.suffix_refl _

/-- The reading stops with a recorded failure. -/
def Fails (run : Res Reading (α × Reading)) : Prop :=
  ∃ r', run = .error r' ∧ r'.failure.isSome = true

theorem Fails.reads {run : Res Reading (α × Reading)} (h : Fails run) : Reads r run := by
  obtain ⟨r', hrun, hsome⟩ := h
  rw [hrun]
  exact hsome

theorem Fails.bind {program : Prog Reading α} (h : Fails (program r)) (next : α → Prog Reading β) :
    Fails ((program >>= next) r) := by
  obtain ⟨r', hrun, hsome⟩ := h
  exact ⟨r', Prog.bind_of_error hrun next, hsome⟩

theorem fails_fail (code : ErrorCode) (left : Nat) : Fails ((fail code left : Prog Reading α) r) :=
  ⟨_, rfl, record_isSome _⟩

theorem fails_failHere (code : ErrorCode) : Fails ((failHere code : Prog Reading α) r) :=
  fails_fail _ _

theorem fails_failContext (code : ErrorCode) (detail : Bytes) :
    Fails ((failContext code detail : Prog Reading α) r) := ⟨_, rfl, record_isSome _⟩

theorem reads_fail (code : ErrorCode) (left : Nat) :
    Reads r ((fail code left : Prog Reading α) r) := (fails_fail code left).reads

theorem reads_failHere (code : ErrorCode) : Reads r ((failHere code : Prog Reading α) r) :=
  (fails_failHere code).reads

theorem reads_failContext (code : ErrorCode) (detail : Bytes) :
    Reads r ((failContext code detail : Prog Reading α) r) := (fails_failContext code detail).reads

theorem reads_advance (count : Nat) : Reads r (advance count r) := List.drop_suffix _ _

theorem reads_advanceTo (rest : Bytes) : Reads r (advanceTo tail rest r) := List.drop_suffix _ _

theorem reads_peek {next : UInt8 → Prog Reading α} (hnext : Reads r (next r.here r)) :
    Reads r ((peek >>= next) r) := hnext

/-! ### Tokens -/

theorem reads_skipWhitespace : Reads r (skipWhitespace cfg tail r) := by
  rw [skipWhitespace]
  split
  · rw [skipTriviaHere, Prog.bind_get]
    cases htrivia : skipTrivia (r.body tail) with
    | none => exact absurd htrivia (skipTrivia_ne_none _)
    | some result =>
        refine reads_bind (reads_advanceTo _) fun _ r' _ => ?_
        split
        · exact reads_record _
        · exact reads_pure _
  · exact List.dropWhile_suffix _

theorem reads_readLiteral : Reads r (readLiteral cfg r) := by
  rw [readLiteral, Prog.bind_get]
  cases literalHere r with
  | none => exact reads_failHere _
  | some result =>
      refine reads_bind (reads_advance _) fun _ r' _ => ?_
      refine reads_peek ?_
      split
      · exact reads_pure _
      · exact reads_failHere _

theorem reads_readNumber : Reads r (readNumber platform cfg tail r) := by
  rw [readNumber, Prog.bind_get]
  cases parseNumberToken platform cfg (r.body tail) with
  | error failure => exact reads_fail _ _
  | ok result => exact reads_bind (reads_advanceTo _) fun _ _ _ => reads_pure _

theorem reads_checkUtf8 {left : Nat} {ck : Utf8Checker} {next : Unit → Prog Reading α}
    (hnext : Reads r (next () r)) : Reads r ((checkUtf8 left ck >>= next) r) := by
  rw [checkUtf8]
  split
  · exact ((fails_fail _ _).bind next).reads
  · exact hnext

/-- Decoding an escape consumes it. -/
theorem ends_decodeEscape {text : Reading → Bytes}
    {decoder : Bytes → Res EscapeError (Bytes × Bytes)} (htext : (text r).length ≤ r.rest.length)
    (hstuck : decoder (text r) ≠ .stuck)
    (hshrink : ∀ written rest, decoder (text r) = .ok (written, rest) →
      rest.length < (text r).length) :
    Prog.Ends (decodeEscape text decoder r)
      (fun _ r' => r'.rest <:+ r.rest ∧ r'.rest.length < r.rest.length)
      fun r' => r'.failure.isSome = true := by
  rw [decodeEscape, Prog.bind_get]
  cases hdecode : decoder (text r) with
  | stuck => exact absurd hdecode hstuck
  | error failure =>
      obtain ⟨code, anchor⟩ := failure
      cases anchor with
      | none => exact record_isSome _
      | some anchor => exact record_isSome _
  | ok result =>
      have hlt := hshrink _ _ hdecode
      refine ⟨List.drop_suffix _ _, ?_⟩
      rw [List.length_drop]
      omega

theorem reads_decodeEscape {next : Bytes → Prog Reading α} {text : Reading → Bytes}
    {decoder : Bytes → Res EscapeError (Bytes × Bytes)} (htext : (text r).length ≤ r.rest.length)
    (hstuck : decoder (text r) ≠ .stuck)
    (hshrink : ∀ written rest, decoder (text r) = .ok (written, rest) →
      rest.length < (text r).length)
    (hnext : ∀ written r', r'.rest.length < r.rest.length → Reads r' (next written r')) :
    Reads r ((decodeEscape text decoder >>= next) r) :=
  Prog.ends_bind (ends_decodeEscape htext hstuck hshrink) fun written r' _ hdone =>
    Prog.ends_mono (hnext written r' hdone.2) fun _ _ hsuffix => hsuffix.trans hdone.1

/-- Moving over a byte that is there leaves less to read. -/
theorem reads_advance_one {next : Unit → Prog Reading α} (hne : r.rest ≠ [])
    (hnext : ∀ r', r'.rest.length < r.rest.length → Reads r' (next () r')) :
    Reads r ((advance 1 >>= next) r) := by
  refine Prog.ends_mono (hnext { r with rest := r.rest.drop 1 } ?_) fun _ _ hsuffix =>
    hsuffix.trans (List.drop_suffix _ _)
  obtain ⟨c, rest, hrest⟩ := List.exists_cons_of_ne_nil hne
  simp [hrest]

theorem reads_advanceTo_shorter {next : Unit → Prog Reading α} {rest : Bytes}
    (hlt : rest.length < (r.body tail).length)
    (hnext : ∀ r', r'.rest.length < r.rest.length → Reads r' (next () r')) :
    Reads r ((advanceTo tail rest >>= next) r) := by
  refine Prog.ends_mono (hnext
    { r with rest := r.rest.drop ((r.body tail).length - rest.length) } ?_) fun _ _ hsuffix =>
      hsuffix.trans (List.drop_suffix _ _)
  have hbody := length_body_le tail r
  simp only [List.length_drop]
  omega

theorem ne_nil_of_here (h : r.here ≠ 0) : r.rest ≠ [] := by
  intro hnil
  rw [here, hnil] at h
  exact h rfl

theorem ne_nil_of_atEnd (h : ¬r.atEnd tail = true) : r.rest ≠ [] := by
  intro hnil
  rw [atEnd, hnil] at h
  simp at h

theorem reads_decodeLoop {left fuel : Nat} {decoded : Bytes} {ck : Utf8Checker}
    (hfuel : r.rest.length < fuel) : Reads r (decodeLoop cfg left fuel decoded ck r) := by
  induction fuel generalizing decoded ck r with
  | zero => omega
  | succ fuel ih =>
      rw [decodeLoop]
      refine reads_peek ?_
      split
      · refine reads_checkUtf8 ?_
        exact reads_bind (reads_advance _) fun _ _ _ => reads_pure _
      rw [Prog.bind_get]
      refine reads_checkUtf8 ?_
      split
      · refine reads_decodeEscape (Nat.le_refl _) (readEscape_ne_stuck _)
          (fun _ _ h => (length_readEscape h).2) fun _ r' hlt => ?_
        exact ih (by omega)
      split
      · exact reads_failHere _
      · rename_i hcontrol
        refine reads_advance_one (ne_nil_of_here fun hnul => hcontrol ?_) fun r' hlt => ih (by omega)
        rw [hnul]
        decide

theorem reads_readStringBody : Reads r (readStringBody cfg tail r) := by
  rw [readStringBody, Prog.bind_get]
  refine reads_bind (reads_advance _) fun _ r' hsuffix => ?_
  refine reads_peek ?_
  split
  · refine reads_checkUtf8 ?_
    exact reads_bind (reads_advance _) fun _ _ _ => reads_pure _
  split
  · exact reads_checkUtf8 (reads_decodeLoop (Nat.lt_succ_of_le hsuffix.length_le))
  · rw [Prog.bind_get]
    split
    · exact reads_failHere _
    · exact reads_failHere _

theorem reads_stringLoopJson5 {quote : UInt8} {left fuel : Nat} {decoded : Bytes} {ck : Utf8Checker}
    (hfuel : r.rest.length < fuel) :
    Reads r (stringLoopJson5 cfg tail quote left fuel decoded ck r) := by
  induction fuel generalizing decoded ck r with
  | zero => omega
  | succ fuel ih =>
      rw [stringLoopJson5, Prog.bind_get]
      split
      · exact reads_failHere _
      rename_i hend
      refine reads_peek ?_
      split
      · refine reads_checkUtf8 ?_
        exact reads_bind (reads_advance _) fun _ _ _ => reads_pure _
      refine reads_checkUtf8 ?_
      split
      · refine reads_decodeEscape (length_body_le tail r) (handleEscapeJson5Bounded_ne_stuck _)
          (fun _ _ h => (length_handleEscapeJson5Bounded h).2) fun _ r' hlt => ?_
        exact ih (by omega)
      split
      · exact reads_failHere _
      · exact reads_advance_one (ne_nil_of_atEnd hend) fun r' hlt => ih (by omega)

theorem reads_readStringJson5 (quote : UInt8) : Reads r (readStringJson5 cfg tail quote r) := by
  rw [readStringJson5]
  refine reads_bind (reads_advance _) fun _ r' _ => ?_
  rw [Prog.bind_get]
  exact reads_stringLoopJson5 (Nat.lt_succ_self _)

theorem reads_readString : Reads r (readString cfg tail r) := by
  rw [readString, Prog.bind_get]
  split
  · exact reads_failHere _
  refine reads_peek ?_
  split
  · exact reads_failHere _
  split
  · exact reads_readStringJson5 _
  · exact reads_bind (reads_advance _) fun _ _ _ => reads_readStringBody

/-- A character of an identifier takes at least one byte. -/
theorem length_lt_of_identifierUnit {text rest : Bytes} {cp : Nat} {spelling : Option Bytes}
    (h : identifierUnit text = some (cp, spelling, rest)) : rest.length < text.length := by
  rw [identifierUnit] at h
  split at h
  · rw [Option.map_eq_some_iff] at h
    obtain ⟨⟨cp', rest'⟩, hdecode, heq⟩ := h
    have hlength := length_decodeIdentifierEscape hdecode
    obtain rfl : rest' = rest := (Prod.mk.inj (Prod.mk.inj heq).2).2
    omega
  · rw [Option.map_eq_some_iff] at h
    obtain ⟨⟨cp', length⟩, hdecode, heq⟩ := h
    have hlength := length_decodeUtf8 hdecode
    obtain rfl : text.drop length = rest := (Prod.mk.inj (Prod.mk.inj heq).2).2
    rw [List.length_drop]
    omega

theorem reads_identifierLoop {fuel : Nat} {first : Bool} {decoded : Bytes}
    (hfuel : r.rest.length < fuel) : Reads r (identifierLoop tail fuel first decoded r) := by
  induction fuel generalizing first decoded r with
  | zero => omega
  | succ fuel ih =>
      rw [identifierLoop, Prog.bind_get]
      cases hunit : identifierUnit (r.body tail) with
      | none => exact reads_pure _
      | some result =>
          obtain ⟨cp, spelling, rest⟩ := result
          simp only
          cases (if first then Unicode.isIdentifierStart cp else Unicode.isIdentifierContinue cp) with
          | false => exact reads_pure _
          | true =>
              simp only [Bool.not_true, Bool.false_eq_true, if_false]
              cases spelling with
              | none => exact reads_failContext _ _
              | some written =>
                  exact reads_advanceTo_shorter (length_lt_of_identifierUnit hunit)
                    fun r' hlt => ih (by omega)

theorem reads_readIdentifierKey : Reads r (readIdentifierKey tail r) := by
  rw [readIdentifierKey, Prog.bind_get]
  refine reads_bind (reads_identifierLoop (Nat.lt_succ_self _)) fun _ r' _ => ?_
  rw [Prog.bind_get]
  split
  · exact reads_failHere _
  · exact reads_pure _

/-! ### Values -/

theorem reads_checkDepth {next : Unit → Prog Reading α} {depth : Nat}
    (hnext : Reads r (next () r)) : Reads r ((checkDepth cfg depth >>= next) r) := by
  rw [checkDepth]
  split
  · exact ((fails_failHere _).bind next).reads
  · exact hnext

theorem reads_atByte {next : Bool → Prog Reading α} (c : UInt8)
    (hnext : ∀ found, (found = true → r.rest ≠ []) → Reads r (next found r)) :
    Reads r ((atByte tail c >>= next) r) := by
  have hrun : ∃ found, atByte tail c r = .ok (found, r) ∧ (found = true → r.rest ≠ []) := by
    rw [atByte, Prog.bind_get]
    by_cases hend : r.atEnd tail = true
    · rw [if_pos hend]
      exact ⟨false, rfl, fun h => by cases h⟩
    · rw [if_neg hend]
      exact ⟨_, rfl, fun _ => ne_nil_of_atEnd hend⟩
  obtain ⟨found, hrun, hne⟩ := hrun
  rw [Prog.bind_of_ok hrun]
  exact hnext found hne

theorem reads_closedAfterComma (c : UInt8) : Reads r (closedAfterComma skipWhitespace cfg tail c r) := by
  rw [closedAfterComma]
  split
  · refine reads_bind reads_skipWhitespace fun _ r' _ => ?_
    rw [atByte, Prog.bind_get]
    split
    · exact reads_pure _
    · exact reads_pure _
  · exact reads_pure _

/-- An element reader that ends on every text of fewer than `fuel` bytes. -/
def Total (fuel : Nat) (element : Prog Reading Ast) : Prop :=
  ∀ r, r.rest.length < fuel → Reads r (element r)

theorem reads_elementsLoop {bound : Nat} {element : Prog Reading Ast} (helement : Total bound element)
    {fuel : Nat} {elements : List Ast} (hbound : r.rest.length < bound) (hfuel : r.rest.length < fuel) :
    Reads r (elementsLoop skipWhitespace cfg tail element fuel elements r) := by
  induction fuel generalizing elements r with
  | zero => omega
  | succ fuel ih =>
      rw [elementsLoop]
      refine reads_bind (helement r hbound) fun value r₁ hsuffix₁ => ?_
      refine reads_bind reads_skipWhitespace fun _ r₂ hsuffix₂ => ?_
      have hle₁ := hsuffix₁.length_le
      have hle₂ := hsuffix₂.length_le
      refine reads_peek ?_
      split
      · exact reads_bind (reads_advance _) fun _ _ _ => reads_pure _
      split
      · rename_i hcomma
        refine reads_advance_one (ne_nil_of_here (by rw [hcomma]; decide)) fun r₃ hlt => ?_
        refine reads_bind (reads_closedAfterComma _) fun closed r₄ hsuffix₄ => ?_
        have hle₄ := hsuffix₄.length_le
        split
        · exact reads_bind (reads_advance _) fun _ _ _ => reads_pure _
        · exact ih (by omega) (by omega)
      · exact reads_failHere _

theorem reads_readArray {depth bound : Nat} {element : Nat → Prog Reading Ast}
    (helement : Total bound (element (depth + 1))) (hbound : r.rest.length ≤ bound)
    (hne : r.rest ≠ []) : Reads r (readArray skipWhitespace cfg tail depth element r) := by
  rw [readArray, Prog.bind_get]
  refine reads_checkDepth (reads_advance_one hne fun r₁ hlt => ?_)
  refine reads_bind reads_skipWhitespace fun _ r₂ hsuffix₂ => ?_
  have hle₂ := hsuffix₂.length_le
  refine reads_atByte _ fun empty _ => ?_
  split
  · exact reads_bind (reads_advance _) fun _ _ _ => reads_pure _
  · exact reads_bind (reads_elementsLoop helement (by omega) (by omega)) fun _ _ _ => reads_pure _

theorem reads_readKey : Reads r (readKey cfg tail r) := by
  rw [readKey, Prog.bind_get]
  split_ifs
  · exact reads_readStringJson5 _
  · exact reads_readIdentifierKey
  · exact reads_readString
  · exact reads_failHere _
  · exact reads_readString

theorem reads_checkDuplicateKey {next : Unit → Prog Reading α} {members : List (Bytes × Ast)}
    {key : Bytes} (hnext : Reads r (next () r)) :
    Reads r ((checkDuplicateKey cfg members key >>= next) r) := by
  rw [checkDuplicateKey]
  split
  · exact ((fails_failContext _ _).bind next).reads
  · exact hnext

theorem reads_readMember {bound : Nat} {element : Prog Reading Ast} (helement : Total bound element)
    {members : List (Bytes × Ast)} (hbound : r.rest.length < bound) :
    Reads r (readMember skipWhitespace cfg tail element members r) := by
  rw [readMember]
  refine reads_bind reads_skipWhitespace fun _ r₁ hsuffix₁ => ?_
  refine reads_bind reads_readKey fun key r₂ hsuffix₂ => ?_
  refine reads_checkDuplicateKey ?_
  refine reads_bind reads_skipWhitespace fun _ r₃ hsuffix₃ => ?_
  have hle₁ := hsuffix₁.length_le
  have hle₂ := hsuffix₂.length_le
  have hle₃ := hsuffix₃.length_le
  refine reads_peek ?_
  split
  · exact reads_failHere _
  · refine reads_bind (reads_advance _) fun _ r₄ hsuffix₄ => ?_
    have hle₄ := hsuffix₄.length_le
    exact reads_bind (helement r₄ (by omega)) fun _ _ _ => reads_pure _

theorem reads_membersLoop {bound : Nat} {element : Prog Reading Ast} (helement : Total bound element)
    {fuel : Nat} {members : List (Bytes × Ast)} (hbound : r.rest.length < bound)
    (hfuel : r.rest.length < fuel) :
    Reads r (membersLoop skipWhitespace cfg tail element fuel members r) := by
  induction fuel generalizing members r with
  | zero => omega
  | succ fuel ih =>
      rw [membersLoop]
      refine reads_bind (reads_readMember helement hbound) fun member r₁ hsuffix₁ => ?_
      refine reads_bind reads_skipWhitespace fun _ r₂ hsuffix₂ => ?_
      have hle₁ := hsuffix₁.length_le
      have hle₂ := hsuffix₂.length_le
      rw [Prog.bind_get]
      split
      · exact reads_failHere _
      rename_i hend
      split
      · exact reads_bind (reads_advance _) fun _ _ _ => reads_pure _
      split
      · refine reads_advance_one (ne_nil_of_atEnd hend) fun r₃ hlt => ?_
        refine reads_bind (reads_closedAfterComma _) fun closed r₄ hsuffix₄ => ?_
        have hle₄ := hsuffix₄.length_le
        split
        · exact reads_bind (reads_advance _) fun _ _ _ => reads_pure _
        · exact ih (by omega) (by omega)
      · exact reads_failHere _

theorem reads_readObject {depth bound : Nat} {element : Nat → Prog Reading Ast}
    (helement : Total bound (element (depth + 1))) (hbound : r.rest.length ≤ bound)
    (hne : r.rest ≠ []) : Reads r (readObject skipWhitespace cfg tail depth element r) := by
  rw [readObject, Prog.bind_get]
  refine reads_checkDepth (reads_advance_one hne fun r₁ hlt => ?_)
  refine reads_bind reads_skipWhitespace fun _ r₂ hsuffix₂ => ?_
  have hle₂ := hsuffix₂.length_le
  refine reads_peek ?_
  split
  · exact reads_bind (reads_advance _) fun _ _ _ => reads_pure _
  · exact reads_bind (reads_membersLoop helement (by omega) (by omega)) fun _ _ _ => reads_pure _

theorem reads_readValueAt {depth bound : Nat} {element : Nat → Prog Reading Ast}
    {unexpected : ErrorCode} (helement : Total bound (element (depth + 1)))
    (hbound : r.rest.length ≤ bound) :
    Reads r (readValueAt skipWhitespace platform cfg tail depth element unexpected r.here r) := by
  rw [readValueAt]
  split
  · rename_i h
    exact reads_readObject helement hbound (ne_nil_of_here (by rw [h]; decide))
  split
  · rename_i h
    exact reads_readArray helement hbound (ne_nil_of_here (by rw [h]; decide))
  split_ifs
  · exact reads_bind reads_readString fun _ _ _ => reads_pure _
  · exact reads_readLiteral
  · exact reads_readNumber
  · exact reads_bind (reads_readStringJson5 _) fun _ _ _ => reads_pure _
  · exact reads_readNumber
  · exact reads_failHere _

theorem total_readElement (fuel depth : Nat) :
    Total fuel (readElement skipWhitespace platform cfg tail fuel depth) := by
  induction fuel generalizing depth with
  | zero => exact fun _ hlt => absurd hlt (Nat.not_lt_zero _)
  | succ fuel ih =>
      intro r hlt
      rw [readElement]
      refine reads_bind reads_skipWhitespace fun _ r₁ hsuffix₁ => ?_
      have hle₁ := hsuffix₁.length_le
      exact reads_peek (reads_readValueAt (ih (depth + 1)) (by omega))

theorem reads_readValue {fuel : Nat} (hfuel : r.rest.length ≤ fuel) :
    Reads r (readValue skipWhitespace platform cfg tail fuel r) := by
  rw [readValue]
  refine reads_bind reads_skipWhitespace fun _ r₁ hsuffix₁ => ?_
  have hle₁ := hsuffix₁.length_le
  refine reads_peek ?_
  rw [Prog.bind_get]
  split
  · exact reads_failHere _
  · exact reads_readValueAt (total_readElement fuel 1) (by omega)

theorem reads_failIfRecorded : Reads r (failIfRecorded r) := by
  rw [failIfRecorded, Prog.bind_get]
  split
  · assumption
  · exact reads_pure _

theorem reads_skipLeadingBom : Reads r (skipLeadingBom cfg tail r) := by
  rw [skipLeadingBom, Prog.modify_apply]
  split
  · exact List.drop_suffix _ _
  · exact List.suffix_refl _

/-- Reading a text ends, with its tree or with a recorded failure. -/
theorem reads_readText : Reads r (readText skipWhitespace platform cfg tail r) := by
  rw [readText, Prog.bind_get]
  refine reads_bind reads_skipLeadingBom fun _ r₁ hsuffix₁ => ?_
  refine reads_bind (reads_readValue hsuffix₁.length_le) fun value r₂ _ => ?_
  refine reads_bind reads_failIfRecorded fun _ r₃ _ => ?_
  refine reads_bind reads_skipWhitespace fun _ r₄ _ => ?_
  refine reads_bind reads_failIfRecorded fun _ r₅ _ => ?_
  rw [Prog.bind_get]
  split
  · exact reads_pure _
  · exact reads_failHere _

end Reading
end PjhJson
