import PjhJson.Json5Extension
import PjhJson.Json5Trivia

/-! The strings of JSON5 are read as the grammar has them. The strict gate is fed one backslash for
each escape, at a position that depends on how the escapes are spelled; whether it fails does not. -/

namespace PjhJson.Json5

open Grammar Prog Reading Scanner

variable {cfg : Config} {r : Reading}

/-! ### Escapes -/

theorem singleEscape_iff {c value : UInt8} :
    shortEscapeValueJson5 c ≠ 0 ∧ shortEscapeValueJson5 c = value ↔ SingleEscape c value := by
  constructor
  · rintro ⟨hne, rfl⟩
    rw [shortEscapeValueJson5] at hne ⊢
    split_ifs at hne ⊢ with hquote htab
    · rw [hquote]
      exact .quote
    · rw [htab]
      exact .verticalTab
    · exact .rfc c _ (shortEscapeValue_iff.mp ⟨hne, rfl⟩)
  · intro h
    cases h with
    | rfc _ _ h =>
        obtain ⟨hne, rfl⟩ := shortEscapeValue_iff.mpr h
        rw [h.json5.2]
        exact ⟨hne, rfl⟩
    | quote => decide
    | verticalTab => decide

theorem handleHexByte_iff {text written rest : Bytes} :
    handleHexByte text = .ok (written, rest) ↔ ∃ hi lo h l, Rfc.HexDigit hi h ∧ Rfc.HexDigit lo l ∧
      text = hi :: lo :: rest ∧ written = [(h * 16 + l).toUInt8] := by
  constructor
  · intro hok
    match text with
    | [] => cases hok
    | [_] => cases hok
    | hi :: lo :: more =>
      rw [handleHexByte] at hok
      cases hhi : hexValue hi with
      | none => rw [hhi] at hok; cases hok
      | some h =>
          cases hlo : hexValue lo with
          | none => rw [hhi, hlo] at hok; cases hok
          | some l =>
              rw [hhi, hlo] at hok
              have hdigit := hexValue_iff.mp hlo
              obtain ⟨rfl, rfl⟩ := Prod.mk.inj (Res.ok.inj hok)
              exact ⟨hi, lo, h, l, hexValue_iff.mp hhi, hdigit, rfl, by rw [or_eq_add h hdigit.lt]⟩
  · rintro ⟨hi, lo, h, l, hhi, hlo, rfl, rfl⟩
    rw [handleHexByte, hexValue_iff.mpr hhi]
    simp only [hexValue_iff.mpr hlo, or_eq_add h hlo.lt]

theorem digit_iff {c : UInt8} : Rfc.Digit c ↔ c = ascii '0' ∨ ascii '1' ≤ c ∧ c ≤ ascii '9' := by
  have hzero : (ascii '0').toNat = 48 := rfl
  have hone : (ascii '1').toNat = 49 := rfl
  have hnine : (ascii '9').toNat = 57 := rfl
  have hlow : (0x30 : UInt8).toNat = 48 := rfl
  have hhigh : (0x39 : UInt8).toNat = 57 := rfl
  rw [Rfc.Digit, UInt8.le_iff_toNat_le, UInt8.le_iff_toNat_le, UInt8.le_iff_toNat_le,
    UInt8.le_iff_toNat_le, ← UInt8.toNat_inj]
  omega

/-- A `\u` escape, in a string or in a key. -/
theorem unicode_iff {text written rest : Bytes} :
    handleEscapeJson5Bounded (ascii '\\' :: ascii 'u' :: text) = .ok (written, rest) ↔
      ∃ spelling value, UnicodeEscape spelling value ∧
        ascii '\\' :: ascii 'u' :: text = spelling ++ rest ∧
        written = String.utf8EncodeChar value := by
  rw [unicodeEscape_iff, readEscape_iff]
  constructor
  · rintro ⟨spelling, hcharacter, htext⟩
    obtain ⟨whole, hwhole⟩ : ∃ whole, whole = ascii '\\' :: spelling := ⟨_, rfl⟩
    rw [← hwhole] at hcharacter
    cases hcharacter with
    | unescaped c _ _ hbackslash => exact absurd (List.cons.inj hwhole).1 hbackslash
    | short c value h =>
        obtain rfl := (List.cons.inj hwhole).2
        obtain rfl := (List.cons.inj htext).1
        exact absurd rfl (shortEscapeValue_iff.mpr h).1
    | unicode digits value hdigits =>
        obtain rfl := (List.cons.inj hwhole).2
        exact ⟨_, value, .unit digits value hdigits, by rw [htext]; rfl, rfl⟩
    | pair digits digits' high low value hdigits hdigits' hle hle' hlow hlow' hvalue =>
        obtain rfl := (List.cons.inj hwhole).2
        exact ⟨_, value, .pair digits digits' high low value hdigits hdigits' hle hle' hlow hlow'
          hvalue, by rw [htext]; rfl, rfl⟩
  · rintro ⟨spelling, value, hescape, htext, rfl⟩
    cases hescape with
    | unit digits value hdigits =>
        exact ⟨ascii 'u' :: digits, .unicode digits value hdigits, (List.cons.inj htext).2⟩
    | pair digits digits' high low value hdigits hdigits' hle hle' hlow hlow' hvalue =>
        exact ⟨ascii 'u' :: (digits ++ ascii '\\' :: ascii 'u' :: digits'),
          .pair digits digits' high low value hdigits hdigits' hle hle' hlow hlow' hvalue,
          (List.cons.inj htext).2⟩

theorem UnicodeEscape.start {spelling : Bytes} {value : Char} (h : UnicodeEscape spelling value) :
    ∃ digits, spelling = ascii '\\' :: ascii 'u' :: digits := by
  cases h <;> exact ⟨_, rfl⟩

/-- The escapes of two characters are none of those that are handled first. -/
theorem SingleEscape.first {c value : UInt8} (h : SingleEscape c value) :
    c ≠ 0x0A ∧ c ≠ 0x0D ∧ c ≠ 0xE2 ∧ c ≠ ascii 'x' ∧ ¬Rfc.Digit c ∧ c ≠ ascii 'u' := by
  rw [digit_iff]
  cases h with
  | rfc _ _ h => cases h <;> decide
  | quote => decide
  | verticalTab => decide

/-- The escapes that are decoded are those of the grammar. -/
theorem handleEscape_iff {text written rest : Bytes} :
    handleEscapeJson5Bounded (ascii '\\' :: text) = .ok (written, rest) ↔
      ∃ spelling, Escape rest spelling written ∧ ascii '\\' :: text = spelling ++ rest := by
  constructor
  · intro hok
    have hwhole := hok
    rw [handleEscapeJson5Bounded, List.tail_cons] at hok
    cases text with
    | nil => cases hok
    | cons e more =>
        simp only at hok
        split_ifs at hok with hlf hcr hcrlf hls hx hzero hoctal hdigit hu hsingle
        · obtain ⟨rfl, rfl⟩ := Prod.mk.inj (Res.ok.inj hok)
          exact ⟨_, .lineFeed, by rw [hlf]; rfl⟩
        · obtain ⟨rfl, rfl⟩ := Prod.mk.inj (Res.ok.inj hok)
          cases more with
          | nil => cases hcrlf
          | cons c more =>
              obtain rfl := Option.some.inj hcrlf
              exact ⟨_, .bothReturns, by rw [hcr]; rfl⟩
        · obtain ⟨rfl, rfl⟩ := Prod.mk.inj (Res.ok.inj hok)
          exact ⟨_, .carriageReturn hcrlf, by rw [hcr]; rfl⟩
        · obtain ⟨rfl, rfl⟩ := Prod.mk.inj (Res.ok.inj hok)
          obtain ⟨text, htext, hpre⟩ := separator_iff.mp hls
          obtain ⟨rest, hrest⟩ := hpre
          refine ⟨_, .separator text htext, ?_⟩
          rw [List.cons_append, ← hrest]
          rcases htext with rfl | rfl
          · rw [(List.cons.inj hrest).2.symm]
            rfl
          · rw [(List.cons.inj hrest).2.symm]
            rfl
        · obtain ⟨hi, lo, h, l, hhi, hlo, rfl, rfl⟩ := handleHexByte_iff.mp hok
          exact ⟨_, .hexByte hi lo h l hhi hlo, by rw [hx]; rfl⟩
        · obtain ⟨rfl, rfl⟩ := Prod.mk.inj (Res.ok.inj hok)
          have hstop := startsWithDigit_eq_false.mp (Bool.not_eq_true _ ▸ hoctal)
          refine ⟨_, .nul fun c hc hdigit => ?_, by rw [hzero]; rfl⟩
          rw [← isDigit_iff, hstop c hc] at hdigit
          cases hdigit
        · subst hu
          obtain ⟨spelling, value, hescape, htext, rfl⟩ := unicode_iff.mp hwhole
          exact ⟨spelling, .unicode spelling value hescape, htext⟩
        · obtain ⟨rfl, rfl⟩ := Prod.mk.inj (Res.ok.inj hok)
          exact ⟨_, .single e _ (singleEscape_iff.mp ⟨hsingle, rfl⟩), rfl⟩
        · obtain ⟨rfl, rfl⟩ := Prod.mk.inj (Res.ok.inj hok)
          refine ⟨[ascii '\\', e], .identity e (fun value hvalue => ?_) ?_ hx hu hlf hcr
            fun text htext hbegins => ?_, rfl⟩
          · exact hsingle (singleEscape_iff.mpr hvalue).1
          · rw [digit_iff]
            exact not_or.mpr ⟨hzero, hdigit⟩
          · exact hls (separator_iff.mpr ⟨text, htext, hbegins⟩)
  · rintro ⟨spelling, hescape, htext⟩
    cases hescape with
    | lineFeed =>
        rw [(List.cons.inj htext).2]
        rfl
    | carriageReturn hrest =>
        rw [(List.cons.inj htext).2]
        show Res.ok ([], if rest.head? = some 0x0A then rest.tail else rest) = _
        rw [if_neg hrest]
    | bothReturns =>
        rw [(List.cons.inj htext).2]
        rfl
    | separator text hseparator =>
        rw [(List.cons.inj htext).2]
        rcases hseparator with rfl | rfl
        · rfl
        · rfl
    | hexByte hi lo h l hhi hlo =>
        rw [(List.cons.inj htext).2]
        exact handleHexByte_iff.mpr ⟨hi, lo, h, l, hhi, hlo, rfl, rfl⟩
    | nul hrest =>
        have hstop : startsWithDigit rest = false := startsWithDigit_eq_false.mpr fun c hc => by
          by_contra hdigit
          exact hrest c hc ((isDigit_iff c).mp (Bool.not_eq_false _ ▸ hdigit))
        rw [(List.cons.inj htext).2]
        show (if startsWithDigit rest = true then _ else Res.ok ([0], rest)) = _
        rw [hstop, if_neg Bool.false_ne_true]
    | unicode _ value hunicode =>
        obtain ⟨digits, rfl⟩ := hunicode.start
        rw [(List.cons.inj htext).2]
        exact unicode_iff.mpr ⟨_, value, hunicode, rfl, rfl⟩
    | single c value hsingle =>
        obtain ⟨hne, rfl⟩ := singleEscape_iff.mpr hsingle
        have hfirst := hsingle.first
        rw [(List.cons.inj htext).2]
        show (if c = 0x0A then _ else _) = _
        rw [if_neg hfirst.1, if_neg hfirst.2.1, if_neg fun h => hfirst.2.2.1 h.1, if_neg hfirst.2.2.2.1,
          if_neg fun h => hfirst.2.2.2.2.1 (digit_iff.mpr (.inl h)),
          if_neg fun h => hfirst.2.2.2.2.1 (digit_iff.mpr (.inr h)), if_neg hfirst.2.2.2.2.2,
          if_pos hne]
        rfl
    | identity c hsingle hdigit hx hu hlf hcr hseparator =>
        rw [digit_iff, not_or] at hdigit
        rw [(List.cons.inj htext).2]
        show (if c = 0x0A then _ else _) = _
        rw [if_neg hlf, if_neg hcr, if_neg, if_neg hx, if_neg hdigit.1, if_neg hdigit.2, if_neg hu,
          if_neg]
        · rfl
        · exact fun hne => hsingle _ (singleEscape_iff.mp ⟨hne, rfl⟩)
        · intro h
          obtain ⟨text, htext, hpre⟩ := separator_iff.mp h
          exact hseparator text htext hpre

/-! ### The strict gate -/

/-- Two checkers that differ in the positions they were fed at only. -/
structure Shifted (ck ck' : Utf8Checker) (pos pos' : Nat) : Prop where
  need : ck.need = ck'.need
  low : ck.c1lo = ck'.c1lo
  high : ck.c1hi = ck'.c1hi
  failCode : ck.failCode = ck'.failCode
  code : ck.code = ck'.code
  lead : ck.need ≠ 0 → ∃ ahead, pos = ck.lead + ahead ∧ pos' = ck'.lead + ahead

section Shifted

variable {ck ck' : Utf8Checker} {pos pos' : Nat} (h : Shifted ck ck' pos pos')
include h

theorem Shifted.failed : ck.failed = ck'.failed := by
  rw [Utf8Checker.failed, Utf8Checker.failed, h.code]

theorem Shifted.next : Shifted ck ck' (pos + 1) (pos' + 1) :=
  ⟨h.need, h.low, h.high, h.failCode, h.code, fun hneed => by
    obtain ⟨ahead, hpos, hpos'⟩ := h.lead hneed
    exact ⟨ahead + 1, by omega, by omega⟩⟩

theorem Shifted.set (code : ErrorCode) (at' at'' : Nat) :
    Shifted (ck.set code at') (ck'.set code at'') (pos + 1) (pos' + 1) := by
  have hnext := h.next
  rw [Utf8Checker.set, Utf8Checker.set, ← h.failed]
  split
  · exact hnext
  · exact ⟨h.need, h.low, h.high, h.failCode, rfl, hnext.lead⟩

theorem Shifted.begin (need : Nat) (low high : UInt8) (failCode : ErrorCode) :
    Shifted (ck.begin need low high failCode pos) (ck'.begin need low high failCode pos') (pos + 1)
      (pos' + 1) :=
  ⟨rfl, rfl, rfl, rfl, h.code, fun _ => ⟨1, rfl, rfl⟩⟩

theorem Shifted.feedLead (b : UInt8) :
    Shifted (ck.feedLead b pos) (ck'.feedLead b pos') (pos + 1) (pos' + 1) := by
  rw [Utf8Checker.feedLead, Utf8Checker.feedLead]
  split_ifs
  · exact h.next
  · exact h.begin _ _ _ _
  · exact h.begin _ _ _ _
  · exact h.begin _ _ _ _
  · exact h.begin _ _ _ _
  · exact h.begin _ _ _ _
  · exact h.begin _ _ _ _
  · exact h.begin _ _ _ _
  · exact h.set _ _ _
  · exact h.set _ _ _

theorem Shifted.feedContinuation (hneed : ck.need ≠ 0) (b : UInt8) :
    Shifted (ck.feedContinuation b pos) (ck'.feedContinuation b pos') (pos + 1) (pos' + 1) := by
  obtain ⟨ahead, hpos, hpos'⟩ := h.lead hneed
  have hsecond : pos = ck.lead + 1 ↔ pos' = ck'.lead + 1 := by omega
  have hless : Shifted { ck with need := ck.need - 1 } { ck' with need := ck'.need - 1 } (pos + 1)
      (pos' + 1) :=
    ⟨congrArg (· - 1) h.need, h.low, h.high, h.failCode, h.code,
      fun _ => ⟨ahead + 1, congrArg (· + 1) hpos, congrArg (· + 1) hpos'⟩⟩
  rw [← h.low, ← h.high, ← h.failCode] at hless
  rw [Utf8Checker.feedContinuation, Utf8Checker.feedContinuation, ← h.low, ← h.high, ← h.failCode]
  simp only [hsecond]
  split_ifs
  · exact h.next
  · exact h.set _ _ _
  · exact h.set _ _ _
  · exact hless
  · exact h.set _ _ _
  · exact hless

theorem Shifted.feed (b : UInt8) :
    Shifted (ck.feed b pos) (ck'.feed b pos') (pos + 1) (pos' + 1) := by
  rw [Utf8Checker.feed, Utf8Checker.feed, ← h.failed, ← h.need]
  split_ifs with hfailed hneed
  · exact h.next
  · exact h.feedLead b
  · exact h.feedContinuation hneed b

theorem Shifted.finish : ck.finish.failed = ck'.finish.failed := by
  rw [Utf8Checker.finish, Utf8Checker.finish, ← h.failed, ← h.need]
  split
  · exact (h.set _ _ _).failed
  · exact h.failed

/-- Between sequences the positions say nothing. -/
theorem Shifted.move (hneed : ck.need = 0) (pos pos' : Nat) : Shifted ck ck' pos pos' :=
  ⟨h.need, h.low, h.high, h.failCode, h.code, fun hne => absurd hneed hne⟩

end Shifted

/-- A backslash within a sequence is a violation. -/
theorem need_backslash {ck : Utf8Checker} {pos : Nat} (h : (ck.feed (ascii '\\') pos).failed = false) :
    (ck.feed (ascii '\\') pos).need = 0 := by
  have hset : ∀ pos', (ck.set .utf8InvalidContinuation pos').failed = true := by
    intro pos'
    rw [Utf8Checker.set]
    split
    · assumption
    · rfl
  rw [Utf8Checker.feed] at h ⊢
  split_ifs at h ⊢ with hfailed hneed
  · rw [hfailed] at h
    cases h
  · rw [Utf8Checker.feedLead, if_pos (by decide)]
    exact hneed
  · exfalso
    rw [Utf8Checker.feedContinuation, if_neg (by decide)] at h
    split at h
    · rw [if_pos (by decide), hset] at h
      cases h
    · rw [if_pos (by decide), hset] at h
      cases h

/-- What is left of the gate for the rest of a content. -/
def Passed (cfg : Config) (ck : Utf8Checker) (marks : Bytes) (pos : Nat) : Prop :=
  cfg.strictUtf8 = true → (ck.feedRange marks pos).finish.failed = false

theorem passed_cons {ck : Utf8Checker} {c : UInt8} {marks : Bytes} {pos : Nat}
    (hstrict : cfg.strictUtf8 = true) : Passed cfg ck (c :: marks) pos ↔
      (ck.feed c pos).failed = false ∧ Passed cfg (ck.feed c pos) marks (pos + 1) := by
  constructor
  · intro h
    have hrange : (ck.feedRange (c :: marks) pos).failed = false := by
      by_contra hfailed
      have hfinish := h hstrict
      rw [finish_failed (Bool.not_eq_false _ ▸ hfailed)] at hfinish
      exact hfailed hfinish
    obtain ⟨hfeed, heq⟩ := feedRange_cons hrange
    exact ⟨hfeed, fun _ => heq ▸ h hstrict⟩
  · rintro ⟨hfeed, h⟩ _
    have hck : ck.failed = false := by
      by_contra hfailed
      rw [Utf8Checker.feed, if_pos (Bool.not_eq_false _ ▸ hfailed)] at hfeed
      exact hfailed hfeed
    rw [Utf8Checker.feedRange, if_neg (by rw [hck]; exact Bool.false_ne_true)]
    exact h hstrict

/-- A byte of a content. Behind an escape the positions start afresh. -/
theorem passed_of_fed {ck ck' : Utf8Checker} {c : UInt8} {marks : Bytes} {pos pos' next : Nat}
    (hshift : Shifted ck ck' pos pos')
    (hok : (if cfg.strictUtf8 then ck.feed c pos else ck).failed = false)
    (hnext : next = pos + 1 ∨ c = ascii '\\')
    (hrest : ∀ ck₁ pos₁, Shifted (if cfg.strictUtf8 then ck.feed c pos else ck) ck₁ next pos₁ →
      Passed cfg ck₁ marks pos₁) : Passed cfg ck' (c :: marks) pos' := by
  by_cases hstrict : cfg.strictUtf8 = true
  · rw [if_pos hstrict] at hok
    simp only [if_pos hstrict] at hrest
    have hfed := hshift.feed c
    rw [passed_cons hstrict, ← hfed.failed]
    refine ⟨hok, hrest _ _ ?_⟩
    rcases hnext with rfl | rfl
    · exact hfed
    · exact hfed.move (need_backslash hok) _ _
  · exact fun h => absurd h hstrict

/-- What the gate has for the rest of a content, from its first byte on. -/
theorem fed_of_passed {ck ck' : Utf8Checker} {c : UInt8} {marks : Bytes} {pos pos' : Nat}
    (next : Nat) (hck : ck.failed = false) (hshift : cfg.strictUtf8 = true → Shifted ck ck' pos pos')
    (hnext : next = pos + 1 ∨ c = ascii '\\') (h : Passed cfg ck' (c :: marks) pos') :
    (if cfg.strictUtf8 then ck.feed c pos else ck).failed = false ∧ ∃ ck₁,
      (cfg.strictUtf8 = true →
        Shifted (if cfg.strictUtf8 then ck.feed c pos else ck) ck₁ next (pos' + 1)) ∧
      Passed cfg ck₁ marks (pos' + 1) := by
  by_cases hstrict : cfg.strictUtf8 = true
  · have hfed := (hshift hstrict).feed c
    rw [passed_cons hstrict, ← hfed.failed] at h
    simp only [if_pos hstrict]
    refine ⟨h.1, _, fun _ => ?_, h.2⟩
    rcases hnext with rfl | rfl
    · exact hfed
    · exact hfed.move (need_backslash h.1) _ _
  · simp only [if_neg hstrict]
    exact ⟨hck, ck, fun h => absurd h hstrict, fun h => absurd h hstrict⟩

/-! ### Contents -/

/-- What closes a string is ASCII. -/
theorem separator_closed {text content more : Bytes} {c quote : UInt8} (htext : Separator text)
    (hquote : quote ≤ 0x7F) :
    text <+: c :: (content ++ quote :: more) ↔ text <+: c :: (content ++ [quote]) := by
  have hlonger : c :: (content ++ [quote]) <+: c :: (content ++ quote :: more) :=
    ⟨more, by simp⟩
  refine ⟨fun h => ?_, fun h => h.trans hlonger⟩
  cases content with
  | nil =>
      have hsecond : ∀ last : UInt8, ¬[0xE2, 0x80, last] <+: c :: ([] ++ quote :: more) := by
        intro last hpre
        have heq := (List.cons_prefix_cons.mp (List.cons_prefix_cons.mp hpre).2).1
        rw [← heq] at hquote
        exact absurd hquote (by decide)
      rcases htext with rfl | rfl
      · exact absurd h (hsecond 0xA8)
      · exact absurd h (hsecond 0xA9)
  | cons d content =>
      refine List.prefix_of_prefix_length_le h hlonger ?_
      rcases htext with rfl | rfl
      all_goals simp only [List.length_cons, List.length_append]; omega

/-- What an escape looks at is the next byte, and whether a separator follows. -/
theorem escape_congr {rest rest' spelling written : Bytes} (hhead : rest.head? = rest'.head?)
    (hseparator : ∀ c text, Separator text → text <+: c :: rest' → text <+: c :: rest)
    (h : Escape rest spelling written) : Escape rest' spelling written := by
  cases h with
  | lineFeed => exact .lineFeed
  | carriageReturn h => exact .carriageReturn (hhead ▸ h)
  | bothReturns => exact .bothReturns
  | separator text h => exact .separator text h
  | hexByte hi lo h l hhi hlo => exact .hexByte hi lo h l hhi hlo
  | nul h => exact .nul (hhead ▸ h)
  | unicode _ value h => exact .unicode _ value h
  | single c value h => exact .single c value h
  | identity c hsingle hdigit hx hu hlf hcr h =>
      exact .identity c hsingle hdigit hx hu hlf hcr fun text htext hpre =>
        h text htext (hseparator c text htext hpre)

/-- An escape does not look behind the closing quote. -/
theorem escape_closed {content more spelling written : Bytes} {quote : UInt8} (hquote : quote ≤ 0x7F) :
    Escape (content ++ quote :: more) spelling written ↔
      Escape (content ++ [quote]) spelling written := by
  have hhead : (content ++ quote :: more).head? = (content ++ [quote]).head? := by
    cases content <;> rfl
  exact ⟨escape_congr hhead fun _ _ htext => (separator_closed htext hquote).mpr,
    escape_congr hhead.symm fun _ _ htext => (separator_closed htext hquote).mp⟩

theorem Escape.start {rest spelling written : Bytes} (h : Escape rest spelling written) :
    ∃ more, spelling = ascii '\\' :: more := by
  cases h with
  | unicode _ value h =>
      obtain ⟨digits, rfl⟩ := h.start
      exact ⟨_, rfl⟩
  | _ => exact ⟨_, rfl⟩

theorem yields_decodeEscapeJson5 (hescape : r.here = ascii '\\') :
    Yields (decodeEscape (body 0) handleEscapeJson5Bounded r) fun written r' =>
      ∃ spelling, Escape r'.rest spelling written ∧ r.rest = spelling ++ r'.rest := by
  obtain ⟨text, htext⟩ := here_cons (by decide) hescape
  rw [decodeEscape, Prog.bind_get, body_zero]
  cases hdecode : handleEscapeJson5Bounded r.rest with
  | stuck => exact yields_stuck
  | error failure =>
      obtain ⟨code, anchor⟩ := failure
      cases anchor with
      | none => exact yields_failContext _ _
      | some anchor => exact yields_fail _ _
  | ok result =>
      obtain ⟨written, rest⟩ := result
      rw [htext] at hdecode
      obtain ⟨spelling, hspelling, heq⟩ := handleEscape_iff.mp hdecode
      simp only
      rw [advance, Prog.bind_modify]
      have hdrop : r.rest.drop (r.rest.length - rest.length) = rest := by
        rw [htext, heq, List.length_append, Nat.add_sub_cancel, List.drop_left]
      refine yields_ok ⟨spelling, ?_, ?_⟩
      · rw [hdrop]
        exact hspelling
      · rw [hdrop, htext, heq]

theorem decodeEscapeJson5_append {spelling written rest : Bytes} (h : Escape rest spelling written)
    (failure : Option Failure) :
    decodeEscape (body 0) handleEscapeJson5Bounded ⟨spelling ++ rest, failure⟩ =
      .ok (written, ⟨rest, failure⟩) := by
  obtain ⟨more, hmore⟩ := h.start
  have hdecode : handleEscapeJson5Bounded (spelling ++ rest) = .ok (written, rest) := by
    have hread := handleEscape_iff.mpr ⟨spelling, h, by rw [hmore]; rfl⟩
    rw [hmore]
    exact hread
  rw [decodeEscape, Prog.bind_get, body_zero]
  simp only [hdecode]
  rw [advance, Prog.bind_modify, List.length_append, Nat.add_sub_cancel, List.drop_left]
  rfl

/-- The two quotes. -/
def Quote (quote : UInt8) : Prop := quote = ascii '"' ∨ quote = ascii '\''

theorem Quote.bounds {quote : UInt8} (h : Quote quote) :
    quote ≤ 0x7F ∧ quote ≠ ascii '\\' ∧ quote ≠ 0 := by
  rcases h with rfl | rfl <;> decide

theorem isReturn_iff {c : UInt8} : isJson5LineTerminatorAscii c = false ↔ c ≠ 0x0A ∧ c ≠ 0x0D := by
  rw [isJson5LineTerminatorAscii, Bool.or_eq_false_iff, beq_eq_false_iff_ne, beq_eq_false_iff_ne]

/-- A check that ends lets the reading go on. -/
theorem yields_gate {α : Type} {next : Unit → Prog Reading α} {done : α → Reading → Prop} {left : Nat}
    {ck : Utf8Checker} (hnext : ck.failed = false → Yields (next () r) done) :
    Yields ((checkUtf8 left ck >>= next) r) done := by
  cases hfailed : ck.failed with
  | true =>
      rw [checkUtf8, if_pos hfailed]
      exact yields_error _
  | false =>
      rw [Prog.bind_of_ok (checkUtf8_ok hfailed r)]
      exact hnext hfailed

theorem exists_of_not_atEnd (h : ¬r.atEnd 0 = true) : ∃ c rest, r.rest = c :: rest := by
  cases hrest : r.rest with
  | nil => exact absurd (by rw [atEnd, hrest]; rfl) h
  | cons c rest => exact ⟨c, rest, rfl⟩

theorem yields_stringLoopJson5 {quote : UInt8} (hquote : Quote quote) {left fuel : Nat}
    {decoded : Bytes} {ck : Utf8Checker} (hleft : r.rest.length ≤ left) :
    Yields (stringLoopJson5 cfg 0 quote left fuel decoded ck r) fun value r' =>
      ∃ content more marks, Characters quote content more marks ∧ value = decoded ++ more ∧
        r.rest = content ++ quote :: r'.rest ∧
        ∀ ck' pos', Shifted ck ck' (left - r.rest.length) pos' → Passed cfg ck' marks pos' := by
  induction fuel generalizing decoded ck r with
  | zero => exact yields_stuck
  | succ fuel ih =>
      rw [stringLoopJson5, Prog.bind_get]
      split
      · exact yields_failHere _
      rename_i hend
      obtain ⟨c, rest, hrest⟩ := exists_of_not_atEnd hend
      have hhere : r.here = c := by rw [here, hrest]; rfl
      have hlength : r.rest.length = rest.length + 1 := by rw [hrest]; rfl
      refine yields_peek ?_
      rw [hhere]
      split
      · rename_i hclose
        refine yields_gate fun hok => yields_advance hrest fun r' hr' => yields_ok ?_
        refine ⟨[], [], [], .nil, (List.append_nil _).symm, by rw [hrest, hr', hclose]; rfl, ?_⟩
        intro ck' pos' hshift hstrict
        rw [if_pos hstrict] at hok
        rw [Utf8Checker.feedRange, ← hshift.finish]
        exact hok
      rename_i hopen
      refine yields_gate fun hok => ?_
      split
      · rename_i hescape
        refine yields_bind (yields_decodeEscapeJson5 (hhere.trans hescape)) ?_
        rintro written r₁ ⟨spelling, hspelling, hr⟩
        have hle : r₁.rest.length ≤ left := by
          rw [hr, List.length_append] at hleft
          omega
        refine yields_mono (ih hle) ?_
        rintro value r' ⟨content, more, marks, hcontent, rfl, hr₁, hpassed⟩
        rw [hr₁, escape_closed hquote.bounds.1] at hspelling
        refine ⟨spelling ++ content, written ++ more, ascii '\\' :: marks,
          .escape _ _ _ _ _ hspelling hcontent, List.append_assoc _ _ _, ?_, ?_⟩
        · rw [hr, hr₁, List.append_assoc]
        · intro ck' pos' hshift
          exact hescape ▸ passed_of_fed hshift hok (.inr hescape) hpassed
      rename_i hescape
      split
      · exact yields_failHere _
      · rename_i hreturn
        refine yields_advance hrest fun r₁ hr₁ => yields_mono (ih (by rw [hr₁]; omega)) ?_
        rintro value r' ⟨content, more, marks, hcontent, rfl, hr', hpassed⟩
        obtain ⟨hlf, hcr⟩ := isReturn_iff.mp (Bool.not_eq_true _ ▸ hreturn)
        refine ⟨c :: content, c :: more, c :: marks,
          .plain c content more marks hopen hescape hlf hcr hcontent, by simp, ?_, ?_⟩
        · rw [hrest, ← hr₁, hr', List.cons_append]
        · intro ck' pos' hshift
          refine passed_of_fed hshift hok (.inl ?_) hpassed
          rw [hr₁]
          omega

theorem stringLoopJson5_append {quote : UInt8} (hquote : Quote quote) {content value marks : Bytes}
    (h : Characters quote content value marks) {left fuel pos' : Nat} {decoded : Bytes}
    {ck ck' : Utf8Checker} (hfuel : content.length < fuel) {rest : Bytes}
    (hleft : (content ++ quote :: rest).length ≤ left) (hck : ck.failed = false)
    (hshift : cfg.strictUtf8 = true →
      Shifted ck ck' (left - (content ++ quote :: rest).length) pos')
    (hpassed : Passed cfg ck' marks pos') (failure : Option Failure) :
    stringLoopJson5 cfg 0 quote left fuel decoded ck ⟨content ++ quote :: rest, failure⟩ =
      .ok (decoded ++ value, ⟨rest, failure⟩) := by
  have hend : ∀ c more, ¬atEnd 0 ⟨c :: more, failure⟩ = true := by simp [atEnd]
  induction h generalizing fuel decoded ck ck' pos' with
  | nil =>
      obtain ⟨fuel, rfl⟩ : ∃ f, fuel = f + 1 := ⟨fuel - 1, by omega⟩
      have hok : (if cfg.strictUtf8 then ck.finish else ck).failed = false := by
        by_cases hstrict : cfg.strictUtf8 = true
        · rw [if_pos hstrict, (hshift hstrict).finish]
          exact hpassed hstrict
        · rw [if_neg hstrict]
          exact hck
      rw [stringLoopJson5, List.nil_append, Prog.bind_get, if_neg (hend _ _), peek_cons, if_pos rfl,
        Prog.bind_of_ok (checkUtf8_ok hok _), Prog.bind_of_ok (advance_cons _ _ _), List.append_nil]
      rfl
  | plain c content value marks hopen hescape hlf hcr hcontent ih =>
      obtain ⟨fuel, rfl⟩ : ∃ f, fuel = f + 1 := ⟨fuel - 1, by omega⟩
      simp only [List.cons_append, List.length_cons] at hfuel hleft hshift
      obtain ⟨hok, ck₁, hshift₁, hpassed₁⟩ := fed_of_passed
        (left - (content ++ quote :: rest).length) hck hshift (.inl (by omega)) hpassed
      rw [stringLoopJson5, List.cons_append, Prog.bind_get, if_neg (hend _ _), peek_cons,
        if_neg hopen]
      simp only [List.length_cons]
      rw [Prog.bind_of_ok (checkUtf8_ok hok _), if_neg hescape,
        if_neg (by rw [isReturn_iff.mpr ⟨hlf, hcr⟩]; exact Bool.false_ne_true),
        Prog.bind_of_ok (advance_cons _ _ _), ih (by omega) (by omega) hok hshift₁ hpassed₁,
        List.append_assoc]
      rfl
  | escape spelling written content value marks hspelling hcontent ih =>
      obtain ⟨fuel, rfl⟩ : ∃ f, fuel = f + 1 := ⟨fuel - 1, by omega⟩
      have hdecode := @decodeEscapeJson5_append _ _ (content ++ quote :: rest)
        ((escape_closed hquote.bounds.1).mpr hspelling) failure
      obtain ⟨more, rfl⟩ := hspelling.start
      rw [List.append_assoc, List.length_append] at hleft hshift
      rw [List.length_append] at hfuel
      simp only [List.length_cons] at hfuel hleft hshift
      obtain ⟨hok, ck₁, hshift₁, hpassed₁⟩ := fed_of_passed
        (left - (content ++ quote :: rest).length) hck hshift (.inr rfl) hpassed
      rw [stringLoopJson5, List.append_assoc, List.cons_append, Prog.bind_get, if_neg (hend _ _),
        peek_cons, if_neg (Ne.symm hquote.bounds.2.1)]
      have hlength : (more ++ (content ++ quote :: rest)).length + 1 =
          more.length + 1 + (content ++ quote :: rest).length := by
        rw [List.length_append]
        omega
      simp only [List.length_cons, hlength]
      rw [List.cons_append] at hdecode
      rw [Prog.bind_of_ok (checkUtf8_ok hok _), if_pos trivial, Prog.bind_of_ok hdecode,
        ih (by omega) (by omega) hok hshift₁ hpassed₁, List.append_assoc]

/-- A string token, from its opening quote on. -/
theorem yields_readStringJson5 {quote : UInt8} (hquote : Quote quote) (hhere : r.here = quote) :
    Yields (readStringJson5 cfg 0 quote r) fun value r' =>
      ∃ content, StringToken cfg quote content value ∧
        r.rest = quote :: (content ++ quote :: r'.rest) := by
  obtain ⟨rest, hrest⟩ := here_cons hquote.bounds.2.2 hhere
  rw [readStringJson5]
  refine yields_advance hrest fun r₁ hr₁ => ?_
  rw [Prog.bind_get]
  refine yields_mono (yields_stringLoopJson5 hquote (Nat.le_refl _)) ?_
  rintro value r' ⟨content, more, marks, hcontent, rfl, hr', hpassed⟩
  refine ⟨content, ⟨hquote, marks, hcontent, ?_⟩, by rw [hrest, ← hr₁, hr']⟩
  exact hpassed {} 0 ⟨rfl, rfl, rfl, rfl, rfl, fun hne => absurd rfl hne⟩

theorem readStringJson5_append {quote : UInt8} {content value : Bytes}
    (h : StringToken cfg quote content value) (rest : Bytes) (failure : Option Failure) :
    readStringJson5 cfg 0 quote ⟨quote :: (content ++ quote :: rest), failure⟩ =
      .ok (value, ⟨rest, failure⟩) := by
  obtain ⟨hquote, marks, hcontent, hpasses⟩ := h
  rw [readStringJson5, Prog.bind_of_ok (advance_cons _ _ _), Prog.bind_get]
  refine stringLoopJson5_append hquote hcontent ?_ (Nat.le_refl _) rfl
    (fun _ => ⟨rfl, rfl, rfl, rfl, rfl, fun hne => absurd rfl hne⟩) hpasses failure
  rw [List.length_append]
  omega

end PjhJson.Json5
