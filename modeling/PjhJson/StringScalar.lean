import PjhJson.GrammarComplete
import PjhJson.NumberValue
import PjhJson.ReadingTotal
import PjhJson.RefineString

/-! `parse_string` against a decoder that reads the literal a byte at a time and collects what it
decodes apart from the source: the in-place decoder with its batch scan does the same, except where
the input ends behind an escape. -/

namespace PjhJson

open Grammar Scanner

/-- The naive decoder, from behind the opening quote on: the decoded bytes and the text behind the
closing quote, or the code of the first error and the text from the offending position on. -/
def decodeLiteral : Nat → Bytes → Bytes → Res EscapeError (Bytes × Bytes)
  | 0, _, _ => .stuck
  | _ + 1, [], _ => .error (.unterminatedString, some [])
  | fuel + 1, c :: text, decoded =>
    if c = ascii '"' then .ok (decoded, text)
    else if c = ascii '\\' then
      match Reading.readEscape (c :: text) with
      | .ok (written, rest) => decodeLiteral fuel rest (decoded ++ written)
      | .error failure => .error failure
      | .stuck => .stuck
    else if c < 0x20 then .error (.unescapedControl, some (c :: text))
    else decodeLiteral fuel text (decoded ++ [c])

/-- The input ends inside the literal, with no error before its end, and behind an escape. -/
def EndsBehindEscape (text : Bytes) : Prop := (∃ value, Rfc.Characters text value) ∧ ascii '\\' ∈ text

/-! ### The errors of an escape -/

/-- An escape is never unterminated, and the offending position lies in the text. -/
def InText (text : Bytes) (failure : EscapeError) : Prop :=
  failure.1 ≠ .unterminatedString ∧ ∀ anchor, failure.2 = some anchor → anchor.length ≤ text.length

theorem InText.mono {text more : Bytes} {failure : EscapeError} (h : InText text failure)
    (hle : text.length ≤ more.length) : InText more failure :=
  ⟨h.1, fun anchor hanchor => (h.2 anchor hanchor).trans hle⟩

theorem inText_at {text anchor : Bytes} {code : ErrorCode} (hcode : code ≠ .unterminatedString)
    (hle : anchor.length ≤ text.length) : InText text (code, some anchor) := by
  refine ⟨hcode, fun anchor' heq => ?_⟩
  cases heq
  exact hle

theorem inText_readHexDigits {n code : Nat} {text : Bytes} {failure : EscapeError}
    (h : Reading.readHexDigits n code text = .error failure) : InText text failure := by
  induction n generalizing code text with
  | zero => cases h
  | succ n ih =>
      cases text with
      | nil =>
          cases h
          exact inText_at (by decide) (Nat.le_refl _)
      | cons c text =>
          rw [Reading.readHexDigits] at h
          split at h
          · cases h
            exact inText_at (by decide) (Nat.le_refl _)
          · exact (ih h).mono (Nat.le_succ _)

theorem inText_readEncoded {cp : Nat} {text : Bytes} {failure : EscapeError}
    (h : Reading.readEncoded cp text = .error failure) : InText text failure := by
  rw [Reading.readEncoded] at h
  split at h
  · cases h
  · cases h
    exact ⟨by decide, fun anchor heq => by cases heq⟩

theorem inText_readLowSurrogate {high : Nat} {text : Bytes} {failure : EscapeError}
    (h : Reading.readLowSurrogate high text = .error failure) : InText text failure := by
  rw [Reading.readLowSurrogate, Res.bind_eq_error] at h
  rcases h with h | ⟨⟨low, rest⟩, hhex, h⟩
  · exact inText_readHexDigits h
  · have hlength := length_readHexDigits hhex
    dsimp only at h
    split at h
    · exact (inText_readEncoded h).mono (by omega)
    · cases h
      exact inText_at (by decide) (by omega)

theorem inText_readCodeUnit {cp : Nat} {text : Bytes} {failure : EscapeError}
    (h : Reading.readCodeUnit cp text = .error failure) : InText text failure := by
  rw [Reading.readCodeUnit] at h
  split at h
  · split at h
    · exact (inText_readLowSurrogate h).mono (by rw [List.length_drop]; omega)
    · cases h
      exact inText_at (by decide) (Nat.le_refl _)
  · split at h
    · cases h
      exact inText_at (by decide) (Nat.le_refl _)
    · exact inText_readEncoded h

theorem inText_readEscape {text : Bytes} {failure : EscapeError}
    (h : Reading.readEscape text = .error failure) : InText text failure := by
  rw [Reading.readEscape] at h
  split at h
  · cases h
    exact inText_at (by decide) (Nat.zero_le _)
  · rename_i c rest htail
    have hlength := congrArg List.length htail
    rw [List.length_tail, List.length_cons] at hlength
    split_ifs at h with hshort hu
    · cases h
      exact inText_at (by decide) (by rw [List.length_cons]; omega)
    · rw [Res.bind_eq_error] at h
      rcases h with h | ⟨⟨cp, rest'⟩, hhex, h⟩
      · exact (inText_readHexDigits h).mono (by omega)
      · have hread := length_readHexDigits hhex
        exact (inText_readCodeUnit h).mono (by omega)

/-! ### Where the naive decoder finds no closing quote -/

/-- Characters are decoded in front of any text. -/
theorem decodeLiteral_append {content value : Bytes} (h : Rfc.Characters content value) (text : Bytes)
    {fuel : Nat} (hfuel : content.length + text.length < fuel) (decoded : Bytes) :
    ∃ fuel', text.length < fuel' ∧
      decodeLiteral fuel (content ++ text) decoded = decodeLiteral fuel' text (decoded ++ value) := by
  induction h generalizing fuel decoded with
  | nil => exact ⟨fuel, by simpa using hfuel, by rw [List.nil_append, List.append_nil]⟩
  | cons spelling value content values hcharacter _ ih =>
      obtain ⟨fuel, rfl⟩ : ∃ f, fuel = f + 1 := ⟨fuel - 1, by omega⟩
      rw [List.length_append] at hfuel
      have hpos := hcharacter.length_pos
      obtain ⟨fuel', hlt, hrest⟩ := @ih fuel (by omega) (decoded ++ value)
      rw [List.append_assoc] at hrest
      refine ⟨fuel', hlt, ?_⟩
      rcases Reading.character_cases hcharacter with ⟨c, rfl, rfl, hstop⟩ | ⟨more, rfl⟩
      · simp only [Reading.isStringStop, Bool.or_eq_false_iff, beq_eq_false_iff_ne,
          decide_eq_false_iff_not] at hstop
        rw [List.append_assoc, List.singleton_append, decodeLiteral, if_neg hstop.1.1,
          if_neg hstop.1.2, if_neg hstop.2]
        exact hrest
      · have hread := readEscape_iff.mpr
          ⟨more, hcharacter, (rfl : more ++ (content ++ text) = more ++ (content ++ text))⟩
        rw [List.append_assoc, List.cons_append, decodeLiteral, if_neg (by decide), if_pos rfl, hread]
        exact hrest

/-- A text of characters only runs out. -/
theorem decodeLiteral_characters {text value : Bytes} (h : Rfc.Characters text value) {fuel : Nat}
    (hfuel : text.length < fuel) (decoded : Bytes) :
    decodeLiteral fuel text decoded = .error (.unterminatedString, some []) := by
  obtain ⟨fuel', hlt, hrest⟩ := decodeLiteral_append h [] (by simpa using hfuel) decoded
  rw [List.append_nil] at hrest
  rw [hrest]
  cases fuel' with
  | zero => cases hlt
  | succ fuel' => rfl

/-- A closing quote ends the literal. -/
theorem decodeLiteral_quote {content value : Bytes} (h : Rfc.Characters content value) (rest : Bytes) :
    decodeLiteral ((content ++ ascii '"' :: rest).length + 1) (content ++ ascii '"' :: rest) [] =
      .ok (value, rest) := by
  obtain ⟨fuel', hlt, hrest⟩ := decodeLiteral_append h (ascii '"' :: rest)
    (show _ < (content ++ ascii '"' :: rest).length + 1 by rw [List.length_append]; omega) []
  rw [hrest]
  cases fuel' with
  | zero => cases hlt
  | succ fuel' => rfl

/-- Conversely, the decoder runs out of text only behind characters. -/
theorem characters_of_decodeLiteral {fuel : Nat} {text decoded : Bytes} {anchor : Option Bytes}
    (h : decodeLiteral fuel text decoded = .error (.unterminatedString, anchor)) :
    ∃ value, Rfc.Characters text value := by
  induction fuel generalizing text decoded with
  | zero => cases h
  | succ fuel ih =>
      cases text with
      | nil => exact ⟨[], .nil⟩
      | cons c text =>
          rw [decodeLiteral] at h
          split_ifs at h with hquote hbackslash hcontrol
          · subst hbackslash
            cases hread : Reading.readEscape (ascii '\\' :: text) with
            | stuck => rw [hread] at h; cases h
            | error failure =>
                rw [hread] at h
                cases h
                exact absurd rfl (inText_readEscape hread).1
            | ok result =>
                obtain ⟨written, rest⟩ := result
                rw [hread] at h
                obtain ⟨spelling, hcharacter, rfl⟩ := readEscape_iff.mp hread
                obtain ⟨value, hvalue⟩ := ih h
                exact ⟨written ++ value, .cons _ _ _ _ hcharacter hvalue⟩
          · cases h
          · obtain ⟨value, hvalue⟩ := ih h
            exact ⟨[c] ++ value, .cons [c] [c] text value
              (.unescaped c (UInt8.not_lt.mp hcontrol) hquote hbackslash) hvalue⟩

theorem decodeLiteral_ne_stuck {fuel : Nat} {text : Bytes} (hfuel : text.length < fuel)
    (decoded : Bytes) : decodeLiteral fuel text decoded ≠ .stuck := by
  induction fuel generalizing text decoded with
  | zero => omega
  | succ fuel ih =>
      cases text with
      | nil => simp [decodeLiteral]
      | cons c text =>
          rw [List.length_cons] at hfuel
          rw [decodeLiteral]
          split_ifs
          · simp
          · cases hread : Reading.readEscape (c :: text) with
            | stuck => exact absurd hread (readEscape_ne_stuck _)
            | error failure => simp
            | ok result =>
                have hlength := (length_readEscape hread).2
                rw [List.length_cons] at hlength
                exact ih (by omega) _
          · simp
          · exact ih (by omega) _

/-- The plain bytes in front are collected one by one. -/
theorem decodeLiteral_plain {plain : Bytes} (hplain : ∀ c ∈ plain, Reading.isStringStop c = false)
    (fuel : Nat) (text decoded : Bytes) : decodeLiteral (plain.length + fuel) (plain ++ text) decoded =
      decodeLiteral fuel text (decoded ++ plain) := by
  induction plain generalizing decoded with
  | nil => simp
  | cons c plain ih =>
      rw [List.forall_mem_cons] at hplain
      have hstop := hplain.1
      simp only [Reading.isStringStop, Bool.or_eq_false_iff, beq_eq_false_iff_ne,
        decide_eq_false_iff_not] at hstop
      rw [List.length_cons, Nat.add_right_comm, List.cons_append, decodeLiteral, if_neg hstop.1.1,
        if_neg hstop.1.2, if_neg hstop.2, ih hplain.2, List.append_assoc, List.singleton_append]

/-! ### The two phases -/

namespace Reading

variable {cfg : Config}

/-- The failure that the naive decoder reports. -/
def failureOf (failure : EscapeError) : Failure where
  code := failure.1
  left := failure.2.map List.length

/-- Behind an escape, the end of the input is taken for a control byte. -/
def failureBehindEscape (failure : EscapeError) : Failure :=
  if failure.1 = .unterminatedString then { code := .unescapedControl, left := some 0 }
  else failureOf failure

/-- The reading ends as the naive decoder does, its failures reported by `report`. -/
def EndsAs (report : EscapeError → Failure) (run : Res Reading (Bytes × Reading)) :
    Res EscapeError (Bytes × Bytes) → Prop
  | .ok (value, rest) => run = .ok (value, ⟨rest, none⟩)
  | .error failure => ∃ r, run = .error r ∧ r.failure = some (report failure)
  | .stuck => False

theorem endsAs_decodeLoop (hutf8 : cfg.strictUtf8 = false) {fuel fuel' : Nat} {text : Bytes}
    (hfuel : text.length < fuel) (hfuel' : text.length < fuel') (left : Nat) (decoded : Bytes) :
    EndsAs failureBehindEscape (decodeLoop cfg left fuel decoded {} ⟨text, none⟩)
      (decodeLiteral fuel' text decoded) := by
  have hck : ∀ {α : Type} (next : Unit → Prog Reading α) (r : Reading),
      (checkUtf8 left {} >>= next) r = next () r := fun _ _ => rfl
  induction fuel generalizing fuel' text decoded with
  | zero => omega
  | succ fuel ih =>
      obtain ⟨fuel', rfl⟩ : ∃ f, fuel' = f + 1 := ⟨fuel' - 1, by omega⟩
      rw [decodeLoop, hutf8]
      simp only [Bool.false_eq_true, if_false]
      cases text with
      | nil => exact ⟨_, rfl, rfl⟩
      | cons c text =>
          rw [List.length_cons] at hfuel hfuel'
          rw [decodeLiteral, peek_cons]
          by_cases hquote : c = ascii '"'
          · rw [if_pos hquote, if_pos hquote]
            rfl
          rw [if_neg hquote, if_neg hquote, Prog.bind_get, hck]
          by_cases hbackslash : c = ascii '\\'
          · rw [if_pos hbackslash, if_pos hbackslash, Prog.bind_apply, decodeEscape, Prog.bind_get]
            dsimp only
            cases hread : readEscape (c :: text) with
            | stuck => exact absurd hread (readEscape_ne_stuck _)
            | error failure =>
                obtain ⟨code, anchor⟩ := failure
                obtain ⟨hcode, hanchor⟩ := inText_readEscape hread
                have hreport : failureBehindEscape (code, anchor) = failureOf (code, anchor) :=
                  if_neg hcode
                cases anchor with
                | none => exact ⟨_, rfl, by rw [hreport]; rfl⟩
                | some anchor =>
                    refine ⟨_, rfl, ?_⟩
                    have hle := hanchor anchor rfl
                    rw [hreport, failureOf]
                    change some (Failure.mk code (some ((c :: text).length -
                      ((c :: text).length - anchor.length))) []) = _
                    rw [Nat.sub_sub_self hle]
                    rfl
            | ok result =>
                obtain ⟨written, rest⟩ := result
                obtain ⟨-, hlength⟩ := length_readEscape hread
                obtain ⟨spelling, -, hsplit⟩ := readEscape_iff.mp (hbackslash ▸ hread)
                have hdrop : (c :: text).drop ((c :: text).length - rest.length) = rest := by
                  rw [hsplit, ← List.cons_append, List.length_append, Nat.add_sub_cancel,
                    List.drop_left]
                rw [List.length_cons] at hlength
                have hnext := @ih fuel' rest (by omega) (by omega) (decoded ++ written)
                dsimp only
                rw [advance, Prog.bind_modify]
                dsimp only
                rw [hdrop]
                exact hnext
          rw [if_neg hbackslash, if_neg hbackslash]
          by_cases hcontrol : c < 0x20
          · rw [if_pos hcontrol, if_pos hcontrol]
            exact ⟨_, rfl, rfl⟩
          · rw [if_neg hcontrol, if_neg hcontrol, Prog.bind_of_ok (advance_cons _ _ _)]
            exact ih (by omega) (by omega) _

/-- The whole body: phase 1 up to the first byte that is not plain, then phase 2. -/
theorem endsAs_readStringBody (hutf8 : cfg.strictUtf8 = false) (text : Bytes) :
    EndsAs (if ascii '\\' ∈ text then failureBehindEscape else failureOf)
      (readStringBody cfg 0 ⟨text, none⟩) (decodeLiteral (text.length + 1) text []) := by
  obtain ⟨plain, rest, rfl, hplain, hrest⟩ := exists_run (fun c => !isStringStop c) text
  have hplain' : ∀ c ∈ plain, isStringStop c = false := fun c hc => by simpa using hplain c hc
  have hbackslash : ∀ c ∈ plain, c ≠ ascii '\\' := by
    intro c hc heq
    have hstop := hplain' c hc
    rw [heq] at hstop
    exact absurd hstop (by decide)
  have hnaive : decodeLiteral ((plain ++ rest).length + 1) (plain ++ rest) [] =
      decodeLiteral (rest.length + 1) rest plain := by
    rw [List.length_append, Nat.add_assoc, decodeLiteral_plain hplain', List.nil_append]
  rw [hnaive, readStringBody, Prog.bind_get]
  dsimp only
  rw [takeWhile_run hplain hrest, advance, Prog.bind_modify]
  dsimp only
  rw [List.drop_left, hutf8]
  cases rest with
  | nil =>
      have hmem : ascii '\\' ∉ plain ++ [] := fun hmem => by
        rw [List.append_nil] at hmem
        exact hbackslash _ hmem rfl
      rw [if_neg hmem]
      exact ⟨_, rfl, rfl⟩
  | cons c rest =>
      have hstop : isStringStop c = true := by simpa using stops_cons.mp hrest
      rw [peek_cons]
      by_cases hquote : c = ascii '"'
      · rw [if_pos hquote, decodeLiteral, if_pos hquote]
        rfl
      rw [if_neg hquote]
      by_cases hescape : c = ascii '\\'
      · have hmem : ascii '\\' ∈ plain ++ c :: rest :=
          List.mem_append_right _ (hescape ▸ List.mem_cons_self)
        rw [if_pos hescape, if_pos hmem]
        refine endsAs_decodeLoop hutf8 ?_ (Nat.lt_succ_self _) _ _
        rw [List.length_append]
        omega
      · have hcontrol : c < 0x20 := by simpa [isStringStop, hquote, hescape] using hstop
        rw [if_neg hescape, decodeLiteral, if_neg hquote, if_neg hescape, if_pos hcontrol]
        have hreport : (if ascii '\\' ∈ plain ++ c :: rest then failureBehindEscape else failureOf)
            (.unescapedControl, some (c :: rest)) =
              failureOf (.unescapedControl, some (c :: rest)) := by
          split
          · rfl
          · rfl
        refine ⟨_, rfl, ?_⟩
        rw [hreport]
        rfl

end Reading

/-! ### `parse_string` -/

/-- The cursor is at the opening quote of a literal, `text` is what the buffer holds behind it, and
NUL bytes follow. -/
structure AtLiteral (p : Parser) (before text : Bytes) : Prop where
  buffer : p.buffer = padded (before ++ ascii '"' :: text)
  curr : p.mCurr = before.length
  last : p.mEnd = (before ++ ascii '"' :: text).length
  error : p.mError = none

/-- The parser ends as the naive decoder does: with the same bytes, the cursor in the same place and
the bytes ahead of it untouched, or with the same error at the same offset. -/
def DecodesAs (p : Parser) (run : Res Parser (View × Parser)) :
    Res EscapeError (Bytes × Bytes) → Prop
  | .ok (value, rest) => ∃ view p', run = .ok (view, p') ∧ view.read p'.buffer = value ∧
      p'.mCurr + rest.length = p.mEnd ∧ p'.buffer.drop p'.mCurr = padded rest
  | .error (code, anchor) => ∃ p', run = .error p' ∧ p'.mError = some
      { code, position := match anchor with
          | some text => p.mEnd - text.length - p.mBegin
          | none => 0
        positioned := anchor.isSome }
  | .stuck => False

section ParseString

variable {platform : Platform} {cfg : Config} {p : Parser} {before text : Bytes}

theorem AtLiteral.tracks (h : AtLiteral p before text) :
    Tracks ⟨p.mBegin, p.mEnd, [], by decide⟩ p.mDepth p ⟨ascii '"' :: text, none⟩ where
  unread := by
    rw [h.buffer, h.curr, padded, List.append_assoc, List.drop_left]
    rfl
  curr := by
    rw [h.curr, h.last, List.length_append]
  last := rfl
  start := rfl
  depth := rfl
  error := h.error
  behind := by
    rw [h.buffer, h.last, padded, List.drop_left]
    rfl
  inside := fun _ => List.drop_length

theorem readString_quote (hjson5 : cfg.json5 = false) (text : Bytes) :
    Reading.readString cfg 0 ⟨ascii '"' :: text, none⟩ =
      Reading.readStringBody cfg 0 ⟨text, none⟩ := by
  rw [Reading.readString, Prog.bind_get, if_neg (by simp [Reading.atEnd]), Reading.peek_cons,
    if_neg (by simp), hjson5, if_neg (by decide), Prog.bind_of_ok (Reading.advance_cons _ _ _)]

/-- What `parse_string` does, with its report of the failures of the naive decoder. -/
theorem parseString_ends (hjson5 : cfg.json5 = false) (hutf8 : cfg.strictUtf8 = false)
    (h : AtLiteral p before text) :
    (∃ value rest, decodeLiteral (text.length + 1) text [] = .ok (value, rest) ∧
      DecodesAs p (p.parseString platform cfg) (.ok (value, rest))) ∨
    ∃ failure p', decodeLiteral (text.length + 1) text [] = .error failure ∧
      p.parseString platform cfg = .error p' ∧ p'.mError = some
        (((if ascii '\\' ∈ text then Reading.failureBehindEscape else Reading.failureOf)
          failure).error ⟨p.mBegin, p.mEnd, [], by decide⟩) := by
  have hmatches : Matches ⟨p.mBegin, p.mEnd, [], by decide⟩ _
      (Reading.readString cfg 0 ⟨ascii '"' :: text, none⟩) _ :=
    @matches_parseString platform cfg _ _ _ _ h.tracks
  have hends := @Reading.endsAs_readStringBody cfg hutf8 text
  rw [readString_quote hjson5] at hmatches
  cases hnaive : decodeLiteral (text.length + 1) text [] with
  | stuck => exact absurd hnaive (decodeLiteral_ne_stuck (Nat.lt_succ_self _) _)
  | ok result =>
      obtain ⟨value, rest⟩ := result
      rw [hnaive] at hends
      rw [show Reading.readStringBody cfg 0 ⟨text, none⟩ = _ from hends] at hmatches
      obtain ⟨view, p', hrun, hstep, hholds⟩ := hmatches
      exact .inl ⟨value, rest, rfl, view, p', hrun, hholds.1, hstep.tracks.curr,
        hstep.tracks.unread⟩
  | error failure =>
      rw [hnaive] at hends
      obtain ⟨r, hread, hfailure⟩ := hends
      rw [hread] at hmatches
      obtain hfalse | ⟨p', hrun, hfailed⟩ := hmatches
      · exact hfalse.elim
      · refine .inr ⟨failure, p', rfl, hrun, ?_⟩
        rw [Failed, hfailure] at hfailed
        exact hfailed

/-- `parse_string` does what the naive decoder does, for every batch width, unless the input ends
inside the literal and behind an escape: there it reports an unescaped control byte. -/
theorem parseString_decodes_iff (hjson5 : cfg.json5 = false) (hutf8 : cfg.strictUtf8 = false)
    (h : AtLiteral p before text) :
    DecodesAs p (p.parseString platform cfg) (decodeLiteral (text.length + 1) text []) ↔
      ¬EndsBehindEscape text := by
  rcases @parseString_ends platform cfg p before text hjson5 hutf8 h with
    ⟨value, rest, hnaive, hdecodes⟩ | ⟨failure, p', hnaive, hrun, herror⟩
  · rw [hnaive]
    refine iff_of_true hdecodes fun ⟨⟨value', hvalue⟩, _⟩ => ?_
    have hout := decodeLiteral_characters hvalue (Nat.lt_succ_self text.length) []
    rw [hnaive] at hout
    cases hout
  · rw [hnaive, hrun]
    constructor
    · rintro ⟨p'', heq, herror'⟩ ⟨⟨value, hvalue⟩, hmem⟩
      cases heq
      have hout := decodeLiteral_characters hvalue (Nat.lt_succ_self text.length) []
      rw [hnaive] at hout
      cases hout
      rw [herror, if_pos hmem] at herror'
      have hcode := congrArg Error.code (Option.some.inj herror')
      cases hcode
    · intro hnot
      have hreport : (if ascii '\\' ∈ text then Reading.failureBehindEscape
          else Reading.failureOf) failure = Reading.failureOf failure := by
        split
        · rename_i hmem
          refine if_neg fun hcode => hnot ⟨?_, hmem⟩
          obtain ⟨code, anchor⟩ := failure
          obtain rfl : code = .unterminatedString := hcode
          exact characters_of_decodeLiteral hnaive
        · rfl
      rw [hreport] at herror
      obtain ⟨code, anchor⟩ := failure
      refine ⟨p', rfl, ?_⟩
      rw [herror, Reading.failureOf, Failure.error]
      cases anchor with
      | none => rfl
      | some anchor => rfl

end ParseString

/-- The input that consists of the literal `text` behind its opening quote. -/
def literalAlone (text : Bytes) : Parser where
  buffer := padded (ascii '"' :: text)
  mBegin := 0
  mCurr := 0
  mEnd := text.length + 1

theorem atLiteral_alone (text : Bytes) : AtLiteral (literalAlone text) [] text := ⟨rfl, rfl, rfl, rfl⟩

theorem parseString_decodes_tab :
    let text := asciiBytes "a\\tb\""
    DecodesAs (literalAlone text) ((literalAlone text).parseString halfPlatform {})
        (decodeLiteral (text.length + 1) text []) ∧
      decodeLiteral (text.length + 1) text [] = .ok ([0x61, 0x09, 0x62], []) := by
  have hnaive : decodeLiteral ((asciiBytes "a\\tb\"").length + 1) (asciiBytes "a\\tb\"") [] =
      .ok ([0x61, 0x09, 0x62], []) := by decide +kernel
  refine ⟨(parseString_decodes_iff rfl rfl (atLiteral_alone _)).mpr ?_, hnaive⟩
  rintro ⟨⟨value, hvalue⟩, -⟩
  have hout := decodeLiteral_characters hvalue (Nat.lt_succ_self _) []
  rw [hnaive] at hout
  cases hout

/-- The input `"\n` ends behind an escape. -/
theorem parseString_not_decodes_cut :
    let text := asciiBytes "\\n"
    ¬DecodesAs (literalAlone text) ((literalAlone text).parseString halfPlatform {})
      (decodeLiteral (text.length + 1) text []) := by
  have hnaive : decodeLiteral ((asciiBytes "\\n").length + 1) (asciiBytes "\\n") [] =
      .error (.unterminatedString, some []) := by decide +kernel
  dsimp only
  rw [hnaive]
  rintro ⟨p', hrun, herror⟩
  rcases @parseString_ends halfPlatform {} _ _ _ rfl rfl
      (atLiteral_alone (asciiBytes "\\n")) with
    ⟨value, rest, hok, -⟩ | ⟨failure, p'', hfailure, hrun', herror'⟩
  · rw [hnaive] at hok
    cases hok
  · rw [hrun] at hrun'
    cases hrun'
    rw [hnaive] at hfailure
    cases hfailure
    have hmem : ascii '\\' ∈ asciiBytes "\\n" := by decide +kernel
    rw [herror, if_pos hmem] at herror'
    cases congrArg Error.code (Option.some.inj herror')

end PjhJson
