import PjhJson.GrammarComplete
import PjhJson.ReadingTotal
import PjhJson.StreamPull
import PjhJson.StringContents

/-! The two decoders of a string. The parser decodes while it looks for the closing quote, the stream
reader cuts the string out first: where the string is closed they find the same text, or the same first
defect; where it is not, both fail. -/

namespace PjhJson

open Grammar Reading

/-! ### The stream reader's decoder ends -/

theorem gate_ne_stuck (ck : Utf8Checker) : Pull.gate ck ≠ .stuck := by
  rw [Pull.gate]
  split <;> simp

theorem decodeRaw_ne_stuck {strict : Bool} {fuel pos : Nat} {raw decoded : Bytes} {ck : Utf8Checker}
    (hfuel : raw.length < fuel) : Pull.decodeRaw strict fuel pos raw decoded ck ≠ .stuck := by
  induction fuel generalizing pos raw decoded ck with
  | zero => omega
  | succ fuel ih =>
      cases raw with
      | nil =>
          rw [Pull.decodeRaw, Ne, Res.bind_eq_stuck, not_or]
          exact ⟨gate_ne_stuck _, by simp⟩
      | cons c raw =>
          rw [Pull.decodeRaw, Ne, Res.bind_eq_stuck, not_or]
          refine ⟨gate_ne_stuck _, ?_⟩
          rintro ⟨_, -, hstuck⟩
          rw [List.length_cons] at hfuel
          split at hstuck
          · cases hescape : Reading.readEscape (c :: raw) with
            | stuck => exact readEscape_ne_stuck _ hescape
            | error failure =>
                rw [hescape] at hstuck
                cases hstuck
            | ok result =>
                have hshorter := (length_readEscape hescape).2
                rw [hescape] at hstuck
                exact ih (by rw [List.length_cons] at hshorter; omega) hstuck
          · split at hstuck
            · cases hstuck
            · exact ih (by omega) hstuck

theorem decodeContent_ne_stuck (strict : Bool) (raw : Bytes) : Pull.decodeContent strict raw ≠ .stuck := by
  rw [Pull.decodeContent]
  split
  · exact decodeRaw_ne_stuck (Nat.lt_succ_self _)
  split
  · simp
  · rw [Ne, Res.bind_eq_stuck, not_or]
    exact ⟨gate_ne_stuck _, by simp⟩

/-! ### Where a string is closed -/

/-- No quote but behind a backslash; `escaped` says that the byte before was one that escapes. -/
def Closed : Bool → Bytes → Prop
  | escaped, [] => escaped = false
  | escaped, c :: raw => (escaped = true ∨ c ≠ ascii '"') ∧ Closed (!escaped && c == ascii '\\') raw

theorem rawContent_eq_some {escaped : Bool} {text raw rest : Bytes} :
    Pull.rawContent escaped text = some (raw, rest) ↔
      text = raw ++ ascii '"' :: rest ∧ Closed escaped raw := by
  induction text generalizing escaped raw with
  | nil =>
      constructor
      · intro h
        cases h
      · rintro ⟨h, -⟩
        cases raw <;> cases h
  | cons c text ih =>
      rw [Pull.rawContent]
      by_cases hquote : escaped = false ∧ c = ascii '"'
      · rw [if_pos hquote, Option.some.injEq, Prod.mk.injEq]
        obtain ⟨rfl, rfl⟩ := hquote
        constructor
        · rintro ⟨rfl, rfl⟩
          exact ⟨rfl, rfl⟩
        · rintro ⟨heq, hclosed⟩
          cases raw with
          | nil => exact ⟨rfl, (List.cons.inj heq).2⟩
          | cons d raw =>
              obtain ⟨rfl, -⟩ := List.cons.inj heq
              exact absurd hclosed.1 (by simp)
      · rw [if_neg hquote, Option.map_eq_some_iff]
        have hopen : escaped = true ∨ c ≠ ascii '"' := by
          cases escaped with
          | true => exact .inl rfl
          | false => exact .inr fun hc => hquote ⟨rfl, hc⟩
        constructor
        · rintro ⟨⟨raw', rest'⟩, hraw, heq⟩
          obtain ⟨rfl, rfl⟩ := Prod.mk.inj heq
          obtain ⟨rfl, hclosed⟩ := ih.mp hraw
          exact ⟨rfl, hopen, hclosed⟩
        · rintro ⟨heq, hclosed⟩
          cases raw with
          | nil =>
              obtain ⟨rfl, -⟩ := List.cons.inj heq
              exact absurd ⟨hclosed, rfl⟩ hquote
          | cons d raw =>
              obtain ⟨rfl, rfl⟩ := List.cons.inj heq
              exact ⟨(raw, rest), ih.mpr ⟨rfl, hclosed.2⟩, rfl⟩

theorem closed_plain {plain : Bytes} (h : ∀ c ∈ plain, c ≠ ascii '"' ∧ c ≠ ascii '\\') (raw : Bytes) :
    Closed false (plain ++ raw) ↔ Closed false raw := by
  induction plain with
  | nil => exact Iff.rfl
  | cons c plain ih =>
      rw [List.forall_mem_cons] at h
      rw [List.cons_append, Closed, beq_eq_false_iff_ne.mpr h.1.2, Bool.not_false, Bool.true_and, ih h.2,
        and_iff_right (.inr h.1.1)]

theorem closed_escape (c : UInt8) (raw : Bytes) :
    Closed false (ascii '\\' :: c :: raw) ↔ Closed false raw := by
  have hne : ascii '\\' ≠ ascii '"' := by decide
  rw [Closed, and_iff_right (.inr hne), Closed]
  simp

theorem closed_character {spelling written : Bytes} (h : Rfc.Character spelling written) (raw : Bytes) :
    Closed false (spelling ++ raw) ↔ Closed false raw := by
  have hdigits : ∀ {digits : Bytes} {value : Nat}, Rfc.CodeUnit digits value → ∀ raw,
      Closed false (digits ++ raw) ↔ Closed false raw := fun hunit raw =>
    closed_plain (fun c hmem => (hunit.ascii c hmem).2) raw
  cases h with
  | unescaped c _ hquote hescape =>
      exact closed_plain (List.forall_mem_singleton.mpr ⟨hquote, hescape⟩) raw
  | short c value _ => exact closed_escape c raw
  | unicode digits value hunit =>
      rw [List.cons_append, List.cons_append, closed_escape, hdigits hunit]
  | pair digits digits' high low value hunit hunit' _ _ _ _ _ =>
      rw [List.cons_append, List.cons_append, List.append_assoc, closed_escape, hdigits hunit,
        List.cons_append, List.cons_append, closed_escape, hdigits hunit']

theorem closed_characters {content value : Bytes} (h : Rfc.Characters content value) : Closed false content := by
  induction h with
  | nil => rfl
  | cons spelling value content values hcharacter _ ih => exact (closed_character hcharacter content).mpr ih

/-! ### Escapes in front of a quote -/

/-- What becomes of a decoder when a quote and more follow its text. -/
def quoted {α : Type} (rest : Bytes) : Res EscapeError (α × Bytes) → Res EscapeError (α × Bytes)
  | .ok (value, more) => .ok (value, more ++ ascii '"' :: rest)
  | .error (code, anchor) => .error (code, anchor.map (· ++ ascii '"' :: rest))
  | .stuck => .stuck

@[simp] theorem quoted_ok {α : Type} (rest : Bytes) (value : α) (more : Bytes) :
    quoted rest (.ok (value, more)) = .ok (value, more ++ ascii '"' :: rest) := rfl

theorem hexValue_quote : hexValue (ascii '"') = none := by decide

theorem readHexDigits_quoted (n code : Nat) (text rest : Bytes) :
    readHexDigits n code (text ++ ascii '"' :: rest) = quoted rest (readHexDigits n code text) := by
  induction n generalizing code text with
  | zero => rfl
  | succ n ih =>
      cases text with
      | nil =>
          simp only [List.nil_append, readHexDigits, hexValue_quote]
          rfl
      | cons c text =>
          rw [List.cons_append, readHexDigits, readHexDigits]
          cases hexValue c with
          | none => rfl
          | some v => exact ih _ _

theorem readEncoded_quoted (cp : Nat) (text rest : Bytes) :
    readEncoded cp (text ++ ascii '"' :: rest) = quoted rest (readEncoded cp text) := by
  rw [readEncoded, readEncoded]
  cases encodeUtf8 cp <;> rfl

theorem readLowSurrogate_quoted (high : Nat) (text rest : Bytes) :
    readLowSurrogate high (text ++ ascii '"' :: rest) = quoted rest (readLowSurrogate high text) := by
  rw [readLowSurrogate, readLowSurrogate, readHexDigits_quoted]
  cases hdigits : readHexDigits 4 0 text with
  | stuck => rfl
  | error failure => rfl
  | ok result =>
      obtain ⟨low, more⟩ := result
      simp only [quoted_ok, Res.ok_bind]
      split
      · exact readEncoded_quoted _ _ _
      · rfl

/-- A quote does not complete the `\u` of a low surrogate. -/
theorem take_two_quoted (text rest : Bytes) :
    (text ++ ascii '"' :: rest).take 2 = [ascii '\\', ascii 'u'] ↔ text.take 2 = [ascii '\\', ascii 'u'] := by
  cases text with
  | nil =>
      refine iff_of_false (fun h => ?_) (by simp)
      exact absurd (List.cons.inj h).1 (by decide)
  | cons c text =>
      cases text with
      | nil =>
          refine iff_of_false (fun h => ?_) (by simp)
          exact absurd (List.cons.inj (List.cons.inj h).2).1 (by decide)
      | cons d text => exact Iff.rfl

theorem readCodeUnit_quoted (cp : Nat) (text rest : Bytes) :
    readCodeUnit cp (text ++ ascii '"' :: rest) = quoted rest (readCodeUnit cp text) := by
  rw [readCodeUnit, readCodeUnit]
  split
  · by_cases htake : text.take 2 = [ascii '\\', ascii 'u']
    · have hlength : 2 ≤ text.length := by
        have h := congrArg List.length htake
        rw [List.length_take] at h
        simp only [List.length_cons, List.length_nil] at h
        omega
      rw [if_pos htake, if_pos ((take_two_quoted text rest).mpr htake),
        List.drop_append_of_le_length hlength]
      exact readLowSurrogate_quoted _ _ _
    · rw [if_neg htake, if_neg fun h => htake ((take_two_quoted text rest).mp h)]
      rfl
  split
  · rfl
  · exact readEncoded_quoted _ _ _

theorem readEscape_quoted (c d : UInt8) (text rest : Bytes) :
    readEscape (c :: d :: text ++ ascii '"' :: rest) = quoted rest (readEscape (c :: d :: text)) := by
  rw [readEscape, readEscape, List.cons_append, List.cons_append, List.tail_cons, List.tail_cons]
  simp only
  split
  · rfl
  split
  · rfl
  rw [readHexDigits_quoted]
  cases readHexDigits 4 0 text with
  | stuck => rfl
  | error failure => rfl
  | ok result => exact readCodeUnit_quoted _ _ _

/-! ### The decoding loops -/

/-- What the parser makes of a closed string: `model` is what the stream reader makes of its content,
which `left` unread bytes begin with. -/
def Decodes (left : Nat) (rest : Bytes) (model : Res Pull.ContentError Bytes)
    (run : Res Reading (Bytes × Reading)) : Prop :=
  match model with
  | .ok text => run = .ok (text, { rest })
  | .error (code, pos) => ∃ r, run = .error r ∧ r.failure = some { code, left := pos.map (left - ·) }
  | .stuck => True

section Decodes

variable {cfg : Config} {left pos : Nat} {rest : Bytes} {ck : Utf8Checker}

theorem decodes_gate {r : Reading} (hr : r.failure = none) {model : Unit → Res Pull.ContentError Bytes}
    {next : Unit → Prog Reading Bytes} (hnext : Decodes left rest (model ()) (next () r)) :
    Decodes left rest (Pull.gate ck >>= model) ((checkUtf8 left ck >>= next) r) := by
  rw [Pull.gate, checkUtf8]
  split
  · refine ⟨_, rfl, ?_⟩
    simp [hr]
  · exact hnext

theorem decodes_decodeLoop {fuel fuel' : Nat} {raw decoded : Bytes} (hclosed : Closed false raw)
    (hleft : left = pos + (raw.length + 1 + rest.length)) (hfuel : raw.length < fuel) :
    Decodes left rest (Pull.decodeRaw cfg.strictUtf8 fuel' pos raw decoded ck)
      (decodeLoop cfg left fuel decoded ck { rest := raw ++ ascii '"' :: rest }) := by
  induction fuel' generalizing fuel pos raw decoded ck with
  | zero => trivial
  | succ fuel' ih =>
      obtain ⟨fuel, rfl⟩ := Nat.exists_eq_succ_of_ne_zero (Nat.ne_of_gt (Nat.zero_lt_of_lt hfuel))
      rw [decodeLoop, bind_peek]
      cases raw with
      | nil =>
          rw [here, List.nil_append, List.headD_cons, if_pos rfl, Pull.decodeRaw]
          exact decodes_gate rfl rfl
      | cons c raw =>
          have hc : c ≠ ascii '"' := hclosed.1.resolve_left Bool.false_ne_true
          rw [List.length_cons] at hleft hfuel
          rw [here, List.cons_append, List.headD_cons, if_neg hc, Prog.bind_get, Pull.decodeRaw]
          have hpos : left - (c :: (raw ++ ascii '"' :: rest)).length = pos := by
            rw [List.length_cons, List.length_append, List.length_cons]
            omega
          simp only [hpos]
          refine decodes_gate rfl ?_
          by_cases hescape : c = ascii '\\'
          · subst hescape
            rw [if_pos rfl, if_pos rfl]
            cases raw with
            | nil => exact absurd hclosed.2 (by simp [Closed])
            | cons d raw =>
                rw [List.length_cons] at hleft hfuel
                cases hread : readEscape (ascii '\\' :: d :: raw) with
                | stuck => trivial
                | error failure =>
                    obtain ⟨code, anchor⟩ := failure
                    have hquoted := readEscape_quoted (ascii '\\') d raw rest
                    rw [hread, List.cons_append, List.cons_append] at hquoted
                    rw [decodeEscape, Prog.bind_apply, Prog.bind_get]
                    simp only [List.cons_append, hquoted]
                    cases anchor with
                    | none => exact ⟨_, rfl, rfl⟩
                    | some anchor =>
                        refine ⟨_, rfl, ?_⟩
                        simp only [Option.isSome_none, Bool.false_eq_true, if_false, Option.map_some,
                          List.length_cons, List.length_append]
                        congr 3
                        omega
                | ok result =>
                    obtain ⟨written, more⟩ := result
                    obtain ⟨spelling, hcharacter, hsplit⟩ := readEscape_iff.mp hread
                    have hmore : Closed false more := by
                      rw [hsplit] at hclosed
                      exact (closed_character hcharacter more).mp hclosed
                    have hlength := congrArg List.length hsplit
                    rw [List.length_cons, List.length_append] at hlength
                    have hdecode : decodeEscape Reading.rest readEscape
                        ⟨ascii '\\' :: spelling ++ (more ++ ascii '"' :: rest), none⟩ = _ :=
                      decodeEscape_append hcharacter none
                    rw [List.cons_append, ← List.append_assoc, ← hsplit] at hdecode
                    rw [Prog.bind_of_ok hdecode]
                    simp only [List.length_cons]
                    exact ih hmore (by omega) (by omega)
          · rw [if_neg hescape, if_neg hescape]
            rw [Closed, beq_eq_false_iff_ne.mpr hescape, Bool.and_false] at hclosed
            split
            · refine ⟨_, rfl, ?_⟩
              simp only [Option.isSome_none, Bool.false_eq_true, if_false, Option.map_some,
                List.length_cons, List.length_append]
              congr 3
              omega
            · exact ih hclosed.2 (by omega) (by omega)

/-! ### From the opening quote on -/

/-- The bytes in front of the first escape or control byte. -/
theorem decodeRaw_plain {strict : Bool} {fuel : Nat} {plain tail decoded : Bytes}
    (hplain : ∀ c ∈ plain, isStringStop c = false) (hck : ck.failed = false) :
    Pull.decodeRaw strict (plain.length + (fuel + 1)) pos (plain ++ tail) decoded ck =
      Pull.gate (if strict then ck.feedRange plain pos else ck) >>= fun _ =>
        Pull.decodeRaw strict (fuel + 1) (pos + plain.length) tail (decoded ++ plain)
          (if strict then ck.feedRange plain pos else ck) := by
  induction plain generalizing pos decoded ck with
  | nil =>
      have hsame : (if strict then ck.feedRange [] pos else ck) = ck := ite_self ck
      rw [hsame, Pull.gate, if_neg (by rw [hck]; decide), Res.ok_bind, List.append_nil, List.length_nil,
        Nat.zero_add]
      rfl
  | cons c plain ih =>
      rw [List.forall_mem_cons] at hplain
      have hc := hplain.1
      simp only [isStringStop, Bool.or_eq_false_iff, beq_eq_false_iff_ne, decide_eq_false_iff_not] at hc
      have hfuel : (c :: plain).length + (fuel + 1) = plain.length + (fuel + 1) + 1 := by
        rw [List.length_cons]
        omega
      have hrange : (if strict then ck.feedRange (c :: plain) pos else ck) =
          if strict then (if strict then ck.feed c pos else ck).feedRange plain (pos + 1)
          else (if strict then ck.feed c pos else ck) := by
        cases strict with
        | true =>
            have hgood : ¬ck.failed = true := by rw [hck]; decide
            rw [if_pos rfl, Utf8Checker.feedRange, if_neg hgood]
            rfl
        | false => rfl
      rw [hfuel, List.cons_append, Pull.decodeRaw, hrange]
      simp only [if_neg hc.1.2, if_neg hc.2]
      generalize (if strict then ck.feed c pos else ck) = ck'
      cases hck' : ck'.failed with
      | true =>
          have hsame : (if strict then ck'.feedRange plain (pos + 1) else ck') = ck' := by
            rw [feedRange_failed hck', ite_self]
          rw [hsame, Pull.gate, if_pos hck']
          rfl
      | false =>
          have hpos : pos + (c :: plain).length = pos + 1 + plain.length := by
            rw [List.length_cons]
            omega
          rw [ih hplain.2 hck', Pull.gate, if_neg (by rw [hck']; decide), Res.ok_bind, List.append_assoc,
            hpos]
          rfl

/-- A control byte passes the gate. -/
theorem feed_control {c : UInt8} (hc : c < 0x20) (ck : Utf8Checker) (pos : Nat) : ck.feed c pos = ck := by
  have hascii : c ≤ 0x7F := UInt8.le_of_lt (UInt8.lt_trans hc (by decide))
  rw [Utf8Checker.feed]
  split
  · rfl
  split
  · rw [Utf8Checker.feedLead, if_pos hascii]
  · rw [Utf8Checker.feedContinuation, if_pos hc]

/-- What the gate finds in bytes that are no control bytes. -/
theorem feedRange_plain {plain : Bytes} (hplain : ∀ c ∈ plain, ¬c < 0x20)
    (hfailed : (({} : Utf8Checker).feedRange plain 0).failed = true) :
    (({} : Utf8Checker).feedRange plain 0).code ∈ utf8Codes ∧
      (({} : Utf8Checker).feedRange plain 0).err ≤ plain.length := by
  have hsteps := feedRange_steps fed_start fun c hmem => UInt8.not_lt.mp (hplain c hmem)
  rw [List.length_nil] at hsteps
  rcases hsteps with hfed | ⟨-, hviolation⟩
  · rw [hfed.not_failed] at hfailed
    cases hfailed
  · have hfound := hviolation []
    rw [List.nil_append, List.append_nil] at hfound
    exact ⟨hfound.code_mem, hfound.le_length⟩

/-- The one defect that hides another in a closed string that `total` unread bytes begin with: in front of the
first escape the parser looks for control bytes alone, while the stream reader looks at the encoding too if
there is an escape further on. -/
def HiddenControl (cfg : Config) (total : Nat) (model : Res Pull.ContentError Bytes)
    (run : Res Reading (Bytes × Reading)) : Prop :=
  cfg.strictUtf8 = true ∧ ∃ code pos left r, model = .error (code, some pos) ∧ code ∈ utf8Codes ∧
    run = .error r ∧ r.failure = some { code := .unescapedControl, left := some left } ∧ left ≤ total - pos

theorem takeWhile_plain {plain tail : Bytes} {c : UInt8} (hplain : ∀ c ∈ plain, isStringStop c = false)
    (hc : isStringStop c = true) :
    (plain ++ c :: tail).takeWhile (fun c => !isStringStop c) = plain := by
  rw [List.takeWhile_append_of_pos fun d hmem => by rw [hplain d hmem]; rfl,
    List.takeWhile_cons_of_neg (by rw [hc]; decide), List.append_nil]

theorem readStringBody_eq (cfg : Config) {plain : Bytes} {c : UInt8} (tail : Bytes)
    (hplain : ∀ c ∈ plain, isStringStop c = false) (hc : isStringStop c = true) (left : Nat)
    (hleft : left = plain.length + (tail.length + 1)) :
    readStringBody cfg 0 { rest := plain ++ c :: tail } =
      (if c = ascii '"' then do
        checkUtf8 left (if cfg.strictUtf8 then checkUtf8Strict plain else {})
        advance 1
        pure plain
      else if c = ascii '\\' then do
        checkUtf8 left (if cfg.strictUtf8 then ({} : Utf8Checker).feedRange plain 0 else {})
        decodeLoop cfg left (left + 1) plain (if cfg.strictUtf8 then ({} : Utf8Checker).feedRange plain 0 else {})
      else fail .unescapedControl (tail.length + 1) : Prog Reading Bytes) { rest := c :: tail } := by
  have hlength : (plain ++ c :: tail).length = left := by
    rw [List.length_append, List.length_cons, hleft]
  have hend : atEnd 0 { rest := c :: tail } = false := by simp [atEnd]
  rw [readStringBody, Prog.bind_get]
  simp only [takeWhile_plain hplain hc, hlength]
  rw [advance, Prog.bind_modify]
  simp only [List.drop_left]
  rw [bind_peek, show here { rest := c :: tail } = c from rfl]
  by_cases hquote : c = ascii '"'
  · rw [if_pos hquote, if_pos hquote]
  by_cases hescape : c = ascii '\\'
  · rw [if_neg hquote, if_neg hquote, if_pos hescape, if_pos hescape]
  · rw [if_neg hquote, if_neg hquote, if_neg hescape, if_neg hescape, Prog.bind_get, hend]
    rfl

/-- Where a string is closed, the parser finds in it what the stream reader finds. -/
theorem decodes_readStringBody (cfg : Config) {text raw : Bytes}
    (hraw : Pull.rawContent false text = some (raw, rest)) :
    Decodes text.length rest (Pull.decodeContent cfg.strictUtf8 raw) (readStringBody cfg 0 { rest := text }) ∨
      HiddenControl cfg text.length (Pull.decodeContent cfg.strictUtf8 raw)
        (readStringBody cfg 0 { rest := text }) := by
  obtain ⟨rfl, hclosed⟩ := rawContent_eq_some.mp hraw
  obtain ⟨plain, hplain⟩ : ∃ plain, plain = raw.takeWhile fun c => !isStringStop c := ⟨_, rfl⟩
  have hstops : ∀ c ∈ plain, isStringStop c = false := fun c hmem => by
    rw [hplain] at hmem
    simpa using List.mem_takeWhile_imp hmem
  have hstop : ∀ {c : UInt8}, isStringStop c = false → c ≠ ascii '"' ∧ c ≠ ascii '\\' ∧ ¬c < 0x20 := by
    intro c hc
    simp only [isStringStop, Bool.or_eq_false_iff, beq_eq_false_iff_ne, decide_eq_false_iff_not] at hc
    exact ⟨hc.1.1, hc.1.2, hc.2⟩
  have hsplit : raw = plain ++ raw.dropWhile fun c => !isStringStop c := by
    rw [hplain, List.takeWhile_append_dropWhile]
  cases htail : raw.dropWhile fun c => !isStringStop c with
  | nil =>
      rw [htail, List.append_nil] at hsplit
      have hnone : raw.findIdx? (· < 0x20) = none := by
        rw [List.findIdx?_eq_none_iff]
        intro c hmem
        exact decide_eq_false (hstop (hstops c (hsplit ▸ hmem))).2.2
      have hescape : ascii '\\' ∉ raw := fun hmem => (hstop (hstops _ (hsplit ▸ hmem))).2.1 rfl
      rw [Pull.decodeContent, if_neg hescape, hnone, hsplit,
        readStringBody_eq cfg rest hstops (by decide) (plain ++ ascii '"' :: rest).length (by simp), if_pos rfl]
      exact .inl (decodes_gate rfl rfl)
  | cons c tail =>
      rw [htail] at hsplit
      have hc : isStringStop c = true := by
        have hhead := List.head_dropWhile_not (fun c => !isStringStop c) (l := raw) (by rw [htail]; simp)
        simpa [htail] using hhead
      have hrest : Closed false (c :: tail) := by
        rw [hsplit] at hclosed
        exact (closed_plain (fun c hmem => ⟨(hstop (hstops c hmem)).1, (hstop (hstops c hmem)).2.1⟩) _).mp hclosed
      have hquote : c ≠ ascii '"' := hrest.1.resolve_left Bool.false_ne_true
      obtain ⟨left, hleft⟩ : ∃ left, left = plain.length + ((tail ++ ascii '"' :: rest).length + 1) := ⟨_, rfl⟩
      have hlength : (raw ++ ascii '"' :: rest).length = left := by
        rw [hsplit, hleft]
        simp only [List.length_append, List.length_cons]
        omega
      have hbody := readStringBody_eq cfg (tail ++ ascii '"' :: rest) hstops hc left hleft
      rw [← List.cons_append, ← List.append_assoc, ← hsplit, if_neg hquote] at hbody
      rw [hlength, hbody]
      have hfuel : raw.length + 1 = plain.length + (tail.length + 1 + 1) := by
        rw [hsplit, List.length_append, List.length_cons]
        omega
      have hdecode : Pull.decodeRaw cfg.strictUtf8 (raw.length + 1) 0 raw [] {} =
          Pull.gate (if cfg.strictUtf8 then ({} : Utf8Checker).feedRange plain 0 else {}) >>= fun _ =>
            Pull.decodeRaw cfg.strictUtf8 (tail.length + 1 + 1) plain.length (c :: tail) plain
              (if cfg.strictUtf8 then ({} : Utf8Checker).feedRange plain 0 else {}) := by
        rw [hfuel]
        conv_lhs => rw [hsplit]
        rw [decodeRaw_plain hstops rfl, Nat.zero_add, List.nil_append]
      by_cases hescape : c = ascii '\\'
      · rw [if_pos hescape, Pull.decodeContent, if_pos (by rw [hsplit, hescape]; simp), hdecode]
        refine .inl (decodes_gate rfl ?_)
        refine decodes_decodeLoop hrest ?_ ?_
        · rw [hleft]
          simp only [List.length_append, List.length_cons]
          omega
        · rw [hleft]
          simp only [List.length_append, List.length_cons]
          omega
      rw [if_neg hescape]
      have hcontrol : c < 0x20 := by simpa [isStringStop, hquote, hescape] using hc
      have hfail : ∃ r, (fail .unescapedControl ((tail ++ ascii '"' :: rest).length + 1) : Prog Reading Bytes)
          { rest := c :: tail ++ ascii '"' :: rest } = .error r ∧
          r.failure = some { code := .unescapedControl, left := some (left - plain.length) } := by
        refine ⟨_, rfl, ?_⟩
        rw [hleft, Nat.add_sub_cancel_left]
        rfl
      rw [Pull.decodeContent]
      by_cases hmem : ascii '\\' ∈ raw
      · rw [if_pos hmem, hdecode, Pull.gate]
        by_cases hgate : (if cfg.strictUtf8 then ({} : Utf8Checker).feedRange plain 0 else {}).failed = true
        · have hstrict : cfg.strictUtf8 = true := by
            by_contra hlenient
            rw [if_neg hlenient] at hgate
            cases hgate
          obtain ⟨r, hrun, hfailure⟩ := hfail
          obtain ⟨hcode, herr⟩ := feedRange_plain (fun d hmem => (hstop (hstops d hmem)).2.2)
            (by rwa [if_pos hstrict] at hgate)
          rw [if_pos hgate]
          refine .inr ⟨hstrict, _, _, _, r, rfl, ?_, hrun, hfailure, ?_⟩
          · rwa [if_pos hstrict]
          · rw [if_pos hstrict]
            omega
        · have hsame : ∀ ck : Utf8Checker, (if cfg.strictUtf8 then ck.feed c plain.length else ck) = ck := by
            intro ck
            rw [feed_control hcontrol, ite_self]
          rw [if_neg hgate, Res.ok_bind, Pull.decodeRaw]
          simp only [hsame]
          rw [Pull.gate, if_neg hgate, Res.ok_bind, if_neg hescape, if_pos hcontrol]
          exact .inl hfail
      · rw [if_neg hmem]
        have hfound : raw.findIdx? (· < 0x20) = some plain.length := by
          have hnone : plain.findIdx? (· < 0x20) = none := by
            rw [List.findIdx?_eq_none_iff]
            exact fun d hmem => decide_eq_false (hstop (hstops d hmem)).2.2
          rw [hsplit, List.findIdx?_append, hnone, List.findIdx?_cons, decide_eq_true hcontrol]
          simp
        rw [hfound]
        exact .inl hfail

/-- Where a string is not closed, the parser fails in it. -/
theorem readStringBody_open (cfg : Config) {text : Bytes} (hraw : Pull.rawContent false text = none) :
    ∃ r failure, readStringBody cfg 0 { rest := text } = .error r ∧ r.failure = some failure := by
  have hreads : Reads { rest := text } (readStringBody cfg 0 { rest := text }) := reads_readStringBody
  cases hrun : readStringBody cfg 0 { rest := text } with
  | stuck => exact absurd hrun hreads.ne_stuck
  | error r =>
      obtain ⟨failure, hfailure⟩ := Option.isSome_iff_exists.mp (hreads.error hrun)
      exact ⟨r, failure, rfl, hfailure⟩
  | ok result =>
      obtain ⟨content, hcharacters, hrest⟩ := yields_readStringBody _ _ hrun
      have hsome := rawContent_eq_some.mpr ⟨hrest, closed_characters hcharacters⟩
      rw [hraw] at hsome
      cases hsome

end Decodes

end PjhJson
