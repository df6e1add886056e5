import PjhJson.JsonlLines
import PjhJson.LibCalls
import PjhJson.OutFrame
import PjhJson.Stream

/-! `JsonlReader` of `stream.cpp`: one document for each line of a stream that is not blank. It is a second
splitter of lines beside the one of `parse_jsonl`, with its own blank-line test and its own rule for a byte order
mark, and it is compared with that one on whole inputs. -/

namespace PjhJson

open Grammar

namespace Reading

variable {platform : Platform} {cfg : Config} {tail : Nat}

/-! ### The byte order mark -/

@[simp] theorem lineConfig_json5 : (lineConfig cfg).json5 = cfg.json5 := rfl
@[simp] theorem lineConfig_strictUtf8 : (lineConfig cfg).strictUtf8 = cfg.strictUtf8 := rfl

theorem decodeLoop_line (left fuel : Nat) (decoded : Bytes) (ck : Utf8Checker) :
    decodeLoop (lineConfig cfg) left fuel decoded ck = decodeLoop cfg left fuel decoded ck := by
  induction fuel generalizing decoded ck with
  | zero => rfl
  | succ fuel ih =>
      simp only [decodeLoop, ih, lineConfig_strictUtf8]
      rfl

theorem stringLoopJson5_line (quote : UInt8) (left fuel : Nat) (decoded : Bytes) (ck : Utf8Checker) :
    stringLoopJson5 (lineConfig cfg) tail quote left fuel decoded ck =
      stringLoopJson5 cfg tail quote left fuel decoded ck := by
  induction fuel generalizing decoded ck with
  | zero => rfl
  | succ fuel ih =>
      simp only [stringLoopJson5, ih, lineConfig_strictUtf8]
      rfl

theorem readStringJson5_line (quote : UInt8) :
    readStringJson5 (lineConfig cfg) tail quote = readStringJson5 cfg tail quote := by
  simp only [readStringJson5, stringLoopJson5_line]

theorem readString_line : readString (lineConfig cfg) tail = readString cfg tail := by
  simp only [readString, readStringBody, readStringJson5_line, decodeLoop_line, lineConfig_json5,
    lineConfig_strictUtf8]
  rfl

theorem readKey_line : readKey (lineConfig cfg) tail = readKey cfg tail := by
  simp only [readKey, readString_line, readStringJson5_line, lineConfig_json5]

theorem skipWhitespace_line : skipWhitespace (lineConfig cfg) tail = skipWhitespace cfg tail := rfl

theorem closedAfterComma_line (c : UInt8) :
    closedAfterComma skipWhitespace (lineConfig cfg) tail c = closedAfterComma skipWhitespace cfg tail c := rfl

theorem elementsLoop_line (element : Prog Reading Ast) (fuel : Nat) (elements : List Ast) :
    elementsLoop skipWhitespace (lineConfig cfg) tail element fuel elements =
      elementsLoop skipWhitespace cfg tail element fuel elements := by
  induction fuel generalizing elements with
  | zero => rfl
  | succ fuel ih => simp only [elementsLoop, ih, skipWhitespace_line, closedAfterComma_line]

theorem readMember_line (element : Prog Reading Ast) (members : List (Bytes × Ast)) :
    readMember skipWhitespace (lineConfig cfg) tail element members =
      readMember skipWhitespace cfg tail element members := by
  have hduplicate : ∀ key, checkDuplicateKey (lineConfig cfg) members key = checkDuplicateKey cfg members key :=
    fun _ => rfl
  simp only [readMember, readKey_line, skipWhitespace_line, hduplicate]

theorem membersLoop_line (element : Prog Reading Ast) (fuel : Nat) (members : List (Bytes × Ast)) :
    membersLoop skipWhitespace (lineConfig cfg) tail element fuel members =
      membersLoop skipWhitespace cfg tail element fuel members := by
  induction fuel generalizing members with
  | zero => rfl
  | succ fuel ih => simp only [membersLoop, ih, readMember_line, skipWhitespace_line, closedAfterComma_line]

theorem readValueAt_line (depth : Nat) (element : Nat → Prog Reading Ast) (unexpected : ErrorCode) (c : UInt8) :
    readValueAt skipWhitespace platform (lineConfig cfg) tail depth element unexpected c =
      readValueAt skipWhitespace platform cfg tail depth element unexpected c := by
  have hnumber : readNumber platform (lineConfig cfg) tail = readNumber platform cfg tail := rfl
  have hliteral : readLiteral (lineConfig cfg) = readLiteral cfg := rfl
  have hdepth : checkDepth (lineConfig cfg) depth = checkDepth cfg depth := rfl
  simp only [readValueAt, readArray, readObject, readString_line, readStringJson5_line, elementsLoop_line,
    membersLoop_line, skipWhitespace_line, hnumber, hliteral, hdepth, lineConfig_json5]

theorem readElement_line (fuel depth : Nat) :
    readElement skipWhitespace platform (lineConfig cfg) tail fuel depth =
      readElement skipWhitespace platform cfg tail fuel depth := by
  induction fuel generalizing depth with
  | zero => rfl
  | succ fuel ih =>
      have helement : readElement skipWhitespace platform (lineConfig cfg) tail fuel =
          readElement skipWhitespace platform cfg tail fuel := funext ih
      simp only [readElement, helement, skipWhitespace_line, readValueAt_line]

theorem readValue_line (fuel : Nat) :
    readValue skipWhitespace platform (lineConfig cfg) tail fuel = readValue skipWhitespace platform cfg tail fuel := by
  have helement : readElement skipWhitespace platform (lineConfig cfg) tail fuel =
      readElement skipWhitespace platform cfg tail fuel :=
    funext (readElement_line fuel)
  simp only [readValue, helement, skipWhitespace_line, readValueAt_line]

/-- Where no mark is dropped, a text is read as if none ever was. -/
theorem readText_unmarked {text : Bytes} (h : (cfg.stripBom && startsWithUtf8Bom text) = false) :
    readText skipWhitespace platform cfg 0 { rest := text } =
      readText skipWhitespace platform (lineConfig cfg) 0 { rest := text } := by
  have hkept : dropBom cfg text = text := by rw [dropBom_eq, h, if_neg Bool.false_ne_true]
  have hkept' : dropBom (lineConfig cfg) text = text := by
    rw [dropBom_eq]
    exact if_neg Bool.false_ne_true
  rw [readText_whole, readText_whole, hkept, hkept', readValue_line, skipWhitespace_line]

/-! ### Lines without a value -/

theorem startsWithUtf8Bom_iff {text : Bytes} :
    startsWithUtf8Bom text = true ↔ ∃ rest, text = 0xEF :: 0xBB :: 0xBF :: rest := by
  rw [startsWithUtf8Bom, beq_iff_eq]
  constructor
  · intro h
    refine ⟨text.drop 3, ?_⟩
    have hsplit := List.take_append_drop 3 text
    rw [h] at hsplit
    exact hsplit.symm
  · rintro ⟨rest, rfl⟩
    rfl

theorem isBlankJson5_dropWhile {fuel : Nat} {p : Bytes} (h : isBlankJson5 fuel p = true) :
    ∃ fuel, isBlankJson5 fuel (p.dropWhile isJson5WhitespaceAscii) = true := by
  induction p generalizing fuel with
  | nil => exact ⟨fuel, h⟩
  | cons c p ih =>
      cases hspace : isJson5WhitespaceAscii c with
      | false => exact ⟨fuel, by rwa [List.dropWhile_cons_of_neg (by rw [hspace]; decide)]⟩
      | true =>
          rw [List.dropWhile_cons_of_pos hspace]
          cases fuel with
          | zero => cases h
          | succ fuel =>
              have hascii : c < 0x80 := by
                simp only [isJson5WhitespaceAscii, isWhitespace, Bool.or_eq_true, beq_iff_eq] at hspace
                rcases hspace with ((((rfl | rfl) | rfl) | rfl) | rfl) | rfl <;> decide
              rw [isBlankJson5, if_pos hascii, hspace, Bool.true_and] at h
              exact ih h

/-- The blank-line test and the trivia agree on whitespace. -/
theorem skipTriviaLoop_blank {fuel fuel' : Nat} {p : Bytes} (h : isBlankJson5 fuel' p = true)
    (hfuel : p.length < fuel) : skipTriviaLoop fuel p = some ([], false) := by
  induction fuel generalizing fuel' p with
  | zero => omega
  | succ fuel ih =>
      obtain ⟨count, hblank⟩ := isBlankJson5_dropWhile h
      have hlength : (p.dropWhile isJson5WhitespaceAscii).length ≤ p.length := (List.dropWhile_suffix _).length_le
      have hstop := Scanner.stops_dropWhile isJson5WhitespaceAscii p
      rw [skipTriviaLoop]
      generalize p.dropWhile isJson5WhitespaceAscii = q at hblank hlength hstop
      cases q with
      | nil => rfl
      | cons c q =>
          cases count with
          | zero => cases hblank
          | succ count =>
              have hspace : isJson5WhitespaceAscii c = false := hstop c rfl
              rw [isBlankJson5] at hblank
              split at hblank
              · rw [hspace] at hblank
                cases hblank
              · rename_i hascii
                cases hdecode : Unicode.decodeUtf8 (c :: q) with
                | none => rw [hdecode] at hblank; cases hblank
                | some result =>
                    obtain ⟨cp, unit⟩ := result
                    rw [hdecode] at hblank
                    obtain ⟨hcp, hrest⟩ := Bool.and_eq_true_iff.mp hblank
                    have hskip : skipUnicodeWhitespace (c :: q) = some ((c :: q).drop unit) := by
                      rw [skipUnicodeWhitespace, if_neg hascii, hdecode]
                      exact if_pos hcp
                    have hshorter := length_skipUnicodeWhitespace hskip
                    rw [hskip]
                    exact ih hrest (by omega)

theorem skip_blank {line : Bytes} (h : isBlankLine cfg line = true) :
    skipWhitespace cfg 0 { rest := line } = .ok ((), { rest := [] }) := by
  cases hjson5 : cfg.json5 with
  | true =>
      rw [isBlankLine, if_pos hjson5] at h
      have hskip : skipTrivia line = some ([], false) := skipTriviaLoop_blank h (Nat.lt_succ_self _)
      have hbody : body 0 { rest := line } = line := List.take_length
      rw [skipWhitespace, if_pos hjson5, skipTriviaHere, Prog.bind_get, hbody, hskip]
      simp only
      rw [advanceTo, Prog.bind_modify, hbody, List.length_nil, Nat.sub_zero, List.drop_length]
      rfl
  | false =>
      rw [isBlankLine, hjson5, if_neg Bool.false_ne_true, List.all_eq_true] at h
      rw [skipWhitespace, hjson5, if_neg Bool.false_ne_true, Prog.modify_apply]
      have hrest : line.dropWhile isWhitespace = [] := List.dropWhile_eq_nil_iff.mpr h
      simp only [hrest]

/-- A blank line is no text. -/
theorem not_reads_blank {line : Bytes} (h : isBlankLine cfg line = true) (value : Ast) :
    ¬ReadsAlone platform cfg line value := by
  intro hread
  obtain ⟨rest, _, hvalue, -, -⟩ := (readText_eq_ok rfl).mp hread
  rw [readValue_line] at hvalue
  have hskip : Prog.Yields (skipWhitespace cfg 0 { rest := line }) fun _ r => r.rest = [] := by
    rw [skip_blank h]
    exact Prog.yields_ok rfl
  have hends : Prog.Yields (readValue skipWhitespace platform cfg 0 line.length { rest := line }) fun _ _ => False :=
    readValue_ends (show ([] : Bytes).headD 0 < 0x20 by decide) hskip
  exact hends _ _ hvalue

/-- Without extensions a byte order mark begins no text. -/
theorem not_reads_bom (hjson5 : cfg.json5 = false) {line : Bytes} (h : startsWithUtf8Bom line = true) (value : Ast) :
    ¬ReadsAlone platform cfg line value := by
  intro hread
  obtain ⟨rest, rfl⟩ := startsWithUtf8Bom_iff.mp h
  obtain ⟨left, _, hvalue, -, -⟩ := (readText_eq_ok rfl).mp hread
  have hskip : skipWhitespace cfg 0 { rest := 0xEF :: 0xBB :: 0xBF :: rest } =
      .ok ((), { rest := 0xEF :: 0xBB :: 0xBF :: rest }) := by
    rw [skipWhitespace, hjson5, if_neg Bool.false_ne_true, Prog.modify_apply]
    rfl
  have hunexpected : ∀ element, readValueAt skipWhitespace platform cfg 0 0 element .unexpectedValueCharacter 0xEF =
      failHere .unexpectedValueCharacter := fun element => by
    rw [readValueAt, if_neg (by decide), if_neg (by decide), if_neg (by decide), if_neg (by decide),
      if_neg (by decide), if_neg (by simp [hjson5]), if_neg (by simp [hjson5])]
  have hnoend : ¬((0xEF : UInt8) = 0 ∧ atEnd 0 { rest := 0xEF :: 0xBB :: 0xBF :: rest } = true) :=
    fun h => absurd h.1 (by decide)
  rw [readValue_line, readValue, Prog.bind_of_ok hskip, bind_peek, here, List.headD_cons, Prog.bind_get,
    if_neg hnoend, hunexpected] at hvalue
  cases hvalue

end Reading

open Reading

/-! ### The reader -/

/-- `std::getline` up to a line feed: the line, where there is one before the end of the stream or before it goes
bad. -/
def IStream.getline (stream : IStream) : Option Bytes × IStream :=
  match stream.rest.dropWhile (· != 0x0A) with
  | _ :: rest => (some (stream.rest.takeWhile (· != 0x0A)), { stream with rest })
  | [] =>
    if stream.rest = [] ∨ stream.broken = true then (none, { stream with rest := [] })
    else (some stream.rest, { stream with rest := [] })

/-- The fields of `JsonlReader`, and `out`, the document that the running call's reference argument names. -/
structure JsonlReader where
  mIn : IStream
  mStarted : Bool := false
  mLine : Bytes := []
  mError : Option StreamError := none
  out : Document := { buffer := [], root := .null }

namespace JsonlReader

/-- `m_error = error; return false;` -/
def fail (error : StreamError) : Prog JsonlReader Unit := do
  .modify fun s => { s with mError := some error }
  .halt

/-- `is_blank` -/
def isBlank (line : Bytes) : Bool := line.all isWhitespace

section

variable (platform : Platform) (cfg : Config)

/-- The loop of `next` behind a line that `std::getline` has read: a mark at the start of the stream is dropped,
at the start of any other line it is an error. -/
def nextLine (again : Prog JsonlReader Unit) (line : Bytes) : Prog JsonlReader Unit := do
  let s ← .get
  let line := withoutReturn line
  let line := if !s.mStarted && cfg.stripBom && startsWithUtf8Bom line then line.drop 3 else line
  .modify fun s => { s with mStarted := true, mLine := line }
  if cfg.stripBom && startsWithUtf8Bom line then
    fail (.kernel { code := .unexpectedValueCharacter, positioned := true })
  else if isBlank line then again
  else
    match parseCopy platform cfg line with
    | .ok document => .modify fun s => { s with out := document }
    | .error error => fail (.kernel error)
    | .stuck => .stuck

/-- The loop of `next`; every round of it consumes a line. -/
def nextLoop : Nat → Prog JsonlReader Unit
  | 0 => .stuck
  | fuel + 1 => do
    let s ← .get
    match s.mIn.getline with
    | (some line, stream) => do
      .modify fun s => { s with mIn := stream }
      nextLine platform cfg (nextLoop fuel) line
    | (none, stream) => do
      .modify fun s => { s with mIn := stream, mLine := [] }
      if stream.broken then fail .streamReadFailed else .halt

/-- `next` -/
def next : Prog JsonlReader Unit := do
  let s ← .get
  if s.mError.isSome then .halt
  else nextLoop platform cfg (s.mIn.rest.length + 1)

/-- `count` calls of `next` on a reader over this input. -/
def pulls (input : Bytes) : Nat → Option (List (Option Document) × JsonlReader) :=
  Prog.calls (next platform cfg) out { mIn := { rest := input } }

end

variable {platform : Platform} {cfg : Config}

/-! ### Lines -/

/-- The configuration with the grammar of RFC 8259. -/
def rfcConfig (cfg : Config) : Config := { cfg with json5 := false }

theorem isBlankLine_rfc (line : Bytes) : isBlankLine (rfcConfig cfg) line = isBlank line := rfl

theorem getline_nil : IStream.getline { rest := [] } = (none, { rest := [] }) := rfl

theorem getline_eq {text : Bytes} (h : text ≠ []) :
    IStream.getline { rest := text } = (some (text.takeWhile (· != 0x0A)), { rest := linesAfter text }) := by
  have hsplit := List.takeWhile_append_dropWhile (p := (· != (0x0A : UInt8))) (l := text)
  rw [IStream.getline, linesAfter]
  cases hrest : text.dropWhile (· != 0x0A) with
  | cons c rest => rfl
  | nil =>
      have hgood : ¬(text = [] ∨ false = true) := by simpa using h
      rw [hrest, List.append_nil] at hsplit
      rw [hsplit]
      exact if_neg hgood

/-- A reader that has neither failed nor reached its end; the rest of its state is not read again. -/
structure Serving (text : Bytes) (s : JsonlReader) : Prop where
  stream : s.mIn = { rest := text }
  started : s.mStarted = true
  error : s.mError = none

/-- A line is parsed to this document, and has no byte order mark where marks are dropped. -/
def Serves (platform : Platform) (cfg : Config) (line : Bytes) (document : Document) : Prop :=
  (cfg.stripBom && startsWithUtf8Bom line) = false ∧ parseCopy platform cfg line = .ok document

/-- How the calls of a reader end that has these lines in front of it: behind a document for each of them, or with
an error when one of them has none. Every later call ends in the same way. -/
def Outcome (platform : Platform) (cfg : Config) (lines : List Bytes) (run : Res JsonlReader (Unit × JsonlReader)) :
    Prop :=
  ∃ documents q, Prog.LeadsTo (next platform cfg) out run documents (.error q) ∧ next platform cfg q = .error q ∧
    ((q.mError = none ∧ List.Forall₂ (Serves platform cfg) lines documents) ∨
      (q.mError.isSome = true ∧ ∀ documents, ¬List.Forall₂ (Serves platform cfg) lines documents))

theorem next_of_serving {text : Bytes} {s : JsonlReader} (h : Serving text s) :
    next platform cfg s = nextLoop platform cfg (text.length + 1) s := by
  rw [next, Prog.bind_get, h.error, h.stream]
  rfl

theorem outcome_fail {line : Bytes} {lines : List Bytes} (error : StreamError) (s : JsonlReader)
    (h : ∀ document, ¬Serves platform cfg line document) :
    Outcome platform cfg (line :: lines) (fail error s) := by
  refine ⟨[], { s with mError := some error }, .refl _, rfl, .inr ⟨rfl, fun documents hserves => ?_⟩⟩
  obtain ⟨document, _, hline, -⟩ := List.forall₂_cons_left_iff.mp hserves
  exact h document hline

theorem outcome_served {line : Bytes} {lines : List Bytes} {s : JsonlReader}
    (hline : Serves platform cfg line s.out) (h : Outcome platform cfg lines (next platform cfg s)) :
    Outcome platform cfg (line :: lines) (.ok ((), s)) := by
  obtain ⟨documents, q, hleads, hstop, hends⟩ := h
  refine ⟨s.out :: documents, q, .step hleads, hstop, ?_⟩
  rcases hends with ⟨hclean, hserves⟩ | ⟨herror, hnone⟩
  · exact .inl ⟨hclean, .cons hline hserves⟩
  · refine .inr ⟨herror, fun documents hserves => ?_⟩
    obtain ⟨_, rest, -, hrest, -⟩ := List.forall₂_cons_left_iff.mp hserves
    exact hnone rest hrest

theorem not_isBlank_bom {line : Bytes} (h : startsWithUtf8Bom line = true) : isBlank line = false := by
  have htake := beq_iff_eq.mp h
  cases line with
  | nil => cases htake
  | cons c line =>
      obtain rfl : c = 0xEF := (List.cons.inj htake).1
      rfl

/-- A line that is read, and the lines behind it. -/
theorem outcome_line {text raw line : Bytes} {fuel : Nat} {s : JsonlReader} (hstream : s.mIn = { rest := text })
    (herror : s.mError = none) (hfuel : text.length < fuel)
    (hline : (if !s.mStarted && cfg.stripBom && startsWithUtf8Bom (withoutReturn raw) then
      (withoutReturn raw).drop 3 else withoutReturn raw) = line)
    (hrest : ∀ {s fuel}, Serving text s → text.length < fuel →
      Outcome platform cfg (linesOf (rfcConfig cfg) text) (nextLoop platform cfg fuel s)) :
    Outcome platform cfg
      (if isBlank line then linesOf (rfcConfig cfg) text else line :: linesOf (rfcConfig cfg) text)
      (nextLine platform cfg (nextLoop platform cfg fuel) raw s) := by
  obtain ⟨s', hs'⟩ : ∃ s' : JsonlReader, s' = { s with mStarted := true, mLine := line } := ⟨_, rfl⟩
  have hserving : Serving text s' := by
    rw [hs']
    exact ⟨hstream, rfl, herror⟩
  rw [nextLine, Prog.bind_get, Prog.bind_modify, hline, ← hs']
  cases hbom : cfg.stripBom && startsWithUtf8Bom line with
  | true =>
      have hblank : isBlank line = false := not_isBlank_bom (Bool.and_eq_true_iff.mp hbom).2
      rw [if_pos rfl, hblank, if_neg Bool.false_ne_true]
      refine outcome_fail _ s' fun document hserves => ?_
      exact absurd (hbom.symm.trans hserves.1) (by decide)
  | false =>
      rw [if_neg Bool.false_ne_true]
      cases hblank : isBlank line with
      | true =>
          rw [if_pos rfl, if_pos rfl]
          exact hrest hserving hfuel
      | false =>
          rw [if_neg Bool.false_ne_true, if_neg Bool.false_ne_true]
          cases hparse : parseCopy platform cfg line with
          | stuck => exact absurd hparse (parseCopy_ne_stuck line)
          | error error =>
              refine outcome_fail _ s' fun document hserves => ?_
              rw [hserves.2] at hparse
              cases hparse
          | ok document =>
              have hnext : Serving text { s' with out := document } :=
                ⟨hserving.stream, hserving.started, hserving.error⟩
              refine outcome_served (s := { s' with out := document }) ⟨hbom, hparse⟩ ?_
              rw [next_of_serving hnext]
              exact hrest hnext (Nat.lt_succ_self _)

theorem outcome_end {fuel : Nat} {s : JsonlReader} (hstream : s.mIn = { rest := [] }) (herror : s.mError = none) :
    Outcome platform cfg [] (nextLoop platform cfg (fuel + 1) s) := by
  refine ⟨[], { s with mIn := { rest := [] }, mLine := [] }, ?_, ?_, .inl ⟨herror, .nil⟩⟩
  · rw [nextLoop, Prog.bind_get, hstream, getline_nil]
    exact .refl _
  · rw [next, Prog.bind_get, herror]
    rfl

theorem nextLoop_line {text : Bytes} (h : text ≠ []) {fuel : Nat} {s : JsonlReader}
    (hstream : s.mIn = { rest := text }) : nextLoop platform cfg (fuel + 1) s =
      nextLine platform cfg (nextLoop platform cfg fuel) (text.takeWhile (· != 0x0A))
        { s with mIn := { rest := linesAfter text } } := by
  rw [nextLoop, Prog.bind_get, hstream, getline_eq h]
  rfl

/-- The lines of a text are served in order, up to the first that has no document. -/
theorem outcome_lines {text : Bytes} {fuel : Nat} {s : JsonlReader} (h : Serving text s)
    (hfuel : text.length < fuel) :
    Outcome platform cfg (linesOf (rfcConfig cfg) text) (nextLoop platform cfg fuel s) := by
  induction hlength : text.length using Nat.strong_induction_on generalizing text fuel s with
  | _ length ih =>
      obtain ⟨fuel, rfl⟩ : ∃ k, fuel = k + 1 := ⟨fuel - 1, by omega⟩
      by_cases hnil : text = []
      · subst hnil
        rw [linesOf_nil]
        exact outcome_end h.stream h.error
      have hshorter : (linesAfter text).length < length := hlength ▸ length_linesAfter hnil
      rw [nextLoop_line hnil h.stream, linesOf_eq, isBlankLine_rfc]
      refine outcome_line rfl h.error (by omega) ?_ fun hnext hfuel => ih _ hshorter hnext hfuel rfl
      have hstarted : (!s.mStarted && cfg.stripBom && startsWithUtf8Bom (lineOf text)) = false := by
        rw [h.started, Bool.not_true, Bool.false_and, Bool.false_and]
      exact if_neg (by rw [← lineOf, hstarted]; decide)

/-! ### The start of the stream -/

theorem lineOf_bom (rest : Bytes) :
    lineOf (0xEF :: 0xBB :: 0xBF :: rest) = 0xEF :: 0xBB :: 0xBF :: lineOf rest ∧
      linesAfter (0xEF :: 0xBB :: 0xBF :: rest) = linesAfter rest := by
  refine ⟨?_, rfl⟩
  have htake : (0xEF :: 0xBB :: 0xBF :: rest).takeWhile (· != (0x0A : UInt8)) =
      0xEF :: 0xBB :: 0xBF :: rest.takeWhile (· != 0x0A) := rfl
  rw [lineOf, lineOf, htake]
  cases rest.takeWhile (· != 0x0A) with
  | nil => rfl
  | cons c line =>
      rw [withoutReturn, withoutReturn, List.getLast?_cons_cons, List.getLast?_cons_cons, List.getLast?_cons_cons]
      split <;> rfl

theorem startsWithUtf8Bom_lineOf (text : Bytes) : startsWithUtf8Bom (lineOf text) = startsWithUtf8Bom text := by
  rw [Bool.eq_iff_iff, startsWithUtf8Bom_iff, startsWithUtf8Bom_iff]
  constructor
  · rintro ⟨rest, hline⟩
    have hsplit := text_eq text
    rw [hline] at hsplit
    exact ⟨rest ++ (lineEnd text ++ linesAfter text), hsplit⟩
  · rintro ⟨rest, rfl⟩
    exact ⟨lineOf rest, (lineOf_bom rest).1⟩

/-- The mark in front of the first line is the mark in front of the text. -/
theorem firstLine_eq (text : Bytes) :
    (if cfg.stripBom && startsWithUtf8Bom (lineOf text) then (lineOf text).drop 3 else lineOf text) =
        lineOf (dropBom cfg text) ∧ linesAfter text = linesAfter (dropBom cfg text) := by
  rw [startsWithUtf8Bom_lineOf, dropBom_eq]
  split
  · rename_i hbom
    obtain ⟨rest, rfl⟩ := startsWithUtf8Bom_iff.mp (Bool.and_eq_true_iff.mp hbom).2
    rw [(lineOf_bom rest).1, (lineOf_bom rest).2]
    exact ⟨rfl, rfl⟩
  · exact ⟨rfl, rfl⟩

theorem outcome_start (input : Bytes) :
    Outcome platform cfg (linesOf (rfcConfig cfg) (dropBom cfg input))
      (next platform cfg { mIn := { rest := input } }) := by
  have hstart : next platform cfg { mIn := { rest := input } } =
      nextLoop platform cfg (input.length + 1) { mIn := { rest := input } } := rfl
  rw [hstart]
  by_cases hnil : input = []
  · have hbehind : dropBom cfg [] = [] := by
      rw [dropBom]
      split <;> rfl
    subst hnil
    rw [hbehind, linesOf_nil]
    exact outcome_end rfl rfl
  · obtain ⟨hline, hafter⟩ := @firstLine_eq cfg input
    rw [nextLoop_line hnil rfl, linesOf_eq, isBlankLine_rfc, ← hafter]
    exact outcome_line rfl rfl (length_linesAfter hnil) hline fun hnext hfuel => outcome_lines hnext hfuel

/-! ### Against `parse_jsonl` -/

/-- Every line is blank for the reader when it is blank for `parse_jsonl`, and none has a mark where marks are
dropped. Without extensions the former is always so. -/
def PlainLines (cfg : Config) (text : Bytes) : Prop :=
  ∀ line ∈ (text.splitOn 0x0A).map withoutReturn,
    (isBlankLine cfg line = true → isBlank line = true) ∧ (cfg.stripBom && startsWithUtf8Bom line) = false

theorem isBlankLine_of_isBlank {line : Bytes} (h : isBlank line = true) : isBlankLine cfg line = true := by
  rw [isBlankLine]
  split
  · have hblank : ∀ {line : Bytes} {fuel : Nat}, isBlank line = true → line.length < fuel →
        isBlankJson5 fuel line = true := by
      intro line
      induction line with
      | nil =>
          intro fuel _ hfuel
          obtain ⟨fuel, rfl⟩ : ∃ k, fuel = k + 1 := ⟨fuel - 1, by omega⟩
          rfl
      | cons c line ih =>
          intro fuel hline hfuel
          obtain ⟨fuel, rfl⟩ : ∃ k, fuel = k + 1 := ⟨fuel - 1, by omega⟩
          rw [isBlank, List.all_cons, Bool.and_eq_true] at hline
          have hascii : c < 0x80 := by
            rcases isWhitespace_iff.mp hline.1 with rfl | rfl | rfl | rfl <;> decide
          rw [isBlankJson5, if_pos hascii, isJson5WhitespaceAscii, hline.1, Bool.true_or, Bool.true_or,
            Bool.true_and]
          exact ih hline.2 (Nat.lt_of_succ_lt_succ hfuel)
    exact hblank h (Nat.lt_succ_self _)
  · exact h

theorem mem_linesOf {text line : Bytes} :
    line ∈ linesOf cfg text ↔ line ∈ (text.splitOn 0x0A).map withoutReturn ∧ isBlankLine cfg line = false := by
  rw [linesOf, List.mem_filter, Bool.not_eq_true']

/-- Lines that are blank for both are left out by both. -/
theorem linesOf_rfc {text : Bytes} (h : ∀ line ∈ (text.splitOn 0x0A).map withoutReturn,
    isBlankLine cfg line = true → isBlank line = true) : linesOf (rfcConfig cfg) text = linesOf cfg text := by
  refine List.filter_congr fun line hmem => congrArg not ?_
  rw [isBlankLine_rfc, Bool.eq_iff_iff]
  exact ⟨isBlankLine_of_isBlank, h line hmem⟩

theorem serves_iff {line : Bytes} {tree : Json Bytes} (h : (cfg.stripBom && startsWithUtf8Bom line) = false) :
    (∃ document, Serves platform cfg line document ∧ document.tree = tree) ↔
      Parses platform (lineConfig cfg) line tree := by
  have hparses : Parses platform cfg line tree ↔ Parses platform (lineConfig cfg) line tree := by
    rw [parses_iff, parses_iff, readText_unmarked h]
    rfl
  rw [← hparses]
  exact ⟨fun ⟨document, hserves, htree⟩ => ⟨document, hserves.2, htree⟩,
    fun ⟨document, hparse, htree⟩ => ⟨document, ⟨h, hparse⟩, htree⟩⟩

theorem parses_line {line : Bytes} {tree : Json Bytes} (h : Parses platform (lineConfig cfg) line tree) :
    isBlankLine cfg line = false ∧ (cfg.json5 = false → startsWithUtf8Bom line = false) := by
  obtain ⟨-, value, r, hread, -⟩ := parses_iff.mp h
  refine ⟨?_, fun hjson5 => ?_⟩
  · by_contra hblank
    exact not_reads_blank (Bool.not_eq_false _ ▸ hblank) value ⟨r, hread⟩
  · by_contra hbom
    exact not_reads_bom hjson5 (Bool.not_eq_false _ ▸ hbom) value ⟨r, hread⟩

/-- The lines of the reader have documents with these trees exactly when the lines of `parse_jsonl` have these
trees and, with extensions, the two tell the same lines. -/
theorem serves_lines_iff {text : Bytes} {trees : List (Json Bytes)} :
    (∃ documents, List.Forall₂ (Serves platform cfg) (linesOf (rfcConfig cfg) text) documents ∧
        documents.map Document.tree = trees) ↔
      List.Forall₂ (Parses platform (lineConfig cfg)) (linesOf cfg text) trees ∧
        (cfg.json5 = true → PlainLines cfg text) := by
  constructor
  · rintro ⟨documents, hserves, rfl⟩
    have hserved : ∀ line ∈ linesOf (rfcConfig cfg) text, ∃ document, Serves platform cfg line document :=
      exists_of_forall₂ hserves
    have hplain : PlainLines cfg text := fun line hmem => by
      cases hblank : isBlank line with
      | true =>
          refine ⟨fun _ => rfl, ?_⟩
          cases hbom : startsWithUtf8Bom line with
          | false => rw [Bool.and_false]
          | true => exact absurd ((not_isBlank_bom hbom).symm.trans hblank) Bool.false_ne_true
      | false =>
          obtain ⟨document, hdocument⟩ := hserved line (mem_linesOf.mpr ⟨hmem, hblank⟩)
          have hparses := (serves_iff hdocument.1).mp ⟨document, hdocument, rfl⟩
          refine ⟨fun hblank' => ?_, hdocument.1⟩
          exact absurd ((parses_line hparses).1.symm.trans hblank') Bool.false_ne_true
    refine ⟨?_, fun _ => hplain⟩
    rw [← linesOf_rfc fun line hmem => (hplain line hmem).1, List.forall₂_map_right_iff]
    exact hserves.imp fun line document hdocument => (serves_iff hdocument.1).mp ⟨document, hdocument, rfl⟩
  · rintro ⟨hparses, hplain⟩
    have hsame : linesOf (rfcConfig cfg) text = linesOf cfg text := by
      cases hjson5 : cfg.json5 with
      | true => exact linesOf_rfc fun line hmem => (hplain hjson5 line hmem).1
      | false => exact linesOf_rfc fun line _ => by rw [isBlankLine, hjson5]; exact id
    have hunmarked : ∀ line ∈ linesOf cfg text, (cfg.stripBom && startsWithUtf8Bom line) = false := by
      intro line hmem
      cases hjson5 : cfg.json5 with
      | true => exact (hplain hjson5 line (mem_linesOf.mp hmem).1).2
      | false =>
          obtain ⟨tree, htree⟩ := exists_of_forall₂ hparses line hmem
          rw [(parses_line htree).2 hjson5, Bool.and_false]
    rw [hsame, ← forall₂_exists_iff]
    exact (forall₂_congr_mem fun line hmem tree => serves_iff (hunmarked line hmem)).mpr hparses

/-- A `JsonlReader` over an input, pulled until it stops, yields one document for each line and then fails in every
further call. It has no error exactly when `parse_jsonl` accepts the input, and the trees of its documents are then
the elements of that array. With extensions this needs lines that the two take for the same: the reader does not
know the whitespace of JSON5, and takes a byte order mark that is whitespace there for an error. -/
theorem pulls_parseJsonl (platform : Platform) (cfg : Config) (input : Bytes) :
    ∃ (documents : List Document) (s : JsonlReader),
      (∀ failures, pulls platform cfg input (documents.length + failures + 1) =
          some (documents.map some ++ List.replicate (failures + 1) none, s)) ∧
      ∀ trees, (paddedFits input.length = true ∧ s.mError = none ∧ documents.map Document.tree = trees) ↔
        ParsesLines platform cfg input trees ∧ (cfg.json5 = true → PlainLines cfg (dropBom cfg input)) := by
  obtain ⟨documents, s, hleads, hstop, hends⟩ := @outcome_start platform cfg input
  refine ⟨documents, s, fun failures => ?_, fun trees => ?_⟩
  · have hcalls : pulls platform cfg input (documents.length + 1) = some (documents.map some ++ [none], s) :=
      Prog.calls_ends hleads
    have hstopped := Prog.calls_stopped hcalls hstop failures
    rw [List.append_assoc, List.singleton_append, ← List.replicate_succ, Nat.add_right_comm] at hstopped
    exact hstopped
  · rw [parsesLines_iff_lines, and_assoc, ← serves_lines_iff]
    refine and_congr_right fun _ => ?_
    rcases hends with ⟨hclean, hserves⟩ | ⟨herror, hnone⟩
    · have hunique : Relator.RightUnique (Serves platform cfg) := fun _ _ _ h h' =>
        Res.ok.inj (h.2.symm.trans h'.2)
      constructor
      · exact fun h => ⟨documents, hserves, h.2⟩
      · rintro ⟨documents', hserves', rfl⟩
        rw [List.right_unique_forall₂' hunique hserves hserves']
        exact ⟨hclean, rfl⟩
    · refine iff_of_false (fun h => ?_) fun ⟨documents', hserves', _⟩ => hnone documents' hserves'
      rw [h.1] at herror
      cases herror

end JsonlReader

end PjhJson
