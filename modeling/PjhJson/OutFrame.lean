import PjhJson.LibFrame
import PjhJson.ValueAhead

/-! What a failed parse leaves in the caller's `out`. The container parsers store into it as their
last step and their elements are stored in the container, so below a container nothing reaches it. -/

namespace PjhJson

open Grammar Prog

variable {platform : Platform} {cfg : Config}

namespace Parser

/-- `out` is untouched. -/
abbrev KeepsOut {α : Type} (program : Prog Parser α) : Prop := Keeps Parser.out program

/-- A failure leaves `out` untouched. -/
abbrev FailsClean {α : Type} (program : Prog Parser α) : Prop := KeepsOnFailure Parser.out program

variable {α : Type}

/-! ### Steps that do not write a value -/

theorem keepsOut_peek : KeepsOut peek := by
  intro p
  unfold peek
  split
  · rfl
  · trivial

theorem keepsOut_load (length : Nat) : KeepsOut (load length) := by
  intro p
  unfold load
  split
  · rfl
  · trivial

theorem keepsOut_store (dst : Nat) (written : Bytes) : KeepsOut (store dst written) := by
  intro p
  unfold store
  split
  · rfl
  · trivial

theorem keepsOut_characters (borrowed : View) : KeepsOut (characters borrowed) := by
  intro p
  unfold characters
  split
  · rfl
  · trivial

theorem keepsOut_setCurr (pos : Nat) : KeepsOut (setCurr pos) := fun _ => rfl

theorem keepsOut_advance (count : Nat) : KeepsOut (advance count) := fun _ => rfl

theorem keepsOut_advanceTo (rest : Bytes) : KeepsOut (advanceTo rest) := fun _ => rfl

theorem keepsOut_recordError (error : Error) : KeepsOut (recordError error) := by
  refine keeps_modify fun p => ?_
  split <;> rfl

theorem keepsOut_record (code : ErrorCode) (pos : Nat) : KeepsOut (record code pos) :=
  keeps_bind keeps_get fun _ => keepsOut_recordError _

theorem keepsOut_fail (code : ErrorCode) (pos : Nat) : KeepsOut (fail code pos : Prog Parser α) :=
  keeps_bind (keepsOut_record code pos) fun _ => keeps_halt

theorem keepsOut_failHere (code : ErrorCode) : KeepsOut (failHere code : Prog Parser α) :=
  keeps_bind keeps_get fun _ => keepsOut_fail code _

theorem keepsOut_failContext (code : ErrorCode) (detail : Bytes) :
    KeepsOut (failContext code detail : Prog Parser α) :=
  keeps_bind (keepsOut_recordError _) fun _ => keeps_halt

/-- The element has an `out` of its own. -/
theorem keepsOut_withElement (initial : Json View) (element : Prog Parser Unit) :
    KeepsOut (withElement initial element) := by
  intro p
  unfold withElement
  cases element { p with out := initial } with
  | ok pair => rfl
  | error q => rfl
  | stuck => trivial

/-! ### Whitespace -/

theorem keepsOut_skipWhitespace : KeepsOut (skipWhitespace platform cfg) := by
  unfold skipWhitespace
  refine keeps_ite ?_ (keeps_bind keepsOut_peek fun c => keeps_ite ?_ (keeps_pure _))
  · refine keeps_bind keeps_get fun p => ?_
    split
    · exact keeps_stuck
    · refine keeps_bind (keepsOut_advanceTo _) fun _ => keeps_ite ?_ (keeps_pure _)
      exact keepsOut_record _ _
  · refine keeps_bind keeps_get fun p => ?_
    split
    · exact keepsOut_setCurr _
    · exact keeps_stuck

/-! ### Strings -/

theorem keepsOut_checkUtf8 (start : Nat) (ck : Utf8Checker) : KeepsOut (checkUtf8 start ck) :=
  keeps_ite (keepsOut_fail _ _) (keeps_pure _)

theorem keepsOut_decodeEscape (text : Parser → Bytes)
    (decoder : Bytes → Res EscapeError (Bytes × Bytes)) (dst : Nat) :
    KeepsOut (decodeEscape text decoder dst) := by
  refine keeps_bind keeps_get fun p => ?_
  split
  · exact keeps_stuck
  · exact keepsOut_failContext _ _
  · exact keepsOut_fail _ _
  · exact keeps_bind (keepsOut_store _ _) fun _ => keeps_bind (keepsOut_setCurr _) fun _ =>
      keeps_pure _

theorem keepsOut_decodeLoop (start fuel dst : Nat) (ck : Utf8Checker) :
    KeepsOut (decodeLoop cfg start fuel dst ck) := by
  induction fuel generalizing dst ck with
  | zero => exact keeps_stuck
  | succ fuel ih =>
      unfold decodeLoop
      refine keeps_bind keepsOut_peek fun c => keeps_ite ?_ (keeps_bind keeps_get fun p => ?_)
      · exact keeps_bind (keepsOut_checkUtf8 _ _) fun _ => keeps_bind (keepsOut_advance 1) fun _ =>
          keeps_pure _
      · refine keeps_bind (keepsOut_checkUtf8 _ _) fun _ => keeps_ite ?_ (keeps_ite ?_ ?_)
        · exact keeps_bind (keepsOut_decodeEscape _ _ _) fun dst => ih dst _
        · exact keepsOut_failHere _
        · exact keeps_bind (keepsOut_store _ _) fun _ => keeps_bind (keepsOut_advance 1) fun _ =>
            ih _ _

theorem keepsOut_stringLoopJson5 (quote : UInt8) (start fuel : Nat) (dst : Option Nat)
    (ck : Utf8Checker) : KeepsOut (stringLoopJson5 cfg quote start fuel dst ck) := by
  induction fuel generalizing dst ck with
  | zero => exact keeps_stuck
  | succ fuel ih =>
      unfold stringLoopJson5
      refine keeps_bind keeps_get fun p => keeps_ite (keepsOut_failHere _) ?_
      refine keeps_bind keepsOut_peek fun c => keeps_ite ?_ ?_
      · exact keeps_bind (keepsOut_checkUtf8 _ _) fun _ => keeps_bind (keepsOut_advance 1) fun _ =>
          keeps_pure _
      refine keeps_bind (keepsOut_checkUtf8 _ _) fun _ => keeps_ite ?_ (keeps_ite ?_ ?_)
      · exact keeps_bind (keepsOut_decodeEscape _ _ _) fun dst => ih _ _
      · exact keepsOut_failHere _
      · cases dst with
        | none => exact keeps_bind (keepsOut_advance 1) fun _ => ih _ _
        | some dst =>
            exact keeps_bind (keepsOut_store _ _) fun _ => keeps_bind (keepsOut_advance 1) fun _ =>
              ih _ _

theorem keepsOut_parseStringJson5 (quote : UInt8) : KeepsOut (parseStringJson5 cfg quote) :=
  keeps_bind (keepsOut_advance 1) fun _ => keeps_bind keeps_get fun _ =>
    keepsOut_stringLoopJson5 _ _ _ _ _

theorem keepsOut_parseStringBody : KeepsOut (parseStringBody platform cfg) := by
  refine keeps_bind keeps_get fun start => keeps_bind ?_ fun _ => ?_
  · refine keeps_bind keeps_get fun p => ?_
    split
    · exact keepsOut_setCurr _
    · exact keeps_stuck
  refine keeps_bind keeps_get fun p => keeps_bind keepsOut_peek fun c => keeps_ite ?_ (keeps_ite ?_ ?_)
  · exact keeps_bind (keepsOut_checkUtf8 _ _) fun _ => keeps_bind (keepsOut_advance 1) fun _ =>
      keeps_pure _
  · exact keeps_bind (keepsOut_checkUtf8 _ _) fun _ => keepsOut_decodeLoop _ _ _ _
  · exact keeps_ite (keepsOut_failHere _) (keepsOut_failHere _)

theorem keepsOut_parseString : KeepsOut (parseString platform cfg) := by
  refine keeps_bind keeps_get fun p => keeps_ite (keepsOut_failHere _) ?_
  refine keeps_bind keepsOut_peek fun c => keeps_ite (keepsOut_failHere _) ?_
  refine keeps_ite (keepsOut_parseStringJson5 _) ?_
  exact keeps_bind (keepsOut_advance 1) fun _ => keepsOut_parseStringBody

theorem keepsOut_identifierLoop (fuel : Nat) (first : Bool) (dst : Option Nat) :
    KeepsOut (identifierLoop fuel first dst) := by
  induction fuel generalizing first dst with
  | zero => exact keeps_stuck
  | succ fuel ih =>
      unfold identifierLoop
      refine keeps_bind keeps_get fun p => ?_
      split
      · exact keeps_pure _
      refine keeps_ite (keeps_pure _) (keeps_ite ?_ ?_)
      · split
        · exact keepsOut_failContext _ _
        · exact keeps_bind (keepsOut_store _ _) fun _ => keeps_bind (keepsOut_advanceTo _) fun _ =>
            ih _ _
      · cases dst with
        | none => exact keeps_bind (keepsOut_advanceTo _) fun _ => ih _ _
        | some dst =>
            exact keeps_bind (keepsOut_store _ _) fun _ => keeps_bind (keepsOut_advanceTo _) fun _ =>
              ih _ _

theorem keepsOut_parseIdentifierKey : KeepsOut parseIdentifierKey := by
  refine keeps_bind keeps_get fun _ => keeps_bind keeps_get fun _ => ?_
  refine keeps_bind (keepsOut_identifierLoop _ _ _) fun last => keeps_bind keeps_get fun p => ?_
  exact keeps_ite (keepsOut_failHere _) (keeps_pure _)

/-! ### Containers -/

theorem keepsOut_atByte (c : UInt8) : KeepsOut (atByte c) :=
  keeps_bind keeps_get fun _ => keeps_ite (keeps_pure _) (keeps_bind keepsOut_peek fun _ =>
    keeps_pure _)

theorem keepsOut_closedAfterComma (c : UInt8) : KeepsOut (closedAfterComma platform cfg c) :=
  keeps_ite (keeps_bind keepsOut_skipWhitespace fun _ => keepsOut_atByte c) (keeps_pure _)

theorem keepsOut_checkDepth : KeepsOut (checkDepth cfg) :=
  keeps_bind keeps_get fun _ => keeps_ite (keepsOut_failHere _) (keeps_pure _)

theorem failsClean_withDepth {body : Prog Parser α} (h : FailsClean body) :
    FailsClean (withDepth body) := by
  intro p
  have hbody := h { p with mDepth := p.mDepth + 1 }
  unfold withDepth
  cases hrun : body { p with mDepth := p.mDepth + 1 } with
  | ok pair => trivial
  | error q =>
      rw [hrun] at hbody
      exact hbody
  | stuck => trivial

/-- The last step of a value: it is stored and nothing follows that could fail. -/
theorem failsClean_close (value : Json View) :
    FailsClean (do advance 1; setOut value : Prog Parser Unit) :=
  keepsOnFailure_bind (keepsOut_advance 1) fun _ => keepsOnFailure_modify _

theorem failsClean_arrayLoop (element : Prog Parser Unit) (fuel : Nat) (arr : List (Json View)) :
    FailsClean (arrayLoop platform cfg element fuel arr) := by
  induction fuel generalizing arr with
  | zero => exact keeps_stuck.onFailure
  | succ fuel ih =>
      unfold arrayLoop
      refine keepsOnFailure_bind (keepsOut_withElement _ _) fun value => ?_
      refine keepsOnFailure_bind keepsOut_skipWhitespace fun _ => ?_
      refine keepsOnFailure_bind keepsOut_peek fun c => ?_
      refine keepsOnFailure_ite (failsClean_close _) (keepsOnFailure_ite ?_ ?_)
      · refine keepsOnFailure_bind (keepsOut_advance 1) fun _ => ?_
        refine keepsOnFailure_bind (keepsOut_closedAfterComma _) fun closed => ?_
        exact keepsOnFailure_ite (failsClean_close _) (ih _)
      · exact (keepsOut_failHere _).onFailure

theorem failsClean_parseArrayInplace (element : Prog Parser Unit) :
    FailsClean (parseArrayInplace platform cfg element) := by
  refine keepsOnFailure_bind keepsOut_checkDepth fun _ => failsClean_withDepth ?_
  refine keepsOnFailure_bind (keepsOut_advance 1) fun _ => ?_
  refine keepsOnFailure_bind keepsOut_skipWhitespace fun _ => ?_
  refine keepsOnFailure_bind (keepsOut_atByte _) fun empty => ?_
  refine keepsOnFailure_ite (failsClean_close _) (keepsOnFailure_bind keeps_get fun _ => ?_)
  exact failsClean_arrayLoop _ _ _

theorem keepsOut_parseKey : KeepsOut (parseKey platform cfg) := by
  refine keeps_bind keeps_get fun p => keeps_ite ?_ ?_
  · refine keeps_bind keepsOut_peek fun c => keeps_ite (keepsOut_parseStringJson5 _) ?_
    exact keeps_ite keepsOut_parseIdentifierKey keepsOut_parseString
  · exact keeps_bind keepsOut_peek fun c => keeps_ite (keepsOut_failHere _) keepsOut_parseString

theorem keepsOut_checkDuplicateKey (members : Members) (key : View) :
    KeepsOut (checkDuplicateKey members key) := by
  unfold checkDuplicateKey
  split
  · exact keeps_pure _
  · exact keeps_bind keeps_get fun p => keeps_ite (keepsOut_failContext _ _) (keeps_pure _)

theorem keepsOut_parseMember (element : Prog Parser Unit) (members : Members) (key : View)
    (pos : Nat) : KeepsOut (parseMember element members key pos) := by
  unfold parseMember
  split
  · exact keeps_bind (keepsOut_withElement _ _) fun _ => keeps_pure _
  · exact keeps_bind (keepsOut_withElement _ _) fun _ => keeps_pure _

theorem keepsOut_objectMember (element : Prog Parser Unit) (members : Members) :
    KeepsOut (objectMember platform cfg element members) := by
  refine keeps_bind keepsOut_skipWhitespace fun _ => ?_
  refine keeps_bind keepsOut_parseKey fun key => keeps_bind (keepsOut_characters key) fun _ => ?_
  refine keeps_bind (keepsOut_checkDuplicateKey _ _) fun members => ?_
  refine keeps_bind keepsOut_skipWhitespace fun _ => keeps_bind keepsOut_peek fun c => ?_
  refine keeps_ite (keepsOut_failHere _) (keeps_bind (keepsOut_advance 1) fun _ => ?_)
  refine keeps_bind keeps_get fun p => ?_
  split
  · exact keeps_stuck
  · exact keepsOut_parseMember _ _ _ _

theorem failsClean_objectLoop (element : Prog Parser Unit) (fuel : Nat) (members : Members) :
    FailsClean (objectLoop platform cfg element fuel members) := by
  induction fuel generalizing members with
  | zero => exact keeps_stuck.onFailure
  | succ fuel ih =>
      unfold objectLoop
      refine keepsOnFailure_bind (keepsOut_objectMember _ _) fun members => ?_
      refine keepsOnFailure_bind keepsOut_skipWhitespace fun _ => ?_
      refine keepsOnFailure_bind keeps_get fun p => ?_
      refine keepsOnFailure_ite (keepsOut_failHere _).onFailure ?_
      refine keepsOnFailure_bind keepsOut_peek fun c => ?_
      refine keepsOnFailure_ite (failsClean_close _) (keepsOnFailure_ite ?_ ?_)
      · refine keepsOnFailure_bind (keepsOut_advance 1) fun _ => ?_
        refine keepsOnFailure_bind (keepsOut_closedAfterComma _) fun closed => ?_
        exact keepsOnFailure_ite (failsClean_close _) (ih _)
      · exact (keepsOut_failHere _).onFailure

theorem failsClean_parseObjectInplace (element : Prog Parser Unit) :
    FailsClean (parseObjectInplace platform cfg element) := by
  refine keepsOnFailure_bind keepsOut_checkDepth fun _ => failsClean_withDepth ?_
  refine keepsOnFailure_bind (keepsOut_advance 1) fun _ => ?_
  refine keepsOnFailure_bind keepsOut_skipWhitespace fun _ => ?_
  refine keepsOnFailure_bind keepsOut_peek fun c => keepsOnFailure_ite (failsClean_close _) ?_
  exact keepsOnFailure_bind keeps_get fun _ => failsClean_objectLoop _ _ _

/-! ### Values -/

theorem failsClean_setString {program : Prog Parser View} (h : KeepsOut program) :
    FailsClean (do setOut (.string (← program)) : Prog Parser Unit) :=
  keepsOnFailure_bind h fun _ => keepsOnFailure_modify _

theorem failsClean_parseNumber : FailsClean (parseNumber platform cfg) := by
  refine keepsOnFailure_bind keeps_get fun p => ?_
  split
  · exact (keepsOut_fail _ _).onFailure
  · exact keepsOnFailure_bind (keepsOut_advanceTo _) fun _ => keepsOnFailure_modify _

theorem keepsOut_matchLiteralHere : KeepsOut matchLiteralHere := by
  refine keeps_bind (keepsOut_load 4) fun val32 => keeps_ite (keeps_pure _) ?_
  refine keeps_ite (keeps_pure _) (keeps_bind (keepsOut_load 8) fun val64 => ?_)
  exact keeps_ite (keeps_pure _) (keepsOut_failHere _)

/-- JSON5 checks nothing behind a literal. -/
theorem failsClean_parseLiteral (h : cfg.json5 = true) : FailsClean (parseLiteral cfg) := by
  refine keepsOnFailure_bind keepsOut_matchLiteralHere fun result => ?_
  refine keepsOnFailure_bind (keepsOut_advance _) fun _ => ?_
  rw [h, if_neg (by decide)]
  exact fun p => trivial

theorem failsClean_parseValueAt (element : Prog Parser Unit) (unexpected : ErrorCode) {c : UInt8}
    (h : cfg.json5 = true ∨ ¬(c = ascii 't' ∨ c = ascii 'f' ∨ c = ascii 'n')) :
    FailsClean (parseValueAt platform cfg element unexpected c) := by
  unfold parseValueAt
  refine keepsOnFailure_ite (failsClean_parseObjectInplace _) ?_
  refine keepsOnFailure_ite (failsClean_parseArrayInplace _) ?_
  refine keepsOnFailure_ite (failsClean_setString keepsOut_parseString) ?_
  have hrest : FailsClean (if c = ascii '-' ∨ isDigit c then parseNumber platform cfg
      else if cfg.json5 ∧ c = ascii '\'' then do
        setOut (.string (← parseStringJson5 cfg (ascii '\'')))
      else if cfg.json5 ∧ (c = ascii '+' ∨ c = ascii '.' ∨ c = ascii 'I' ∨ c = ascii 'N') then
        parseNumber platform cfg
      else failHere unexpected) := by
    refine keepsOnFailure_ite failsClean_parseNumber ?_
    refine keepsOnFailure_ite (failsClean_setString (keepsOut_parseStringJson5 _)) ?_
    exact keepsOnFailure_ite failsClean_parseNumber (keepsOut_failHere _).onFailure
  rcases h with hjson5 | hc
  · exact keepsOnFailure_ite (failsClean_parseLiteral hjson5) hrest
  · rw [if_neg hc]
    exact hrest

end Parser

/-! ### Whole texts -/

namespace Parser

/-- A parser on a whole input, with what the caller has in `out`. -/
def ofText (json : Bytes) (assumePadded : Bool) (prior : Json View) : Parser where
  buffer := padded json
  mBegin := 0
  mCurr := 0
  mEnd := json.length
  mAssumePadded := assumePadded
  out := prior

variable {json : Bytes} {prior : Json View} {w : Window} {p : Parser} {r : Reading}

theorem tracks_ofText (json : Bytes) (assumePadded : Bool) (prior : Json View) :
    Tracks (Window.whole json) 0 (ofText json assumePadded prior) { rest := json } where
  unread := rfl
  curr := Nat.zero_add _
  last := rfl
  start := rfl
  depth := rfl
  error := rfl
  behind := List.drop_left
  inside := fun _ => List.drop_length

/-- What `parse` does behind the value. -/
def parseEnd (platform : Platform) (cfg : Config) : Prog Parser Unit := do
  failIfRecorded
  skipWhitespace platform cfg
  failIfRecorded
  let p ← .get
  if !p.atEnd then failHere .extraCharactersAfterValue

theorem keepsOut_failIfRecorded : KeepsOut failIfRecorded :=
  keeps_bind keeps_get fun _ => keeps_ite keeps_halt (keeps_pure _)

theorem keepsOut_parseEnd : KeepsOut (parseEnd platform cfg) := by
  refine keeps_bind keepsOut_failIfRecorded fun _ => keeps_bind keepsOut_skipWhitespace fun _ => ?_
  refine keeps_bind keepsOut_failIfRecorded fun _ => keeps_bind keeps_get fun p => ?_
  exact keeps_ite (keepsOut_failHere _) (keeps_pure _)

/-- A parse that is on padded memory begins with the value behind the byte order mark. -/
theorem parse_ofText (prior : Json View) : ∃ p,
    Tracks (Window.whole json) 0 p { rest := Reading.dropBom cfg json } ∧ p.out = prior ∧
      parse platform cfg (ofText json true prior) =
        (parseValue platform cfg (padded json).length >>= fun _ => parseEnd platform cfg) p := by
  have hstrip := @matches_stripLeadingBom cfg _ _ _ (tracks_ofText json true prior) rfl
  rw [show (Window.whole json).tail = 0 from rfl, Reading.skipLeadingBom_whole] at hstrip
  obtain ⟨_, p, hp, hstep⟩ := hstrip
  refine ⟨p, hstep.tracks, hstep.out, ?_⟩
  have hpadded : (ofText json true prior).mAssumePadded = true := rfl
  rw [parse, Prog.bind_get, hpadded, if_neg (by decide), Prog.bind_of_ok hp]
  rfl

/-- A literal reaches `out` before the byte behind it is checked. -/
theorem leaves_parseLiteral (h : Tracks w 0 p r) {value : Ast} {length : Nat}
    (hliteral : Reading.literalHere r = some (value, length)) :
    Leaves Parser.out (literalValue value) (parseLiteral cfg p) := by
  have hmatch : matchLiteralHere p = .ok ((literalValue value, length), p) := by
    rw [matchLiteralHere_eq h, hliteral]
  rw [parseLiteral, Prog.bind_of_ok hmatch]
  have hcheck : KeepsOut (if !cfg.json5 then do
      let next ← peek
      if !kValidAfterLiteral next then failHere .invalidLiteralTrailing
    else pure () : Prog Parser Unit) :=
    keeps_ite (keeps_bind keepsOut_peek fun _ => keeps_ite (keepsOut_failHere _) (keeps_pure _))
      (keeps_pure _)
  exact hcheck { p with mCurr := p.mCurr + length, out := literalValue value }

theorem literal_start {value : Ast} {length : Nat}
    (h : Reading.literalHere r = some (value, length)) :
    r.here = ascii 't' ∨ r.here = ascii 'f' ∨ r.here = ascii 'n' := by
  have hhead : ∀ (n : Nat) (c : UInt8) (lit : Bytes), r.rest.take (n + 1) = c :: lit → r.here = c := by
    intro n c lit htake
    cases hrest : r.rest with
    | nil =>
        rw [hrest] at htake
        cases htake
    | cons first rest =>
        rw [hrest, List.take_succ_cons] at htake
        rw [Reading.here, hrest]
        exact (List.cons.inj htake).1
  rw [Reading.literalHere] at h
  split_ifs at h with h1 h2 h3
  · exact .inl (hhead 3 _ _ h1)
  · exact .inr (.inr (hhead 3 _ _ h2))
  · exact .inr (.inl (hhead 4 _ _ h3))

/-- What `parse_value` does behind the whitespace, on the byte `c`. -/
def valueFrom (platform : Platform) (cfg : Config) (fuel : Nat) (c : UInt8) : Prog Parser Unit := do
  let p ← .get
  let element := parseValueInplace platform cfg fuel
  if c = 0 ∧ p.atEnd then failHere .unexpectedEndOfInput
  else parseValueAt platform cfg element .unexpectedValueCharacter c

theorem failsClean_valueFrom (fuel : Nat) {c : UInt8}
    (h : cfg.json5 = true ∨ ¬(c = ascii 't' ∨ c = ascii 'f' ∨ c = ascii 'n')) :
    FailsClean (valueFrom platform cfg fuel c) :=
  keepsOnFailure_bind keeps_get fun _ =>
    keepsOnFailure_ite (keepsOut_failHere _).onFailure (failsClean_parseValueAt _ _ h)

theorem failsClean_parseValue (h : cfg.json5 = true) (fuel : Nat) :
    FailsClean (parseValue platform cfg fuel) :=
  keepsOnFailure_bind keepsOut_skipWhitespace fun _ => keepsOnFailure_bind keepsOut_peek fun _ =>
    failsClean_valueFrom fuel (.inl h)

/-- The first byte of a literal is neither the sentinel nor that of another value. -/
theorem valueFrom_literal (fuel : Nat) {c : UInt8}
    (h : c = ascii 't' ∨ c = ascii 'f' ∨ c = ascii 'n') (p : Parser) :
    valueFrom platform cfg fuel c p = parseLiteral cfg p := by
  have hnul : ¬(c = 0 ∧ p.atEnd = true) := by
    rintro ⟨rfl, -⟩
    exact absurd h (by decide)
  rw [valueFrom, Prog.bind_get]
  simp only [if_neg hnul]
  rcases h with rfl | rfl | rfl <;> rfl

theorem leaves_valueFrom (h : Tracks w 0 p r) {value : Ast} {length : Nat}
    (hliteral : Reading.literalHere r = some (value, length)) (fuel : Nat) :
    Leaves Parser.out (literalValue value) (valueFrom platform cfg fuel r.here p) := by
  rw [valueFrom_literal fuel (literal_start hliteral)]
  exact leaves_parseLiteral h hliteral

/-- Without a literal a failure leaves `out` as it was. -/
theorem restores_valueFrom (h : Tracks w 0 p r) (hnone : Reading.literalHere r = none)
    (fuel : Nat) : Restores Parser.out p.out (valueFrom platform cfg fuel r.here p) := by
  by_cases hstart : r.here = ascii 't' ∨ r.here = ascii 'f' ∨ r.here = ascii 'n'
  swap
  · exact failsClean_valueFrom fuel (.inr hstart) p
  have hfail : matchLiteralHere p =
      (failHere .invalidLiteral : Prog Parser (Json View × Nat)) p := by
    rw [matchLiteralHere_eq h, hnone]
  have hkeeps := @keepsOut_failHere (Json View × Nat) .invalidLiteral p
  rw [valueFrom_literal fuel hstart, parseLiteral, Prog.bind_apply, hfail]
  exact hkeeps

/-- Behind the whitespace of the default mode. -/
theorem parseValue_plain (h : Tracks w 0 p r) (hplain : cfg.json5 = false) (fuel : Nat) :
    ∃ p', Tracks w 0 p' { r with rest := r.rest.dropWhile isWhitespace } ∧ p'.out = p.out ∧
      parseValue platform cfg fuel p =
        valueFrom platform cfg fuel (r.rest.dropWhile isWhitespace |>.headD 0) p' := by
  have hskip := @matches_skipWhitespace platform cfg _ _ _ _ h
  rw [Reading.skipWhitespace, hplain, if_neg (by decide)] at hskip
  obtain ⟨_, p', hp', hstep⟩ := hskip
  refine ⟨p', hstep.tracks, hstep.out, ?_⟩
  rw [parseValue, Prog.bind_of_ok hp', Prog.bind_of_ok hstep.tracks.peek]
  rfl

theorem length_padded (json : Bytes) : json.length ≤ (padded json).length := by
  rw [padded, List.length_append]
  exact Nat.le_add_right _ _

/-- A value that the text begins with reaches `out` and stays there. -/
theorem leaves_parse (h : BeginsWithValue platform cfg json) :
    ∃ tree : Json Bytes, ∀ prior, ∃ out buffer, out.map (View.read buffer) = tree ∧
      Leaves Parser.out out (parse platform cfg (ofText json true prior)) := by
  rcases Reading.beginsWithValue_iff.mp h with ⟨value, r, hread⟩ | ⟨hplain, hsome⟩
  · refine ⟨value.toJson (tokenNumber platform cfg), fun prior => ?_⟩
    obtain ⟨p, htracks, -, hparse⟩ := @parse_ofText platform cfg json prior
    have hmatches := @matches_parseValue platform cfg _ _ _ _ _ (length_padded json) htracks
    rw [show (Window.whole json).tail = 0 from rfl, hread] at hmatches
    obtain ⟨_, p', hp', hstep⟩ := hmatches
    refine ⟨p'.out, p'.buffer, hstep.out.1, ?_⟩
    rw [hparse, Prog.bind_of_ok hp']
    exact keepsOut_parseEnd p'
  · obtain ⟨⟨value, length⟩, hliteral⟩ := Option.isSome_iff_exists.mp hsome
    obtain ⟨-, -, hmap⟩ := literalHere_spec hliteral
    refine ⟨value.toJson (tokenNumber platform cfg), fun prior => ?_⟩
    obtain ⟨p, htracks, -, hparse⟩ := @parse_ofText platform cfg json prior
    obtain ⟨p', htracks', -, hrun⟩ :=
      @parseValue_plain platform cfg _ _ _ htracks hplain (padded json).length
    refine ⟨literalValue value, [], hmap _ _, ?_⟩
    rw [hparse]
    refine leaves_bind ?_ fun _ => keepsOut_parseEnd
    rw [hrun]
    exact leaves_valueFrom htracks' hliteral _

/-- Without a value at its start, no text leaves anything in `out`. -/
theorem restores_parse (h : ¬BeginsWithValue platform cfg json) (prior : Json View) :
    Restores Parser.out prior (parse platform cfg (ofText json true prior)) := by
  obtain ⟨hvalue, hliteral⟩ := not_or.mp (mt Reading.beginsWithValue_iff.mpr h)
  obtain ⟨p, htracks, hout, hparse⟩ := @parse_ofText platform cfg json prior
  have hrestores : Restores Parser.out p.out (parseValue platform cfg (padded json).length p) := by
    cases hjson5 : cfg.json5 with
    | true => exact failsClean_parseValue hjson5 _ p
    | false =>
        obtain ⟨p', htracks', hout', hrun⟩ :=
          @parseValue_plain platform cfg _ _ _ htracks hjson5 (padded json).length
        rw [hrun, ← hout']
        refine restores_valueFrom htracks' ?_ _
        rw [← Option.not_isSome_iff_eq_none]
        exact fun hsome => hliteral ⟨hjson5, hsome⟩
  have hmatches := @matches_parseValue platform cfg _ _ _ _ _ (length_padded json) htracks
  have hreads : Reading.Reads { rest := Reading.dropBom cfg json }
      (Reading.readValue Reading.skipWhitespace platform cfg 0 json.length { rest := Reading.dropBom cfg json }) :=
    Reading.reads_readValue (Reading.length_dropBom cfg json)
  rw [hparse, Prog.bind_apply]
  cases hread : Reading.readValue Reading.skipWhitespace platform cfg 0 json.length
      { rest := Reading.dropBom cfg json } with
  | ok result => exact absurd ⟨result.1, result.2, hread⟩ hvalue
  | stuck => exact absurd hread hreads.ne_stuck
  | error r =>
      rw [show (Window.whole json).tail = 0 from rfl, hread] at hmatches
      obtain hfalse | ⟨p', hp', -⟩ := hmatches
      · exact hfalse.elim
      · rw [hp'] at hrestores ⊢
        rw [← hout]
        exact hrestores

/-- The parse of a text that is no document fails. -/
theorem parse_error (h : ¬IsDocument platform cfg json) (prior : Json View) :
    ∃ q, parse platform cfg (ofText json true prior) = .error q := by
  have hmatches := @matches_parse platform cfg _ _ _ (tracks_ofText json true prior) rfl rfl
  have hreads := @Reading.reads_readText platform cfg 0 { rest := json }
  rw [show (Window.whole json).tail = 0 from rfl] at hmatches
  cases hread : Reading.readText Reading.skipWhitespace platform cfg 0 { rest := json } with
  | ok result => exact absurd (Reading.isDocument_iff.mpr ⟨result.1, result.2, hread⟩) h
  | stuck => exact absurd hread hreads.ne_stuck
  | error r =>
      rw [hread] at hmatches
      obtain hfalse | ⟨q, hq, -⟩ := hmatches
      · exact hfalse.elim
      · exact ⟨q, hq⟩

/-- No document is parsed in vain. -/
theorem parse_document (h : IsDocument platform cfg json) (prior : Json View) :
    ∃ p, parse platform cfg (ofText json true prior) = .ok ((), p) := by
  obtain ⟨value, r, hread⟩ := Reading.isDocument_iff.mp h
  have hmatches := @matches_parse platform cfg _ _ _ (tracks_ofText json true prior) rfl rfl
  rw [show (Window.whole json).tail = 0 from rfl, hread] at hmatches
  obtain ⟨_, p, hp, -⟩ := hmatches
  exact ⟨p, hp⟩

/-- A failed parse leaves `out` as it was, whatever it was, exactly when the text begins with no value
of its grammar or is a document. -/
theorem parse_leavesOut_iff (platform : Platform) (cfg : Config) (json : Bytes) :
    (∀ assumePadded prior q,
      parse platform cfg (ofText json assumePadded prior) = .error q → q.out = prior) ↔
      (BeginsWithValue platform cfg json → IsDocument platform cfg json) := by
  constructor
  · intro h hbegins
    by_contra hdocument
    obtain ⟨tree, htree⟩ := leaves_parse hbegins
    -- what the caller has in `out` is another value than the one that is stored
    obtain ⟨prior, hprior⟩ : ∃ prior : Json View, ∀ buffer, prior.map (View.read buffer) ≠ tree := by
      by_cases hnull : tree = .null
      · refine ⟨.boolean true, fun buffer heq => ?_⟩
        rw [hnull] at heq
        cases heq
      · exact ⟨.null, fun buffer heq => hnull heq.symm⟩
    obtain ⟨q, hq⟩ := parse_error hdocument prior
    obtain ⟨out, buffer, hout, hleaves⟩ := htree prior
    rw [hq] at hleaves
    refine hprior buffer ?_
    rw [← h true prior q hq, show q.out = out from hleaves]
    exact hout
  · intro h assumePadded prior q hq
    cases assumePadded with
    | false => exact (keepsOut_failContext (α := Unit) .parserRequiresPadding []).error hq
    | true =>
        by_cases hdocument : IsDocument platform cfg json
        · obtain ⟨p, hp⟩ := parse_document hdocument prior
          rw [hp] at hq
          cases hq
        · have hrestores := restores_parse (fun hbegins => hdocument (h hbegins)) prior
          rw [hq] at hrestores
          exact hrestores

set_option maxRecDepth 4000 in
/-- `nullx` fails behind a `null` that has replaced what was in `out`: at the check behind the literal
or, in JSON5, at the check behind the value. -/
theorem parse_null_stored :
    (¬∀ q, parse halfPlatform {} (ofText (asciiBytes "nullx") true (.boolean true)) = .error q →
      q.out = .boolean true) ∧
    ¬∀ q, parse halfPlatform { json5 := true } (ofText (asciiBytes "nullx") true (.boolean true)) =
      .error q → q.out = .boolean true := by
  constructor
  · intro h
    have hout := h _ rfl
    cases hout
  · intro h
    have hout := h _ rfl
    cases hout

end Parser

end PjhJson
