import PjhJson.Escape
import PjhJson.LibMemory
import PjhJson.NumberWindow
import PjhJson.ParserText

/-! `StreamReader` of `stream.cpp`: one JSON event for each pull, read from a stream through a window
that is refilled a chunk at a time. The window is the list of its valid bytes, `m_buf[0, m_len)`. A
function that returns `false` ends its run with a failure and leaves the state behind; a read outside
the window, or a write outside the token buffer, has no outcome. -/

namespace PjhJson

open Grammar

/-- A `std::istream`: the bytes it has yet to deliver, and whether it goes bad where they end. -/
structure IStream where
  rest : Bytes
  broken : Bool := false
  deriving DecidableEq, Repr

inductive EventType where
  | beginObject
  | mapKey
  | endObject
  | beginArray
  | endArray
  | null
  | boolean
  | integer
  | double
  | string
  deriving DecidableEq, Repr

/-- `JsonEvent`; `text` is what the view into the token buffer shows until the next pull. -/
structure JsonEvent where
  type : EventType := .null
  text : Bytes := []
  boolean : Bool := false
  integer : Int64 := 0
  number : Double := ⟨0⟩
  deriving DecidableEq, Repr

inductive StreamMode where
  | singleRoot
  | multiValue
  deriving DecidableEq, Repr

namespace Frame

inductive Kind where
  | object
  | array
  deriving DecidableEq, Repr

inductive Phase where
  | objectKeyOrEnd
  | objectKey
  | objectColon
  | objectValue
  | objectCommaOrEnd
  | arrayValueOrEnd
  | arrayValue
  | arrayCommaOrEnd
  deriving DecidableEq, Repr

end Frame

/-- An open container and what has to come next in it. -/
structure Frame where
  kind : Frame.Kind := .array
  phase : Frame.Phase := .arrayValueOrEnd
  deriving DecidableEq, Repr

/-- A container behind its opening bracket. -/
def Frame.opened : Frame.Kind → Frame
  | .object => { kind := .object, phase := .objectKeyOrEnd }
  | .array => { kind := .array, phase := .arrayValueOrEnd }

/-- A container behind one of its values. -/
def Frame.completed (f : Frame) : Frame :=
  match f.kind with
  | .object => { f with phase := .objectCommaOrEnd }
  | .array => { f with phase := .arrayCommaOrEnd }

/-- What the error slot holds: the failed read of the stream, or an error of the kernel. -/
inductive StreamError where
  | streamReadFailed
  | kernel (error : Error)
  deriving DecidableEq, Repr

/-- The fields of `StreamReader`, and `out`, the event that the running call's reference argument
names. `m_has_error` is whether the slot `mError` is filled; the innermost frame comes first. -/
structure StreamReader where
  mIn : IStream
  mBuf : Bytes := []
  mToken : Bytes := []
  mStack : List Frame := []
  mMode : StreamMode
  mChunkSize : Nat
  mMaxDepth : Nat
  mStripBom : Bool
  mStrictUtf8 : Bool
  mPos : Nat := 0
  mAbsBase : Nat := 0
  mTokenLen : Nat := 0
  mStartChecked : Bool := false
  mEof : Bool := false
  mRootDone : Bool := false
  mFinished : Bool := false
  mError : Option StreamError := none
  out : JsonEvent := {}
  deriving DecidableEq, Repr

namespace StreamReader

/-- The constructor: a chunk size below 1 is taken for 1, and `json5` is not consulted. -/
def create (cfg : Config) (mode : StreamMode) (chunkSize : Nat) (stream : IStream) : StreamReader where
  mIn := stream
  mMode := mode
  mChunkSize := if chunkSize = 0 then 1 else chunkSize
  mMaxDepth := cfg.maxDepth
  mStripBom := cfg.stripBom
  mStrictUtf8 := cfg.strictUtf8

def hasError (s : StreamReader) : Bool := s.mError.isSome

/-- `abs()`: the offset in the stream of the next unconsumed byte. -/
def abs (s : StreamReader) : Nat := s.mAbsBase + s.mPos

/-- The unconsumed bytes of the window. -/
def window (s : StreamReader) : Bytes := s.mBuf.drop s.mPos

/-- `m_len == m_pos`. -/
def exhausted (s : StreamReader) : Bool := s.mBuf.length == s.mPos

/-- The first error wins. -/
def record (error : StreamError) (s : StreamReader) : StreamReader :=
  if s.hasError then s else { s with mError := some error }

/-- `fail(code, offset); return false;` -/
def fail {α : Type} (code : ErrorCode) (offset : Nat) : Prog StreamReader α := do
  .modify (record (.kernel { code, position := offset, positioned := true }))
  .halt

/-- `fail(code, abs()); return false;` -/
def failHere {α : Type} (code : ErrorCode) : Prog StreamReader α := do
  let s ← .get
  fail code s.abs

/-- `fail_context(code); return false;` -/
def failContext {α : Type} (code : ErrorCode) : Prog StreamReader α := do
  .modify (record (.kernel { code }))
  .halt

/-- `if (m_has_error) return false;` -/
def failIfError : Prog StreamReader Unit := do
  let s ← .get
  if s.hasError then .halt

def setOut (event : JsonEvent) : Prog StreamReader Unit := .modify fun s => { s with out := event }

def advance (count : Nat) : Prog StreamReader Unit := .modify fun s => { s with mPos := s.mPos + count }

/-- `m_buf[m_pos]`. -/
def peek : Prog StreamReader UInt8 := fun s =>
  match s.mBuf[s.mPos]? with
  | some c => .ok (c, s)
  | none => .stuck

/-! ### The window -/

/-- Move the unconsumed bytes to the front of the buffer. -/
def compact (s : StreamReader) : StreamReader :=
  if s.mPos ≠ 0 then { s with mBuf := s.window, mAbsBase := s.mAbsBase + s.mPos, mPos := 0 } else s

/-- `fill`: a short read is the end of the stream, or its failure where it went bad. -/
def fill (s : StreamReader) : StreamReader :=
  if s.hasError || s.mEof then s
  else
    let got := s.mIn.rest.take s.mChunkSize
    let s := s.compact
    let s := { s with
      mBuf := s.mBuf ++ got, mIn := { s.mIn with rest := s.mIn.rest.drop s.mChunkSize } }
    if got.length < s.mChunkSize then
      if s.mIn.broken then s.record .streamReadFailed else { s with mEof := true }
    else s

/-- `ensure`; every round of the loop adds a byte or ends the stream. -/
def ensureLoop (n : Nat) : Nat → Prog StreamReader Bool
  | 0 => .stuck
  | fuel + 1 => do
    let s ← .get
    if s.window.length < n ∧ s.mEof = false ∧ s.hasError = false then
      .modify fill
      ensureLoop n fuel
    else pure (n ≤ s.window.length)

def ensure (n : Nat) : Prog StreamReader Bool := ensureLoop n (n + 1)

/-- Rounds enough for a loop that consumes a byte or refills the window in each of them. -/
def rounds (s : StreamReader) : Nat := 2 * (s.window.length + s.mIn.rest.length) + 2

def skipWsLoop : Nat → Prog StreamReader Unit
  | 0 => .stuck
  | fuel + 1 => do
    let s ← .get
    if s.hasError then pure ()
    else if s.exhausted then
      if s.mEof then pure ()
      else
        .modify fill
        skipWsLoop fuel
    else
      let c ← peek
      if isWhitespace c then
        advance 1
        skipWsLoop fuel
      else pure ()

/-- `skip_ws`. -/
def skipWs : Prog StreamReader Unit := do
  let s ← .get
  skipWsLoop s.rounds

/-- `skip_start_bom`: a byte order mark is dropped at the start of the stream only. -/
def skipStartBom : Prog StreamReader Unit := do
  let s ← .get
  if s.mStartChecked then pure ()
  else
    .modify fun s => { s with mStartChecked := true }
    if !s.mStripBom || s.hasError then pure ()
    else if (← ensure 3) then
      let s ← .get
      if startsWithUtf8Bom s.window then advance 3

/-! ### Strings -/

/-- The locals of the loop that collects the raw bytes of a string. -/
structure RawToken where
  escaped : Bool := false
  hasEscape : Bool := false
  firstControl : Option Nat := none
  deriving DecidableEq, Repr

/-- Take the byte `c` of the content into the token buffer, which has `length` bytes so far. -/
def RawToken.push (raw : RawToken) (length : Nat) (c : UInt8) : RawToken :=
  if raw.escaped then { raw with escaped := false }
  else if c = ascii '\\' then { raw with escaped := true, hasEscape := true }
  else if c < 0x20 ∧ raw.firstControl = none then { raw with firstControl := some length }
  else raw

/-- The bytes up to the closing quote go into `m_token`, across refills of the window. -/
def rawLoop : Nat → RawToken → Prog StreamReader RawToken
  | 0, _ => .stuck
  | fuel + 1, raw => do
    let s ← .get
    if s.exhausted then
      if s.mEof then failHere .unterminatedString
      else
        .modify fill
        failIfError
        rawLoop fuel raw
    else
      let c ← peek
      advance 1
      if raw.escaped = false ∧ c = ascii '"' then pure raw
      else
        .modify fun s => { s with mToken := s.mToken ++ [c] }
        rawLoop fuel (raw.push s.mToken.length c)

/-- `if (ck.failed()) { fail(ck.code, ck.err); return false; }` for the content from `base` on. -/
def checkUtf8 (base : Nat) (ck : Utf8Checker) : Prog StreamReader Unit :=
  if ck.failed then fail ck.code (base + ck.err) else pure ()

/-- `kStringDecodePadding`. -/
def kStringDecodePadding : Nat := 16

/-- Write `written` at the address `dst` of the token buffer, below its padding. -/
def storeToken (dst : Nat) (written : Bytes) : Prog StreamReader Unit := fun s =>
  if dst + written.length + kStringDecodePadding ≤ s.mToken.length then
    .ok ((), { s with mToken := Memory.overlay s.mToken dst written })
  else .stuck

/-- `handle_escape(dst, src, ep)` on the token buffer: the next `src` and `dst`. -/
def decodeEscape (base src dst : Nat) : Prog StreamReader (Nat × Nat) := do
  let s ← .get
  match handleEscape (s.mToken.drop src) with
  | .stuck => .stuck
  | .error (code, none) => failContext code
  | .error (code, some anchor) => fail code (base + (s.mToken.length - anchor.length))
  | .ok (written, rest) =>
    storeToken dst written
    pure (s.mToken.length - rest.length, dst + written.length)

/-- Behind the decoding loop: `dst` is the end of the text. -/
def finishDecoded (base dst : Nat) (ck : Utf8Checker) : Prog StreamReader Unit := do
  let s ← .get
  checkUtf8 base (if s.mStrictUtf8 then ck.finish else ck)
  .modify fun s => { s with mTokenLen := dst }

/-- Decode the raw bytes of the token in place, up to `srcEnd`. -/
def decodeLoop (base srcEnd : Nat) : Nat → Nat → Nat → Utf8Checker → Prog StreamReader Unit
  | 0, _, _, _ => .stuck
  | fuel + 1, src, dst, ck => do
    let s ← .get
    if src < srcEnd then
      match s.mToken[src]? with
      | none => .stuck
      | some c =>
        let ck := if s.mStrictUtf8 then ck.feed c src else ck
        checkUtf8 base ck
        if c = ascii '\\' then
          let (src, dst) ← decodeEscape base src dst
          decodeLoop base srcEnd fuel src dst ck
        else if c < 0x20 then fail .unescapedControl (base + src)
        else
          storeToken dst [c]
          decodeLoop base srcEnd fuel (src + 1) (dst + 1) ck
    else finishDecoded base dst ck

/-- The token without an escape: a control byte is found before the UTF-8 gate. -/
def finishPlain (base : Nat) (raw : RawToken) : Prog StreamReader Unit := do
  let s ← .get
  match raw.firstControl with
  | some pos => fail .unescapedControl (base + pos)
  | none =>
    checkUtf8 base (if s.mStrictUtf8 then checkUtf8Strict s.mToken else {})
    .modify fun s => { s with mTokenLen := s.mToken.length }

/-- The token with escapes, NUL bytes behind it for the decoder to read. -/
def finishEscaped (base : Nat) : Prog StreamReader Unit := do
  let s ← .get
  .modify fun s => { s with mToken := s.mToken ++ List.replicate kStringDecodePadding 0 }
  decodeLoop base s.mToken.length (s.mToken.length + 1) 0 0 {}

/-- `parse_string_token`. -/
def parseStringToken : Prog StreamReader Unit := do
  advance 1
  .modify fun s => { s with mToken := [] }
  let s ← .get
  let raw ← rawLoop s.rounds {}
  if raw.hasEscape then finishEscaped s.abs else finishPlain s.abs raw

/-- `std::string_view(m_token.data(), m_token_len)`. -/
def tokenText (s : StreamReader) : Bytes := s.mToken.take s.mTokenLen

/-! ### Literals and numbers -/

/-- The literal that begins with `c`. -/
def literalOf (c : UInt8) : Bytes :=
  if c = ascii 't' then kTrue else if c = ascii 'f' then kFalse else kNull

def literalEvent (c : UInt8) : JsonEvent :=
  if c = ascii 'n' then { type := .null } else { type := .boolean, boolean := c == ascii 't' }

/-- The byte after a literal, if there is one. The class `valid_after_literal` is that of
`kValidAfterLiteral`. -/
def checkAfterLiteral : Prog StreamReader Unit := do
  if (← ensure 1) then
    let next ← peek
    if !Parser.kValidAfterLiteral next then failHere .invalidLiteralTrailing
  else failIfError

/-- `parse_literal`. -/
def parseLiteral : Prog StreamReader Unit := do
  let c ← peek
  let start := (← .get).abs
  if (← ensure (literalOf c).length) then
    let s ← .get
    match matchLiteral s.window (literalOf c) with
    | none => fail .invalidLiteral start
    | some _ =>
      advance (literalOf c).length
      checkAfterLiteral
      setOut (literalEvent c)
  else
    failIfError
    fail .invalidLiteral start

def numberEvent : Number → JsonEvent
  | .integer value => { type := .integer, integer := value }
  | .double value => { type := .double, number := value }

variable (platform : Platform)

/-- The loop of `parse_number`: a scan that ends where the window does starts again with more. -/
def numberLoop : Nat → Prog StreamReader Unit
  | 0 => .stuck
  | fuel + 1 => do
    let s ← .get
    if stopOf (scanNumber s.window) = [] ∧ s.mEof = false then
      .modify fill
      failIfError
      numberLoop fuel
    else
      match scanAndClassify platform s.window with
      | .error (code, anchor) => fail code (s.mAbsBase + (s.mBuf.length - anchor.length))
      | .ok (number, rest) =>
        .modify fun s => { s with mPos := s.mBuf.length - rest.length }
        setOut (numberEvent number)

/-- `parse_number`. -/
def parseNumber : Prog StreamReader Unit := do
  let s ← .get
  numberLoop platform (s.mIn.rest.length + 2)

/-! ### Values -/

/-- `enter_container`. -/
def enterContainer (kind : Frame.Kind) : Prog StreamReader Unit := do
  let s ← .get
  if s.mMaxDepth ≠ 0 ∧ s.mMaxDepth < s.mStack.length + 1 then failHere .maxDepthExceeded
  else
    .modify fun s => { s with mStack := Frame.opened kind :: s.mStack }

/-- `complete_value`. -/
def completeValue : Prog StreamReader Unit := .modify fun s =>
  match s.mStack with
  | [] => { s with mRootDone := true }
  | f :: outer => { s with mStack := f.completed :: outer }

/-- The container that begins at the cursor. -/
def beginContainer (kind : Frame.Kind) (type : EventType) : Prog StreamReader Unit := do
  enterContainer kind
  advance 1
  setOut { type }

/-- `expect_value`. -/
def expectValue (atRoot : Bool) : Prog StreamReader Unit := do
  skipWs
  failIfError
  let s ← .get
  if s.exhausted then failHere (if atRoot then .unexpectedEndOfInput else .unexpectedCharacter)
  else
    let c ← peek
    if c = ascii '{' then beginContainer .object .beginObject
    else if c = ascii '[' then beginContainer .array .beginArray
    else if c = ascii '"' then
      parseStringToken
      let s ← .get
      setOut { type := .string, text := s.tokenText }
      completeValue
    else if c = ascii 't' ∨ c = ascii 'f' ∨ c = ascii 'n' then
      parseLiteral
      completeValue
    else if c = ascii '-' ∨ isDigit c then
      parseNumber platform
      completeValue
    else failHere (if atRoot then .unexpectedValueCharacter else .unexpectedCharacter)

/-! ### Pulling an event -/

/-- The container at the top of the stack ends at the cursor. -/
def endContainer (type : EventType) : Prog StreamReader Unit := do
  advance 1
  .modify fun s => { s with mStack := s.mStack.tail }
  setOut { type }
  completeValue

def setPhase (phase : Frame.Phase) : Prog StreamReader Unit := .modify fun s =>
  match s.mStack with
  | [] => s
  | f :: outer => { s with mStack := { f with phase } :: outer }

/-- The end of the stream is a clean end. -/
def finish {α : Type} : Prog StreamReader α := do
  .modify fun s => { s with mFinished := true }
  .halt

/-- Behind a top-level value. In `SingleRoot` mode only whitespace may follow, in `MultiValue` mode
whitespace has to separate the values. -/
def afterRoot : Prog StreamReader Unit := do
  let s ← .get
  match s.mMode with
  | .singleRoot =>
    skipWs
    failIfError
    let s ← .get
    if s.exhausted then finish else failHere .extraCharactersAfterValue
  | .multiValue =>
    if (← ensure 1) then
      let c ← peek
      if isWhitespace c then
        skipWs
        failIfError
        let s ← .get
        if s.exhausted then finish
        else .modify fun s => { s with mRootDone := false }
      else failHere .extraCharactersAfterValue
    else
      failIfError
      finish

/-- In front of a top-level value: in `MultiValue` mode there need not be one. -/
def rootValue : Prog StreamReader Unit := do
  let s ← .get
  match s.mMode with
  | .singleRoot => expectValue platform true
  | .multiValue =>
    skipWs
    failIfError
    let s ← .get
    if s.exhausted then finish else expectValue platform true

/-- A key, or the end of the object where `mayEnd`. -/
def objectKey (mayEnd : Bool) : Prog StreamReader Unit := do
  skipWs
  failIfError
  let s ← .get
  if s.exhausted then failHere .expectedStringKey
  else
    let c ← peek
    if c = ascii '}' ∧ mayEnd then endContainer .endObject
    else if c ≠ ascii '"' then failHere .expectedStringKey
    else
      parseStringToken
      setPhase .objectColon
      let s ← .get
      setOut { type := .mapKey, text := s.tokenText }

def objectColon : Prog StreamReader Unit := do
  skipWs
  failIfError
  let s ← .get
  if s.exhausted then failHere .expectedColon
  else
    let c ← peek
    if c ≠ ascii ':' then failHere .expectedColon
    else
      advance 1
      setPhase .objectValue

/-- Behind a value in a container: whether the container ended, with the event `type`. -/
def commaOrEnd (close : UInt8) (type : EventType) (atEnd unexpected : ErrorCode)
    (next : Frame.Phase) : Prog StreamReader Bool := do
  skipWs
  failIfError
  let s ← .get
  if s.exhausted then failHere atEnd
  else
    let c ← peek
    if c = close then
      endContainer type
      pure true
    else if c = ascii ',' then
      advance 1
      setPhase next
      pure false
    else failHere unexpected

def objectCommaOrEnd : Prog StreamReader Bool :=
  commaOrEnd (ascii '}') .endObject .unexpectedEndOfObject .expectedCommaOrBrace .objectKey

def arrayCommaOrEnd : Prog StreamReader Bool :=
  commaOrEnd (ascii ']') .endArray .expectedCommaOrBracket .expectedCommaOrBracket .arrayValue

def arrayValueOrEnd : Prog StreamReader Unit := do
  skipWs
  failIfError
  let s ← .get
  if s.exhausted then failHere .unexpectedCharacter
  else
    let c ← peek
    if c = ascii ']' then endContainer .endArray else expectValue platform false

/-- The loop of `next`: colons and commas are passed without an event. -/
def nextLoop : Nat → Prog StreamReader Unit
  | 0 => .stuck
  | fuel + 1 => do
    let s ← .get
    if s.hasError || s.mFinished then .halt
    else if s.mRootDone then
      afterRoot
      nextLoop fuel
    else
      match s.mStack with
      | [] => rootValue platform
      | f :: _ =>
        match f.phase with
        | .objectKeyOrEnd => objectKey true
        | .objectKey => objectKey false
        | .objectColon =>
          objectColon
          nextLoop fuel
        | .objectValue => expectValue platform false
        | .objectCommaOrEnd =>
          let ended ← objectCommaOrEnd
          if ended then pure () else nextLoop fuel
        | .arrayValueOrEnd => arrayValueOrEnd platform
        | .arrayValue => expectValue platform false
        | .arrayCommaOrEnd =>
          let ended ← arrayCommaOrEnd
          if ended then pure () else nextLoop fuel

/-- `next(JsonEvent &)`. No more than one colon, comma or gap between values is passed in a pull. -/
def next : Prog StreamReader Unit := do
  skipStartBom
  nextLoop platform 2

/-! ### The stack -/

section Stack

variable {s : StreamReader}

theorem completeValue_root (h : s.mStack = []) :
    completeValue s = .ok ((), { s with mRootDone := true }) := by
  rw [completeValue, Prog.modify_apply]
  split
  · rfl
  · rename_i hcons
    rw [h] at hcons
    cases hcons

theorem completeValue_inner {f : Frame} {outer : List Frame} (h : s.mStack = f :: outer) :
    completeValue s = .ok ((), { s with mStack := f.completed :: outer }) := by
  rw [completeValue, Prog.modify_apply]
  split
  · rename_i hnil
    rw [h] at hnil
    cases hnil
  · rename_i hcons
    rw [h] at hcons
    cases hcons
    rfl

theorem setPhase_inner {f : Frame} {outer : List Frame} (h : s.mStack = f :: outer) (phase : Frame.Phase) :
    setPhase phase s = .ok ((), { s with mStack := { f with phase } :: outer }) := by
  rw [setPhase, Prog.modify_apply]
  split
  · rename_i hnil
    rw [h] at hnil
    cases hnil
  · rename_i hcons
    rw [h] at hcons
    cases hcons
    rfl

theorem enterContainer_eq (kind : Frame.Kind) (s : StreamReader) :
    enterContainer kind s =
      if s.mMaxDepth ≠ 0 ∧ s.mMaxDepth < s.mStack.length + 1 then failHere .maxDepthExceeded s
      else .ok ((), { s with mStack := Frame.opened kind :: s.mStack }) := by
  rw [enterContainer, Prog.bind_get]
  split <;> rfl

end Stack

end StreamReader
end PjhJson
