import PjhJson.Reading
import PjhJson.Stream

/-! The reader of events without a window: the same machine over the bytes that are still unread, all
of them in sight. A string is cut out of them before it is decoded, in a buffer of its own. -/

namespace PjhJson

open Grammar

structure Pull where
  rest : Bytes
  stack : List Frame := []
  started : Bool := false
  rootDone : Bool := false
  finished : Bool := false
  failure : Option Failure := none
  out : JsonEvent := {}
  deriving DecidableEq, Repr

namespace Pull

def record (failure : Failure) : Prog Pull Unit :=
  .modify fun p => if p.failure.isSome then p else { p with failure := some failure }

def fail {α : Type} (code : ErrorCode) (left : Nat) : Prog Pull α := do
  record { code, left := some left }
  .halt

def failHere {α : Type} (code : ErrorCode) : Prog Pull α := do
  let p ← .get
  fail code p.rest.length

def failContext {α : Type} (code : ErrorCode) : Prog Pull α := do
  record { code }
  .halt

/-- The next byte, NUL at the end. -/
def peek : Prog Pull UInt8 := fun p => .ok (p.rest.headD 0, p)

def advance (count : Nat) : Prog Pull Unit := .modify fun p => { p with rest := p.rest.drop count }

def moveTo (rest : Bytes) : Prog Pull Unit := .modify fun p => { p with rest }

def setOut (event : JsonEvent) : Prog Pull Unit := .modify fun p => { p with out := event }

def skipWs : Prog Pull Unit := .modify fun p => { p with rest := p.rest.dropWhile isWhitespace }

/-! ### Tokens -/

/-- A failure in a string: the code, and the offset in the content where it has one. -/
abbrev ContentError := ErrorCode × Option Nat

/-- The raw content of a string up to the quote that ends it, and what follows the quote. -/
def rawContent : Bool → Bytes → Option (Bytes × Bytes)
  | _, [] => none
  | escaped, c :: text =>
    if escaped = false ∧ c = ascii '"' then some ([], text)
    else (rawContent (!escaped && c == ascii '\\') text).map fun (raw, rest) => (c :: raw, rest)

/-- What the gate found, if it failed. -/
def gate (ck : Utf8Checker) : Res ContentError Unit :=
  if ck.failed then .error (ck.code, some ck.err) else .ok ()

variable (strict : Bool)

/-- The content from the offset `pos` on, `decoded` being what comes before. -/
def decodeRaw : Nat → Nat → Bytes → Bytes → Utf8Checker → Res ContentError Bytes
  | 0, _, _, _, _ => .stuck
  | _ + 1, _, [], decoded, ck => do
    gate (if strict then ck.finish else ck)
    pure decoded
  | fuel + 1, pos, c :: raw, decoded, ck => do
    let ck := if strict then ck.feed c pos else ck
    gate ck
    if c = ascii '\\' then
      match Reading.readEscape (c :: raw) with
      | .stuck => .stuck
      | .error (code, anchor) =>
        .error (code, anchor.map fun anchor => pos + ((c :: raw).length - anchor.length))
      | .ok (written, rest) =>
        decodeRaw fuel (pos + ((c :: raw).length - rest.length)) rest (decoded ++ written) ck
    else if c < 0x20 then .error (.unescapedControl, some pos)
    else decodeRaw fuel (pos + 1) raw (decoded ++ [c]) ck

/-- The text that the raw content of a string stands for. -/
def decodeContent (raw : Bytes) : Res ContentError Bytes :=
  if ascii '\\' ∈ raw then decodeRaw strict (raw.length + 1) 0 raw [] {}
  else
    match raw.findIdx? (· < 0x20) with
    | some pos => .error (.unescapedControl, some pos)
    | none => do
      gate (if strict then checkUtf8Strict raw else {})
      pure raw

/-- The outcome of decoding the content that `left` unread bytes begin with. -/
def ofContent (left : Nat) : Res ContentError Bytes → Prog Pull Bytes
  | .stuck => .stuck
  | .error (code, none) => failContext code
  | .error (code, some pos) => fail code (left - pos)
  | .ok text => pure text

def stringToken : Prog Pull Bytes := do
  advance 1
  let p ← .get
  match rawContent false p.rest with
  | none =>
    moveTo []
    fail .unterminatedString 0
  | some (raw, rest) =>
    moveTo rest
    ofContent p.rest.length (decodeContent strict raw)

/-- The byte after a literal, if there is one. -/
def checkAfterLiteral : Prog Pull Unit := do
  let p ← .get
  if p.rest ≠ [] ∧ Parser.kValidAfterLiteral (p.rest.headD 0) = false then
    failHere .invalidLiteralTrailing

def literal : Prog Pull Unit := do
  let c ← peek
  let p ← .get
  if p.rest.take (StreamReader.literalOf c).length = StreamReader.literalOf c then
    advance (StreamReader.literalOf c).length
    checkAfterLiteral
    setOut (StreamReader.literalEvent c)
  else failHere .invalidLiteral

def number (platform : Platform) : Prog Pull Unit := do
  let p ← .get
  match scanAndClassify platform p.rest with
  | .error (code, anchor) => fail code anchor.length
  | .ok (number, rest) =>
    moveTo rest
    setOut (StreamReader.numberEvent number)

/-! ### Values -/

variable (platform : Platform) (cfg : Config) (mode : StreamMode)

def completeValue : Prog Pull Unit := .modify fun p =>
  match p.stack with
  | [] => { p with rootDone := true }
  | f :: outer => { p with stack := f.completed :: outer }

def beginContainer (kind : Frame.Kind) (type : EventType) : Prog Pull Unit := do
  let p ← .get
  if cfg.maxDepth ≠ 0 ∧ cfg.maxDepth < p.stack.length + 1 then failHere .maxDepthExceeded
  else
    .modify fun p => { p with stack := Frame.opened kind :: p.stack }
    advance 1
    setOut { type }

def expectValue (atRoot : Bool) : Prog Pull Unit := do
  skipWs
  let p ← .get
  if p.rest = [] then failHere (if atRoot then .unexpectedEndOfInput else .unexpectedCharacter)
  else
    let c ← peek
    if c = ascii '{' then beginContainer cfg .object .beginObject
    else if c = ascii '[' then beginContainer cfg .array .beginArray
    else if c = ascii '"' then
      let text ← stringToken cfg.strictUtf8
      setOut { type := .string, text }
      completeValue
    else if c = ascii 't' ∨ c = ascii 'f' ∨ c = ascii 'n' then
      literal
      completeValue
    else if c = ascii '-' ∨ isDigit c then
      number platform
      completeValue
    else failHere (if atRoot then .unexpectedValueCharacter else .unexpectedCharacter)

/-! ### Pulling an event -/

def endContainer (type : EventType) : Prog Pull Unit := do
  advance 1
  .modify fun p => { p with stack := p.stack.tail }
  setOut { type }
  completeValue

def setPhase (phase : Frame.Phase) : Prog Pull Unit := .modify fun p =>
  match p.stack with
  | [] => p
  | f :: outer => { p with stack := { f with phase } :: outer }

def finish {α : Type} : Prog Pull α := do
  .modify fun p => { p with finished := true }
  .halt

def afterRoot : Prog Pull Unit := do
  let p ← .get
  match mode with
  | .singleRoot =>
    skipWs
    let p ← .get
    if p.rest = [] then finish else failHere .extraCharactersAfterValue
  | .multiValue =>
    if p.rest = [] then finish
    else
      let c ← peek
      if isWhitespace c then
        skipWs
        let p ← .get
        if p.rest = [] then finish
        else .modify fun p => { p with rootDone := false }
      else failHere .extraCharactersAfterValue

def rootValue : Prog Pull Unit :=
  match mode with
  | .singleRoot => expectValue platform cfg true
  | .multiValue => do
    skipWs
    let p ← .get
    if p.rest = [] then finish else expectValue platform cfg true

def objectKey (mayEnd : Bool) : Prog Pull Unit := do
  skipWs
  let p ← .get
  if p.rest = [] then failHere .expectedStringKey
  else
    let c ← peek
    if c = ascii '}' ∧ mayEnd then endContainer .endObject
    else if c ≠ ascii '"' then failHere .expectedStringKey
    else
      let text ← stringToken cfg.strictUtf8
      setPhase .objectColon
      setOut { type := .mapKey, text }

def objectColon : Prog Pull Unit := do
  skipWs
  let p ← .get
  if p.rest = [] then failHere .expectedColon
  else
    let c ← peek
    if c ≠ ascii ':' then failHere .expectedColon
    else
      advance 1
      setPhase .objectValue

def commaOrEnd (close : UInt8) (type : EventType) (atEnd unexpected : ErrorCode)
    (next : Frame.Phase) : Prog Pull Bool := do
  skipWs
  let p ← .get
  if p.rest = [] then failHere atEnd
  else
    let c ← peek
    if c = close then
      endContainer type
      pure true
    else if c = ascii ',' then
      advance 1
      setPhase next
      pure false
    else failHere unexpected

def objectCommaOrEnd : Prog Pull Bool :=
  commaOrEnd (ascii '}') .endObject .unexpectedEndOfObject .expectedCommaOrBrace .objectKey

def arrayCommaOrEnd : Prog Pull Bool :=
  commaOrEnd (ascii ']') .endArray .expectedCommaOrBracket .expectedCommaOrBracket .arrayValue

def arrayValueOrEnd : Prog Pull Unit := do
  skipWs
  let p ← .get
  if p.rest = [] then failHere .unexpectedCharacter
  else
    let c ← peek
    if c = ascii ']' then endContainer .endArray else expectValue platform cfg false

def nextLoop : Nat → Prog Pull Unit
  | 0 => .stuck
  | fuel + 1 => do
    let p ← .get
    if p.failure.isSome || p.finished then .halt
    else if p.rootDone then
      afterRoot mode
      nextLoop fuel
    else
      match p.stack with
      | [] => rootValue platform cfg mode
      | f :: _ =>
        match f.phase with
        | .objectKeyOrEnd => objectKey cfg true
        | .objectKey => objectKey cfg false
        | .objectColon =>
          objectColon
          nextLoop fuel
        | .objectValue => expectValue platform cfg false
        | .objectCommaOrEnd =>
          let ended ← objectCommaOrEnd
          if ended then pure () else nextLoop fuel
        | .arrayValueOrEnd => arrayValueOrEnd platform cfg
        | .arrayValue => expectValue platform cfg false
        | .arrayCommaOrEnd =>
          let ended ← arrayCommaOrEnd
          if ended then pure () else nextLoop fuel

/-- A byte order mark is dropped before the first event. -/
def skipStartBom : Prog Pull Unit := .modify fun p =>
  if p.started then p
  else
    { p with
      started := true
      rest := if cfg.stripBom && startsWithUtf8Bom p.rest then p.rest.drop 3 else p.rest }

/-- The next event. -/
def next : Prog Pull Unit := do
  skipStartBom cfg
  nextLoop platform cfg mode 2

/-! ### The stack -/

section Stack

variable {p : Pull}

theorem completeValue_root (h : p.stack = []) :
    completeValue p = .ok ((), { p with rootDone := true }) := by
  rw [completeValue, Prog.modify_apply]
  split
  · rfl
  · rename_i hcons
    rw [h] at hcons
    cases hcons

theorem completeValue_inner {f : Frame} {outer : List Frame} (h : p.stack = f :: outer) :
    completeValue p = .ok ((), { p with stack := f.completed :: outer }) := by
  rw [completeValue, Prog.modify_apply]
  split
  · rename_i hnil
    rw [h] at hnil
    cases hnil
  · rename_i hcons
    rw [h] at hcons
    cases hcons
    rfl

theorem setPhase_inner {f : Frame} {outer : List Frame} (h : p.stack = f :: outer) (phase : Frame.Phase) :
    setPhase phase p = .ok ((), { p with stack := { f with phase } :: outer }) := by
  rw [setPhase, Prog.modify_apply]
  split
  · rename_i hnil
    rw [h] at hnil
    cases hnil
  · rename_i hcons
    rw [h] at hcons
    cases hcons
    rfl

end Stack

end Pull
end PjhJson
