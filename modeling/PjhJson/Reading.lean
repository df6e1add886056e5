import PjhJson.Ast
import PjhJson.Escape
import PjhJson.LibProg
import PjhJson.Number
import PjhJson.Trivia

/-! Reading a text without memory: the parser over the bytes that are still unread. Strings are
byte strings of their own, the padding behind the text is what a read past its end finds (NUL), and
`tail` is the number of bytes behind the part `[m_begin, m_end)` that is to be parsed: none for a
whole input, the following lines for a line of a JSON Lines input. -/

namespace PjhJson

open Grammar

/-- A recorded failure: `left` is the number of unread bytes at the offending position, which a
context-free failure does not have. -/
structure Failure where
  code : ErrorCode
  left : Option Nat := none
  detail : Bytes := []
  deriving DecidableEq, Repr

structure Reading where
  rest : Bytes
  failure : Option Failure := none
  deriving DecidableEq, Repr

namespace Reading

/-- The byte at the cursor. -/
def here (r : Reading) : UInt8 := r.rest.headD 0

def atEnd (tail : Nat) (r : Reading) : Bool := r.rest.length ≤ tail

/-- The unread bytes of the part to be parsed. -/
def body (tail : Nat) (r : Reading) : Bytes := r.rest.take (r.rest.length - tail)

theorem length_body (tail : Nat) (r : Reading) : (r.body tail).length = r.rest.length - tail := by
  rw [body, List.length_take]
  omega

theorem length_body_le (tail : Nat) (r : Reading) : (r.body tail).length ≤ r.rest.length := by
  rw [length_body]
  exact Nat.sub_le _ _

def peek : Prog Reading UInt8 := fun r => .ok (r.here, r)

def advance (count : Nat) : Prog Reading Unit := .modify fun r => { r with rest := r.rest.drop count }

/-- Move to where a scan of the unread part left off. -/
def advanceTo (tail : Nat) (rest : Bytes) : Prog Reading Unit :=
  .modify fun r => { r with rest := r.rest.drop ((r.body tail).length - rest.length) }

/-- The first failure wins. -/
def record (failure : Failure) : Prog Reading Unit :=
  .modify fun r => if r.failure.isSome then r else { r with failure := some failure }

def fail {α : Type} (code : ErrorCode) (left : Nat) : Prog Reading α := do
  record { code, left := some left }
  .halt

def failHere {α : Type} (code : ErrorCode) : Prog Reading α := do
  let r ← .get
  fail code r.rest.length

def failContext {α : Type} (code : ErrorCode) (detail : Bytes := []) : Prog Reading α := do
  record { code, detail }
  .halt

/-! ### Escapes of a text that NUL bytes follow -/

/-- Four hex digits; the NUL behind the text is not one. -/
def readHexDigits : Nat → Nat → Bytes → Res EscapeError (Nat × Bytes)
  | 0, code, text => .ok (code, text)
  | _ + 1, _, [] => .error (.invalidHexDigit, some [])
  | n + 1, code, c :: text =>
    match hexValue c with
    | none => .error (.invalidHexDigit, some (c :: text))
    | some v => readHexDigits n ((code <<< 4) ||| v) text

/-- The UTF-8 bytes of a code point. -/
def readEncoded (cp : Nat) (text : Bytes) : Res EscapeError (Bytes × Bytes) :=
  match encodeUtf8 cp with
  | some written => .ok (written, text)
  | none => .error (.invalidCodepoint, none)

def readLowSurrogate (high : Nat) (text : Bytes) : Res EscapeError (Bytes × Bytes) := do
  let (low, text) ← readHexDigits 4 0 text
  if isLowSurrogate low then readEncoded (surrogatePair high low) text
  else .error (.invalidSurrogatePair, some text)

def readCodeUnit (cp : Nat) (text : Bytes) : Res EscapeError (Bytes × Bytes) :=
  if isHighSurrogate cp then
    if text.take 2 = [ascii '\\', ascii 'u'] then readLowSurrogate cp (text.drop 2)
    else .error (.expectedLowSurrogate, some text)
  else if isLowSurrogate cp then .error (.loneLowSurrogate, some text)
  else readEncoded cp text

/-- An escape from its backslash on. -/
def readEscape (text : Bytes) : Res EscapeError (Bytes × Bytes) :=
  match text.tail with
  | [] => .error (.invalidEscapeChar, some [])
  | c :: rest =>
    if shortEscapeValue c ≠ 0 then .ok ([shortEscapeValue c], rest)
    else if c ≠ ascii 'u' then .error (.invalidEscapeChar, some (c :: rest))
    else do
      let (cp, rest) ← readHexDigits 4 0 rest
      readCodeUnit cp rest

/-! ### Tokens -/

variable (platform : Platform) (cfg : Config) (tail : Nat)

/-- JSON5 trivia: an unterminated comment is recorded, and the reading goes on. -/
def skipTriviaHere : Prog Reading Unit := do
  let r ← .get
  match skipTrivia (r.body tail) with
  | none => .stuck
  | some (rest, unterminated) =>
    advanceTo tail rest
    if unterminated then record { code := .unexpectedEndOfInput, left := some tail }

def skipWhitespace : Prog Reading Unit :=
  if cfg.json5 then skipTriviaHere tail
  else .modify fun r => { r with rest := r.rest.dropWhile isWhitespace }

def isAfterLiteral (c : UInt8) : Bool :=
  c == 0 || isWhitespace c || c == ascii ',' || c == ascii ':' || c == ascii ']' || c == ascii '}'

/-- The literal at the cursor and its length. -/
def literalHere (r : Reading) : Option (Ast × Nat) :=
  if r.rest.take 4 = kTrue then some (.boolean true, 4)
  else if r.rest.take 4 = kNull then some (.null, 4)
  else if r.rest.take 5 = kFalse then some (.boolean false, 5)
  else none

def readLiteral : Prog Reading Ast := do
  match literalHere (← .get) with
  | none => failHere .invalidLiteral
  | some (value, length) =>
    advance length
    let next ← peek
    if cfg.json5 || isAfterLiteral next then pure value else failHere .invalidLiteralTrailing

def readNumber : Prog Reading Ast := do
  let r ← .get
  match parseNumberToken platform cfg (r.body tail) with
  | .error (code, anchor) => fail code (r.rest.length - ((r.body tail).length - anchor.length))
  | .ok (_, rest) =>
    advanceTo tail rest
    pure (.number (between (r.body tail) rest))

/-! ### Strings -/

/-- Fail where the UTF-8 gate did, for the content that `left` unread bytes begin with. -/
def checkUtf8 (left : Nat) (ck : Utf8Checker) : Prog Reading Unit :=
  if ck.failed then fail ck.code (left - ck.err) else pure ()

/-- Decode the escape that `text`, the bytes from the cursor on, begins with. -/
def decodeEscape (text : Reading → Bytes) (decoder : Bytes → Res EscapeError (Bytes × Bytes)) :
    Prog Reading Bytes := do
  let r ← .get
  match decoder (text r) with
  | .stuck => .stuck
  | .error (code, none) => failContext code
  | .error (code, some anchor) => fail code (r.rest.length - ((text r).length - anchor.length))
  | .ok (written, rest) =>
    advance ((text r).length - rest.length)
    pure written

/-- The content from the first escape on, `decoded` being what comes before. -/
def decodeLoop (left : Nat) : Nat → Bytes → Utf8Checker → Prog Reading Bytes
  | 0, _, _ => .stuck
  | fuel + 1, decoded, ck => do
    let c ← peek
    if c = ascii '"' then
      checkUtf8 left (if cfg.strictUtf8 then ck.finish else ck)
      advance 1
      pure decoded
    else
      let r ← .get
      let ck := if cfg.strictUtf8 then ck.feed c (left - r.rest.length) else ck
      checkUtf8 left ck
      if c = ascii '\\' then
        let written ← decodeEscape Reading.rest readEscape
        decodeLoop left fuel (decoded ++ written) ck
      else if c < 0x20 then failHere .unescapedControl
      else
        advance 1
        decodeLoop left fuel (decoded ++ [c]) ck

/-- The bytes that end the plain part of a string. -/
def isStringStop (c : UInt8) : Bool := c == ascii '"' || c == ascii '\\' || c < 0x20

/-- The content of a string and its closing quote. -/
def readStringBody : Prog Reading Bytes := do
  let start ← .get
  let plain := start.rest.takeWhile fun c => !isStringStop c
  advance plain.length
  let c ← peek
  if c = ascii '"' then
    checkUtf8 start.rest.length (if cfg.strictUtf8 then checkUtf8Strict plain else {})
    advance 1
    pure plain
  else if c = ascii '\\' then
    let ck := if cfg.strictUtf8 then ({} : Utf8Checker).feedRange plain 0 else {}
    checkUtf8 start.rest.length ck
    decodeLoop cfg start.rest.length (start.rest.length + 1) plain ck
  else
    let r ← .get
    if r.atEnd tail then failHere .unterminatedString else failHere .unescapedControl

/-- The content of a JSON5 string with the given quote. -/
def stringLoopJson5 (quote : UInt8) (left : Nat) : Nat → Bytes → Utf8Checker → Prog Reading Bytes
  | 0, _, _ => .stuck
  | fuel + 1, decoded, ck => do
    let r ← .get
    if r.atEnd tail then failHere .unterminatedString
    else
      let c ← peek
      if c = quote then
        checkUtf8 left (if cfg.strictUtf8 then ck.finish else ck)
        advance 1
        pure decoded
      else
        let ck := if cfg.strictUtf8 then ck.feed c (left - r.rest.length) else ck
        checkUtf8 left ck
        if c = ascii '\\' then
          let written ← decodeEscape (body tail) handleEscapeJson5Bounded
          stringLoopJson5 quote left fuel (decoded ++ written) ck
        else if isJson5LineTerminatorAscii c then failHere .unescapedControl
        else
          advance 1
          stringLoopJson5 quote left fuel (decoded ++ [c]) ck

def readStringJson5 (quote : UInt8) : Prog Reading Bytes := do
  advance 1
  let r ← .get
  stringLoopJson5 cfg tail quote r.rest.length (r.rest.length + 1) [] {}

def readString : Prog Reading Bytes := do
  let r ← .get
  if r.atEnd tail then failHere .expectedQuote
  else
    let c ← peek
    if c ≠ ascii '"' then failHere .expectedQuote
    else if cfg.json5 then readStringJson5 cfg tail (ascii '"')
    else
      advance 1
      readStringBody cfg tail

/-- The code point at the start of `text`, the bytes it is spelled with in UTF-8 and the bytes after
it; an escape is decoded. -/
def identifierUnit (text : Bytes) : Option (Nat × Option Bytes × Bytes) :=
  if text.head? = some (ascii '\\') then
    (decodeIdentifierEscape text).map fun (cp, rest) => (cp, encodeUtf8 cp, rest)
  else
    (Unicode.decodeUtf8 text).map fun (cp, length) => (cp, some (text.take length), text.drop length)

def identifierLoop : Nat → Bool → Bytes → Prog Reading Bytes
  | 0, _, _ => .stuck
  | fuel + 1, first, decoded => do
    let r ← .get
    match identifierUnit (r.body tail) with
    | none => pure decoded
    | some (cp, spelling, rest) =>
      if !(if first then Unicode.isIdentifierStart cp else Unicode.isIdentifierContinue cp) then
        pure decoded
      else
        match spelling with
        | none => failContext .invalidCodepoint
        | some written =>
          advanceTo tail rest
          identifierLoop fuel false (decoded ++ written)

def readIdentifierKey : Prog Reading Bytes := do
  let start ← .get
  let key ← identifierLoop tail (start.rest.length + 1) true []
  let r ← .get
  if r.rest.length = start.rest.length then failHere .expectedStringKey else pure key

end Reading
end PjhJson
