import PjhJson.Escape
import PjhJson.ParserState

/-! The token parsers of `utils.cpp`, `literal.cpp`, `number.cpp`, `string.cpp` and the identifier
part of `object.cpp`. Plain text is scanned a SIMD batch at a time; the decoders overwrite the
source of the string that they decode. -/

namespace PjhJson.Parser

open Grammar

variable (platform : Platform) (cfg : Config)

/-- `skip_json5_trivia`: an unterminated comment is recorded, and the parse goes on. -/
def skipJson5Trivia : Prog Parser Unit := do
  let p ← .get
  match skipTrivia p.view with
  | none => .stuck
  | some (rest, unterminated) =>
    advanceTo rest
    if unterminated then record .unexpectedEndOfInput p.mEnd

/-- The cursor after the SIMD scan for a byte that meets `hit`. -/
def scanTo (hit : UInt8 → Bool) : Prog Parser Unit := do
  let p ← .get
  match Memory.blockScan platform.batch hit p.buffer p.buffer.length p.mCurr with
  | some pos => setCurr pos
  | none => .stuck

/-- `skip_whitespace`. -/
def skipWhitespace : Prog Parser Unit :=
  if cfg.json5 then skipJson5Trivia
  else do
    let c ← peek
    if c ≤ 0x20 then scanTo platform fun b => !isWhitespace b

/-- `kValidAfterLiteral`: whitespace, structural characters and NUL. -/
def kValidAfterLiteral (c : UInt8) : Bool :=
  c == 0 || c == 9 || c == 10 || c == 13 || c == 32 || c == 44 || c == 58 || c == 93 || c == 125

/-- The value of the literal at the cursor and its length; `false` is matched in an 8-byte load. -/
def matchLiteralHere : Prog Parser (Json View × Nat) := do
  let val32 ← load 4
  if val32 = kTrue then pure (.boolean true, 4)
  else if val32 = kNull then pure (.null, 4)
  else
    let val64 ← load 8
    if val64.take 5 = kFalse then pure (.boolean false, 5)
    else failHere .invalidLiteral

/-- `parse_literal`: `out` is written before the byte after the literal is checked. -/
def parseLiteral : Prog Parser Unit := do
  let (value, length) ← matchLiteralHere
  advance length
  setOut value
  if !cfg.json5 then
    let next ← peek
    if !kValidAfterLiteral next then failHere .invalidLiteralTrailing

/-- `parse_number`. -/
def parseNumber : Prog Parser Unit := do
  let p ← .get
  match parseNumberToken platform cfg p.view with
  | .error (code, anchor) => fail code (p.mCurr + (p.view.length - anchor.length))
  | .ok (number, rest) =>
    advanceTo rest
    setOut number.toJson

/-! ### Strings -/

/-- `if (ck.failed()) { fail(ck.code, ck.err); return false; }` for the content from `start` on. -/
def checkUtf8 (start : Nat) (ck : Utf8Checker) : Prog Parser Unit :=
  if ck.failed then fail ck.code (start + ck.err) else pure ()

/-- Run an escape decoder on `text`, the bytes from the cursor on, write what it decodes at `dst` and
move the cursor behind the escape. The result is the next `dst`. -/
def decodeEscape (text : Parser → Bytes) (decoder : Bytes → Res EscapeError (Bytes × Bytes))
    (dst : Nat) : Prog Parser Nat := do
  let p ← .get
  match decoder (text p) with
  | .stuck => .stuck
  | .error (code, none) => failContext code
  | .error (code, some anchor) => fail code (p.mCurr + ((text p).length - anchor.length))
  | .ok (written, rest) =>
    store dst written
    setCurr (p.mCurr + ((text p).length - rest.length))
    pure (dst + written.length)

/-- Phase 2 of `parse_string`: decode in place up to the closing quote. -/
def decodeLoop (start : Nat) : Nat → Nat → Utf8Checker → Prog Parser View
  | 0, _, _ => .stuck
  | fuel + 1, dst, ck => do
    let c ← peek
    if c = ascii '"' then
      checkUtf8 start (if cfg.strictUtf8 then ck.finish else ck)
      advance 1
      pure ⟨start, dst - start⟩
    else
      let p ← .get
      let ck := if cfg.strictUtf8 then ck.feed c (p.mCurr - start) else ck
      checkUtf8 start ck
      if c = ascii '\\' then
        let dst ← decodeEscape (fun p => p.buffer.drop p.mCurr) handleEscape dst
        decodeLoop start fuel dst ck
      else if c < 0x20 then failHere .unescapedControl
      else
        store dst [c]
        advance 1
        decodeLoop start fuel (dst + 1) ck

/-- The bytes that stop phase 1 of `parse_string`. -/
def isStringStop (c : UInt8) : Bool := c == ascii '"' || c == ascii '\\' || c < 0x20

/-- The RFC body of `parse_string`, after the opening quote. -/
def parseStringBody : Prog Parser View := do
  let start := (← .get).mCurr
  scanTo platform isStringStop
  let p ← .get
  let scanned := Memory.slice p.buffer start (p.mCurr - start)
  let c ← peek
  if c = ascii '"' then
    checkUtf8 start (if cfg.strictUtf8 then checkUtf8Strict scanned else {})
    advance 1
    pure ⟨start, p.mCurr - start⟩
  else if c = ascii '\\' then
    let ck := if cfg.strictUtf8 then ({} : Utf8Checker).feedRange scanned 0 else {}
    checkUtf8 start ck
    decodeLoop cfg start p.buffer.length p.mCurr ck
  else if p.atEnd then failHere .unterminatedString
  else failHere .unescapedControl

/-- The loop of `parse_string_json5`; `dst` is set once an escape must be decoded in place. -/
def stringLoopJson5 (quote : UInt8) (start : Nat) : Nat → Option Nat → Utf8Checker → Prog Parser View
  | 0, _, _ => .stuck
  | fuel + 1, dst, ck => do
    let p ← .get
    if p.atEnd then failHere .unterminatedString
    else
      let c ← peek
      if c = quote then
        checkUtf8 start (if cfg.strictUtf8 then ck.finish else ck)
        advance 1
        pure ⟨start, dst.getD p.mCurr - start⟩
      else
        let ck := if cfg.strictUtf8 then ck.feed c (p.mCurr - start) else ck
        checkUtf8 start ck
        if c = ascii '\\' then
          let dst ← decodeEscape Parser.view handleEscapeJson5Bounded (dst.getD p.mCurr)
          stringLoopJson5 quote start fuel (some dst) ck
        else if isJson5LineTerminatorAscii c then failHere .unescapedControl
        else
          match dst with
          | none =>
            advance 1
            stringLoopJson5 quote start fuel none ck
          | some dst =>
            store dst [c]
            advance 1
            stringLoopJson5 quote start fuel (some (dst + 1)) ck

/-- `parse_string_json5`. -/
def parseStringJson5 (quote : UInt8) : Prog Parser View := do
  advance 1
  let p ← .get
  stringLoopJson5 cfg quote p.mCurr p.buffer.length none {}

/-- `parse_string`. -/
def parseString : Prog Parser View := do
  let p ← .get
  if p.atEnd then failHere .expectedQuote
  else
    let c ← peek
    if c ≠ ascii '"' then failHere .expectedQuote
    else if cfg.json5 then parseStringJson5 cfg (ascii '"')
    else
      advance 1
      parseStringBody platform cfg

/-! ### Identifier keys -/

/-- The code point at the start of the bytes up to `m_end`, the bytes after it, and whether it is
spelled as an escape. -/
def identifierUnit (text : Bytes) : Option (Nat × Bytes × Bool) :=
  if text.head? = some (ascii '\\') then
    (decodeIdentifierEscape text).map fun (cp, rest) => (cp, rest, true)
  else (Unicode.decodeUtf8 text).map fun (cp, length) => (cp, text.drop length, false)

/-- The loop of `parse_identifier_key`; the result is the end of the decoded key. -/
def identifierLoop : Nat → Bool → Option Nat → Prog Parser Nat
  | 0, _, _ => .stuck
  | fuel + 1, first, dst => do
    let p ← .get
    match identifierUnit p.view with
    | none => pure (dst.getD p.mCurr)
    | some (cp, rest, escaped) =>
      if !(if first then Unicode.isIdentifierStart cp else Unicode.isIdentifierContinue cp) then
        pure (dst.getD p.mCurr)
      else if escaped then
        match encodeUtf8 cp with
        | none => failContext .invalidCodepoint
        | some written =>
          store (dst.getD p.mCurr) written
          advanceTo rest
          identifierLoop fuel false (some (dst.getD p.mCurr + written.length))
      else
        match dst with
        | none =>
          advanceTo rest
          identifierLoop fuel false none
        | some dst =>
          let raw := between p.view rest
          store dst raw
          advanceTo rest
          identifierLoop fuel false (some (dst + raw.length))

/-- `parse_identifier_key`. -/
def parseIdentifierKey : Prog Parser View := do
  let start := (← .get).mCurr
  let last ← identifierLoop (← .get).buffer.length true none
  let p ← .get
  if p.mCurr = start then failHere .expectedStringKey
  else pure ⟨start, last - start⟩

end PjhJson.Parser
