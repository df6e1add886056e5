import PjhJson.ParserValue

/-! The entry points of `parse.cpp`: `Parser::parse`, `parse_copy` and `parse_jsonl`. -/

namespace PjhJson

open Grammar

variable (platform : Platform) (cfg : Config)

def kSizeMax : Nat := 2 ^ 64 - 1

/-- `padded_fits`. -/
def paddedFits (n : Nat) : Bool := n ≤ kSizeMax - kPaddingWidth

namespace Parser

/-- `skip_leading_bom`. -/
def skipLeadingBom : Prog Parser Unit := do
  let p ← .get
  if p.mCurr = p.mBegin ∧ startsWithUtf8Bom p.view then advance 3

/-- `if (m_strip_bom) skip_leading_bom();` -/
def stripLeadingBom : Prog Parser Unit := if cfg.stripBom then skipLeadingBom else pure ()

/-- `if (m_has_error) return false;` -/
def failIfRecorded : Prog Parser Unit := do
  let p ← .get
  if p.mError.isSome then .halt

/-- `Parser::parse`. -/
def parse : Prog Parser Unit := do
  let p ← .get
  if !p.mAssumePadded then failContext .parserRequiresPadding
  else
    stripLeadingBom cfg
    parseValue platform cfg p.buffer.length
    failIfRecorded
    skipWhitespace platform cfg
    failIfRecorded
    let p ← .get
    if !p.atEnd then failHere .extraCharactersAfterValue

/-- `p.error()` after a failed parse. -/
def error (p : Parser) : Error := p.mError.getD { code := .none }

end Parser

/-- `Document`: the tree borrows its strings from the buffer. -/
structure Document where
  buffer : Bytes
  root : Json View
  deriving Repr

/-- The tree with its strings read out of the buffer. -/
def Document.tree (document : Document) : Json Bytes := document.root.map (View.read document.buffer)

/-- The input with the NUL padding behind it. -/
def padded (input : Bytes) : Bytes := input ++ List.replicate kPaddingWidth 0

/-- `parse_copy`. -/
def parseCopy (json : Bytes) : Res Error Document :=
  if !paddedFits json.length then .error { code := .inputTooLarge }
  else
    match Parser.parse platform cfg
        { buffer := padded json, mBegin := 0, mCurr := 0, mEnd := json.length } with
    | .ok (_, p) => .ok { buffer := p.buffer, root := p.out }
    | .error p => .error p.error
    | .stuck => .stuck

/-- The line at `i`: the offset of the `\n` that ends it, or of the end of the input, and the length
without a trailing `\r`. -/
def lineAt (buffer : Bytes) (i n : Nat) : Nat × Nat :=
  let line := ((buffer.take n).drop i).takeWhile (· != 0x0A)
  (i + line.length,
    if line.getLast? = some 0x0D then line.length - 1 else line.length)

/-- The JSON5 blank-line test. -/
def isBlankJson5 : Nat → Bytes → Bool
  | 0, _ => false
  | _ + 1, [] => true
  | fuel + 1, c :: rest =>
    if c < 0x80 then isJson5WhitespaceAscii c && isBlankJson5 fuel rest
    else
      match Unicode.decodeUtf8 (c :: rest) with
      | some (cp, unit) => isJson5Whitespace cp && isBlankJson5 fuel ((c :: rest).drop unit)
      | none => false

/-- The blank-line test of `parse_jsonl`. -/
def isBlankLine (line : Bytes) : Bool :=
  if cfg.json5 then isBlankJson5 (line.length + 1) line else line.all isWhitespace

/-- The loop over the lines from `i` on; each line is parsed in the shared buffer. -/
def jsonlLoop (n : Nat) : Nat → Nat → Bytes → List (Json View) → Res Error Document
  | 0, _, _, _ => .stuck
  | fuel + 1, i, buffer, arr =>
    if i < n then
      let (nl, length) := lineAt buffer i n
      let next := if nl < n then nl + 1 else n
      if isBlankLine cfg (Memory.slice buffer i length) then jsonlLoop n fuel next buffer arr
      else
        match Parser.parse platform { cfg with stripBom := false }
            { buffer, mBegin := i, mCurr := i, mEnd := i + length } with
        | .ok (_, p) => jsonlLoop n fuel next p.buffer (arr ++ [p.out])
        | .error p => .error p.error
        | .stuck => .stuck
    else .ok { buffer, root := .array arr }

/-- `parse_jsonl`: a byte order mark is dropped once, at the start of the input. -/
def parseJsonl (input : Bytes) : Res Error Document :=
  if !paddedFits input.length then .error { code := .inputTooLarge }
  else
    let start := if cfg.stripBom && startsWithUtf8Bom input then 3 else 0
    jsonlLoop platform cfg input.length (input.length + 1) start (padded input) []

end PjhJson
