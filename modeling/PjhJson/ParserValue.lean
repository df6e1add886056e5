import PjhJson.ParserKeyIndex
import PjhJson.ParserText

/-! The value, array and object parsers of `value.cpp`, `array.cpp` and `object.cpp`. The container
parsers take the element parser as an argument and `parseValueInplace` ties the knot, one unit of
fuel for a level of nesting; the loops over elements have fuel of their own. -/

namespace PjhJson.Parser

open Grammar

variable (platform : Platform) (cfg : Config)

/-- The depth check that opens `parse_array_inplace` and `parse_object_inplace`. -/
def checkDepth : Prog Parser Unit := do
  let p ← .get
  if cfg.maxDepth ≠ 0 ∧ cfg.maxDepth < p.mDepth + 1 then failHere .maxDepthExceeded

/-- `m_curr < m_end && *m_curr == c`. -/
def atByte (c : UInt8) : Prog Parser Bool := do
  let p ← .get
  if p.atEnd then pure false
  else
    let next ← peek
    pure (next == c)

/-- After a comma, JSON5 allows the container to be closed by `c`. -/
def closedAfterComma (c : UInt8) : Prog Parser Bool :=
  if cfg.json5 then do
    skipWhitespace platform cfg
    atByte c
  else pure false

/-- The loop of `parse_array_inplace`. -/
def arrayLoop (element : Prog Parser Unit) : Nat → List (Json View) → Prog Parser Unit
  | 0, _ => .stuck
  | fuel + 1, arr => do
    let value ← withElement .null element
    let arr := arr ++ [value]
    skipWhitespace platform cfg
    let c ← peek
    if c = ascii ']' then
      advance 1
      setOut (.array arr)
    else if c = ascii ',' then
      advance 1
      let closed ← closedAfterComma platform cfg (ascii ']')
      if closed then
        advance 1
        setOut (.array arr)
      else arrayLoop element fuel arr
    else failHere .expectedCommaOrBracket

/-- `parse_array_inplace`. -/
def parseArrayInplace (element : Prog Parser Unit) : Prog Parser Unit := do
  checkDepth cfg
  withDepth do
    advance 1
    skipWhitespace platform cfg
    let empty ← atByte (ascii ']')
    if empty then
      advance 1
      setOut (.array [])
    else arrayLoop platform cfg element (← .get).buffer.length []

/-- The locals of `parse_object_inplace`: the entries, the key set of the strict mode and the lazy
key index. -/
structure Members where
  entries : List (View × Json View) := []
  seen : Option (List View) := none
  keyIndex : Option KeyIndex := none

/-- The key dispatch of `parse_object_inplace`. -/
def parseKey : Prog Parser View := do
  let p ← .get
  if cfg.json5 ∧ p.atEnd = false then
    let c ← peek
    if c = ascii '\'' then parseStringJson5 cfg (ascii '\'')
    else if c ≠ ascii '"' then parseIdentifierKey
    else parseString platform cfg
  else
    let c ← peek
    if c ≠ ascii '"' then failHere .expectedStringKey else parseString platform cfg

/-- `check_duplicate_key`, when the strict mode is on; the keys are compared as the buffer has them. -/
def checkDuplicateKey (members : Members) (key : View) : Prog Parser Members :=
  match members.seen with
  | none => pure members
  | some seen => do
    let p ← .get
    if key.read p.buffer ∈ seen.map (View.read p.buffer) then failContext .duplicateKey (key.read p.buffer)
    else pure { members with seen := some (key :: seen) }

/-- `if (!key_index) key_index->build(obj);` -/
def buildOnce (members : Members) (keys : List Bytes) : Option KeyIndex :=
  match members.keyIndex with
  | some index => some index
  | none => KeyIndex.build platform keys

/-- The position of the first entry with the key, or the number of entries; the index is built when
the entries have reached the threshold. -/
def findPosition (members : Members) (keys : List Bytes) (key : Bytes) :
    Option (Nat × Option KeyIndex) :=
  if members.seen.isSome then some (keys.length, members.keyIndex)
  else if kKeyIndexThreshold ≤ keys.length then do
    let index ← buildOnce platform members keys
    let (pos, index) ← index.findOrInsert platform keys key
    some (pos, some index)
  else some (keys.findIdx (· = key), members.keyIndex)

/-- The value of a member: it overwrites the value at `pos`, or is appended with its key. -/
def parseMember (element : Prog Parser Unit) (members : Members) (key : View) (pos : Nat) :
    Prog Parser Members :=
  match members.entries[pos]? with
  | some (first, old) => do
    let value ← withElement old element
    pure { members with entries := members.entries.set pos (first, value) }
  | none => do
    let value ← withElement .null element
    pure { members with entries := members.entries ++ [(key, value)] }

/-- One round of the loop of `parse_object_inplace`, up to the value of the member. -/
def objectMember (element : Prog Parser Unit) (members : Members) : Prog Parser Members := do
  skipWhitespace platform cfg
  let key ← parseKey platform cfg
  let text ← characters key
  let members ← checkDuplicateKey members key
  skipWhitespace platform cfg
  let c ← peek
  if c ≠ ascii ':' then failHere .expectedColon
  else
    advance 1
    let p ← .get
    match findPosition platform members (members.entries.map fun entry => entry.1.read p.buffer)
        text with
    | none => .stuck
    | some (pos, keyIndex) => parseMember element { members with keyIndex } key pos

/-- The loop of `parse_object_inplace`. -/
def objectLoop (element : Prog Parser Unit) : Nat → Members → Prog Parser Unit
  | 0, _ => .stuck
  | fuel + 1, members => do
    let members ← objectMember platform cfg element members
    skipWhitespace platform cfg
    let p ← .get
    if p.atEnd then failHere .unexpectedEndOfObject
    else
      let c ← peek
      if c = ascii '}' then
        advance 1
        setOut (.object members.entries)
      else if c = ascii ',' then
        advance 1
        let closed ← closedAfterComma platform cfg (ascii '}')
        if closed then
          advance 1
          setOut (.object members.entries)
        else objectLoop element fuel members
      else failHere .expectedCommaOrBrace

/-- `parse_object_inplace`. -/
def parseObjectInplace (element : Prog Parser Unit) : Prog Parser Unit := do
  checkDepth cfg
  withDepth do
    advance 1
    skipWhitespace platform cfg
    let c ← peek
    if c = ascii '}' then
      advance 1
      setOut (.object [])
    else
      objectLoop platform cfg element (← .get).buffer.length
        { seen := if cfg.strictDuplicateKeys then some [] else none }

/-- The switch of the two value parsers on the byte after the whitespace; `unexpected` is the code
of the default branch. -/
def parseValueAt (element : Prog Parser Unit) (unexpected : ErrorCode) (c : UInt8) :
    Prog Parser Unit :=
  if c = ascii '{' then parseObjectInplace platform cfg element
  else if c = ascii '[' then parseArrayInplace platform cfg element
  else if c = ascii '"' then do setOut (.string (← parseString platform cfg))
  else if c = ascii 't' ∨ c = ascii 'f' ∨ c = ascii 'n' then parseLiteral cfg
  else if c = ascii '-' ∨ isDigit c then parseNumber platform cfg
  else if cfg.json5 ∧ c = ascii '\'' then do
    setOut (.string (← parseStringJson5 cfg (ascii '\'')))
  else if cfg.json5 ∧ (c = ascii '+' ∨ c = ascii '.' ∨ c = ascii 'I' ∨ c = ascii 'N') then
    parseNumber platform cfg
  else failHere unexpected

/-- `parse_value_inplace`. -/
def parseValueInplace : Nat → Prog Parser Unit
  | 0 => .stuck
  | fuel + 1 => do
    skipWhitespace platform cfg
    let c ← peek
    parseValueAt platform cfg (parseValueInplace fuel) .unexpectedCharacter c

/-- `parse_value`: the sentinel at the end of the input has an error of its own. -/
def parseValue (fuel : Nat) : Prog Parser Unit := do
  skipWhitespace platform cfg
  let c ← peek
  let p ← .get
  if c = 0 ∧ p.atEnd then failHere .unexpectedEndOfInput
  else parseValueAt platform cfg (parseValueInplace platform cfg fuel) .unexpectedValueCharacter c

end PjhJson.Parser
