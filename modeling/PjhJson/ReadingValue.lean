import PjhJson.Reading

/-! Reading values, containers and whole texts. A value is read at a depth, the number of containers
that are open around it. What is done between two tokens is a parameter: `skipWhitespace` in the readers
that follow the parser. -/

namespace PjhJson.Reading

open Grammar

variable (skip : Config → Nat → Prog Reading Unit) (platform : Platform) (cfg : Config) (tail : Nat)

def checkDepth (depth : Nat) : Prog Reading Unit :=
  if cfg.maxDepth ≠ 0 ∧ cfg.maxDepth < depth + 1 then failHere .maxDepthExceeded else pure ()

/-- Whether `c` is the next byte of the part to be parsed. -/
def atByte (c : UInt8) : Prog Reading Bool := do
  let r ← .get
  if r.atEnd tail then pure false else pure (r.here == c)

/-- After a comma: JSON5 allows the container to be closed here. -/
def closedAfterComma (c : UInt8) : Prog Reading Bool :=
  if cfg.json5 then do
    skip cfg tail
    atByte tail c
  else pure false

def elementsLoop (element : Prog Reading Ast) : Nat → List Ast → Prog Reading (List Ast)
  | 0, _ => .stuck
  | fuel + 1, elements => do
    let value ← element
    skip cfg tail
    let c ← peek
    if c = ascii ']' then
      advance 1
      pure (elements ++ [value])
    else if c = ascii ',' then
      advance 1
      let closed ← closedAfterComma skip cfg tail (ascii ']')
      if closed then
        advance 1
        pure (elements ++ [value])
      else elementsLoop element fuel (elements ++ [value])
    else failHere .expectedCommaOrBracket

def readArray (depth : Nat) (element : Nat → Prog Reading Ast) : Prog Reading Ast := do
  let start ← .get
  checkDepth cfg depth
  advance 1
  skip cfg tail
  let empty ← atByte tail (ascii ']')
  if empty then
    advance 1
    pure (.array [])
  else
    let elements ← elementsLoop skip cfg tail (element (depth + 1)) start.rest.length []
    pure (.array elements)

def readKey : Prog Reading Bytes := do
  let r ← .get
  if cfg.json5 ∧ r.atEnd tail = false then
    if r.here = ascii '\'' then readStringJson5 cfg tail (ascii '\'')
    else if r.here ≠ ascii '"' then readIdentifierKey tail
    else readString cfg tail
  else if r.here ≠ ascii '"' then failHere .expectedStringKey
  else readString cfg tail

/-- The strict mode rejects a key that an earlier member has. -/
def checkDuplicateKey (members : List (Bytes × Ast)) (key : Bytes) : Prog Reading Unit :=
  if cfg.strictDuplicateKeys ∧ key ∈ members.map (·.1) then failContext .duplicateKey key
  else pure ()

def readMember (element : Prog Reading Ast) (members : List (Bytes × Ast)) :
    Prog Reading (Bytes × Ast) := do
  skip cfg tail
  let key ← readKey cfg tail
  checkDuplicateKey cfg members key
  skip cfg tail
  let c ← peek
  if c ≠ ascii ':' then failHere .expectedColon
  else
    advance 1
    let value ← element
    pure (key, value)

def membersLoop (element : Prog Reading Ast) :
    Nat → List (Bytes × Ast) → Prog Reading (List (Bytes × Ast))
  | 0, _ => .stuck
  | fuel + 1, members => do
    let member ← readMember skip cfg tail element members
    skip cfg tail
    let r ← .get
    if r.atEnd tail then failHere .unexpectedEndOfObject
    else if r.here = ascii '}' then
      advance 1
      pure (members ++ [member])
    else if r.here = ascii ',' then
      advance 1
      let closed ← closedAfterComma skip cfg tail (ascii '}')
      if closed then
        advance 1
        pure (members ++ [member])
      else membersLoop element fuel (members ++ [member])
    else failHere .expectedCommaOrBrace

def readObject (depth : Nat) (element : Nat → Prog Reading Ast) : Prog Reading Ast := do
  let start ← .get
  checkDepth cfg depth
  advance 1
  skip cfg tail
  let c ← peek
  if c = ascii '}' then
    advance 1
    pure (.object [])
  else
    let members ← membersLoop skip cfg tail (element (depth + 1)) start.rest.length []
    pure (.object members)

/-- The dispatch on the first byte of a value. -/
def readValueAt (depth : Nat) (element : Nat → Prog Reading Ast) (unexpected : ErrorCode)
    (c : UInt8) : Prog Reading Ast :=
  if c = ascii '{' then readObject skip cfg tail depth element
  else if c = ascii '[' then readArray skip cfg tail depth element
  else if c = ascii '"' then do pure (.string (← readString cfg tail))
  else if c = ascii 't' ∨ c = ascii 'f' ∨ c = ascii 'n' then readLiteral cfg
  else if c = ascii '-' ∨ isDigit c then readNumber platform cfg tail
  else if cfg.json5 ∧ c = ascii '\'' then do
    pure (.string (← readStringJson5 cfg tail (ascii '\'')))
  else if cfg.json5 ∧ (c = ascii '+' ∨ c = ascii '.' ∨ c = ascii 'I' ∨ c = ascii 'N') then
    readNumber platform cfg tail
  else failHere unexpected

/-- A value inside a container. -/
def readElement : Nat → Nat → Prog Reading Ast
  | 0, _ => .stuck
  | fuel + 1, depth => do
    skip cfg tail
    let c ← peek
    readValueAt skip platform cfg tail depth (readElement fuel) .unexpectedCharacter c

/-- The value of the whole text. -/
def readValue (fuel : Nat) : Prog Reading Ast := do
  skip cfg tail
  let c ← peek
  let r ← .get
  let element := readElement skip platform cfg tail fuel
  if c = 0 ∧ r.atEnd tail then failHere .unexpectedEndOfInput
  else readValueAt skip platform cfg tail 0 element .unexpectedValueCharacter c

def failIfRecorded : Prog Reading Unit := do
  let r ← .get
  if r.failure.isSome then .halt

/-- A leading byte order mark is dropped on demand. -/
def skipLeadingBom : Prog Reading Unit :=
  .modify fun r =>
    if cfg.stripBom ∧ startsWithUtf8Bom (r.body tail) then { r with rest := r.rest.drop 3 } else r

/-- A whole text: one value and nothing but whitespace around it. -/
def readText : Prog Reading Ast := do
  let r ← .get
  skipLeadingBom cfg tail
  let value ← readValue skip platform cfg tail r.rest.length
  failIfRecorded
  skip cfg tail
  failIfRecorded
  let r ← .get
  if r.atEnd tail then pure value else failHere .extraCharactersAfterValue

end PjhJson.Reading
