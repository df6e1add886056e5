import PjhJson.Utf8

/-! The escape decoders. A cursor is the list of the bytes from it on, so an error position is a
list as well. The RFC decoder reads without a bound: where its list ends, memory ends, and a read
there is stuck. The JSON5 decoders are given the bytes up to `m_end` and test for the end. -/

namespace PjhJson

open Grammar

/-- A failed escape: the code and the offending position, which `InvalidCodepoint` does not have. -/
abbrev EscapeError := ErrorCode × Option Bytes

/-- `parse_hex4` with `n` digits to go. -/
def parseHexDigits : Nat → Nat → Bytes → Res EscapeError (Nat × Bytes)
  | 0, code, curr => .ok (code, curr)
  | _ + 1, _, [] => .stuck
  | n + 1, code, c :: curr =>
    match hexValue c with
    | none => .error (.invalidHexDigit, some (c :: curr))
    | some v => parseHexDigits n ((code <<< 4) ||| v) curr

def parseHex4 (curr : Bytes) : Res EscapeError (Nat × Bytes) := parseHexDigits 4 0 curr

def surrogatePair (high low : Nat) : Nat := 0x10000 + (((high - 0xD800) <<< 10) ||| (low - 0xDC00))

def encodeEscape (cp : Nat) (curr : Bytes) : Res EscapeError (Bytes × Bytes) :=
  match encodeUtf8 cp with
  | some written => .ok (written, curr)
  | none => .error (.invalidCodepoint, none)

/-- The low half of a pair, after the `\u` that announces it. -/
def handleLowSurrogate (high : Nat) (curr : Bytes) : Res EscapeError (Bytes × Bytes) := do
  let (low, curr) ← parseHex4 curr
  if isLowSurrogate low then encodeEscape (surrogatePair high low) curr
  else .error (.invalidSurrogatePair, some curr)

/-- The code point of a `\u` escape once its first four digits are read. -/
def handleCodeUnit (cp : Nat) (curr : Bytes) : Res EscapeError (Bytes × Bytes) :=
  if isHighSurrogate cp then
    match curr with
    | [] => .stuck
    | a :: rest =>
      if a = ascii '\\' then
        match rest with
        | [] => .stuck
        | b :: rest =>
          if b = ascii 'u' then handleLowSurrogate cp rest
          else .error (.expectedLowSurrogate, some curr)
      else .error (.expectedLowSurrogate, some curr)
  else if isLowSurrogate cp then .error (.loneLowSurrogate, some curr)
  else encodeEscape cp curr

/-- `handle_escape` from the backslash on: the bytes it writes and the bytes after the escape. -/
def handleEscape (curr : Bytes) : Res EscapeError (Bytes × Bytes) :=
  match curr.tail with
  | [] => .stuck
  | c :: rest =>
    if shortEscapeValue c ≠ 0 then .ok ([shortEscapeValue c], rest)
    else if c ≠ ascii 'u' then .error (.invalidEscapeChar, some (c :: rest))
    else do
      let (cp, rest) ← parseHex4 rest
      handleCodeUnit cp rest

/-! ### JSON5 -/

/-- `read_hex4_bounded` with `n` digits to go. -/
def readHexDigitsBounded : Nat → Nat → Bytes → Res EscapeError (Nat × Bytes)
  | 0, code, curr => .ok (code, curr)
  | _ + 1, _, [] => .error (.unterminatedString, some [])
  | n + 1, code, c :: curr =>
    match hexValue c with
    | none => .error (.invalidHexDigit, some (c :: curr))
    | some v => readHexDigitsBounded n ((code <<< 4) ||| v) curr

def readHex4Bounded (curr : Bytes) : Res EscapeError (Nat × Bytes) := readHexDigitsBounded 4 0 curr

def handleLowSurrogateBounded (high : Nat) (curr : Bytes) : Res EscapeError (Bytes × Bytes) := do
  let (low, curr) ← readHex4Bounded curr
  if isLowSurrogate low then encodeEscape (surrogatePair high low) curr
  else .error (.invalidSurrogatePair, some curr)

def handleCodeUnitBounded (cp : Nat) (curr : Bytes) : Res EscapeError (Bytes × Bytes) :=
  if isHighSurrogate cp then
    if curr.take 2 = [ascii '\\', ascii 'u'] then handleLowSurrogateBounded cp (curr.drop 2)
    else .error (.expectedLowSurrogate, some curr)
  else if isLowSurrogate cp then .error (.loneLowSurrogate, some curr)
  else encodeEscape cp curr

/-- `\xHH`, after the `x`: two hex digits are one byte. -/
def handleHexByte (curr : Bytes) : Res EscapeError (Bytes × Bytes) :=
  match curr with
  | hi :: lo :: rest =>
    match hexValue hi with
    | none => .error (.invalidHexDigit, some curr)
    | some h =>
      match hexValue lo with
      | none => .error (.invalidHexDigit, some (lo :: rest))
      | some l => .ok ([((h <<< 4) ||| l).toUInt8], rest)
  | _ => .error (.unterminatedString, some curr)

/-- `handle_escape_json5_bounded` from the backslash on. -/
def handleEscapeJson5Bounded (curr : Bytes) : Res EscapeError (Bytes × Bytes) :=
  match curr.tail with
  | [] => .error (.unterminatedString, some [])
  | e :: rest =>
    -- a line continuation writes nothing; CR LF is one terminator
    if e = 0x0A then .ok ([], rest)
    else if e = 0x0D then .ok ([], if rest.head? = some 0x0A then rest.tail else rest)
    else if e = 0xE2 ∧ (rest.take 2 = [0x80, 0xA8] ∨ rest.take 2 = [0x80, 0xA9]) then
      .ok ([], rest.drop 2)
    else if e = ascii 'x' then handleHexByte rest
    else if e = ascii '0' then
      if startsWithDigit rest then .error (.invalidEscapeChar, some (e :: rest))
      else .ok ([0], rest)
    else if ascii '1' ≤ e ∧ e ≤ ascii '9' then .error (.invalidEscapeChar, some (e :: rest))
    else if e = ascii 'u' then do
      let (cp, rest) ← readHex4Bounded rest
      handleCodeUnitBounded cp rest
    else if shortEscapeValueJson5 e ≠ 0 then .ok ([shortEscapeValueJson5 e], rest)
    else .ok ([e], rest)

/-- The lambda `read_hex4` of `decode_identifier_escape`. -/
def readHex4 (p : Bytes) : Option (Nat × Bytes) :=
  match p with
  | a :: b :: c :: d :: rest => do
    let a ← hexValue a
    let b ← hexValue b
    let c ← hexValue c
    let d ← hexValue d
    some ((((((a <<< 4) ||| b) <<< 4) ||| c) <<< 4) ||| d, rest)
  | _ => none

/-- `decode_identifier_escape`: a complete, valid escape or nothing. -/
def decodeIdentifierEscape (p : Bytes) : Option (Nat × Bytes) :=
  if p.take 2 ≠ [ascii '\\', ascii 'u'] then none
  else do
    let (cu, q) ← readHex4 (p.drop 2)
    if isHighSurrogate cu then
      if q.take 2 ≠ [ascii '\\', ascii 'u'] then none
      else do
        let (cl, r) ← readHex4 (q.drop 2)
        if isLowSurrogate cl then some (surrogatePair cu cl, r) else none
    else if isLowSurrogate cu then none
    else some (cu, q)

end PjhJson
