import Mathlib

/-! The shared grammar primitives of `grammar.hpp`: byte classes, escapes, hex digits, surrogate
ranges and the two number scanners. A pointer range `[p, e)` is the list of its bytes; a scanner
that advances `p` returns the bytes it left. -/

namespace PjhJson

abbrev Bytes := List UInt8

/-- Texts are compared byte by byte. -/
instance : LawfulBEq Bytes := inferInstance

/-- The byte of an ASCII character. -/
def ascii (c : Char) : UInt8 := c.toNat.toUInt8

/-- The bytes of an ASCII text. -/
def asciiBytes (text : String) : Bytes := text.toList.map ascii

namespace Grammar

/-- RFC 8259 §2 whitespace: space, tab, line feed, carriage return. -/
def isWhitespace (c : UInt8) : Bool :=
  c == 0x20 || c == 0x09 || c == 0x0A || c == 0x0D

def kTrue : Bytes := asciiBytes "true"
def kFalse : Bytes := asciiBytes "false"
def kNull : Bytes := asciiBytes "null"

/-- `match_literal`: the bytes after `lit`, when the range starts with it. -/
def matchLiteral (p lit : Bytes) : Option Bytes :=
  if lit.length ≤ p.length ∧ p.take lit.length = lit then some (p.drop lit.length) else none

/-- The decoded byte of a short escape, 0 when `c` is not one. -/
def shortEscapeValue (c : UInt8) : UInt8 :=
  if c = ascii '"' then ascii '"'
  else if c = ascii '\\' then ascii '\\'
  else if c = ascii '/' then ascii '/'
  else if c = ascii 'b' then 0x08
  else if c = ascii 'f' then 0x0C
  else if c = ascii 'n' then 0x0A
  else if c = ascii 'r' then 0x0D
  else if c = ascii 't' then 0x09
  else 0

def isShortEscape (c : UInt8) : Bool := shortEscapeValue c != 0

def isDigit (c : UInt8) : Bool := ascii '0' ≤ c && c ≤ ascii '9'

/-- The value of a hex digit; the source returns -1 where this is `none`. -/
def hexValue (c : UInt8) : Option Nat :=
  if ascii '0' ≤ c ∧ c ≤ ascii '9' then some (c.toNat - 48)
  else if ascii 'a' ≤ c ∧ c ≤ ascii 'f' then some (c.toNat - 97 + 10)
  else if ascii 'A' ≤ c ∧ c ≤ ascii 'F' then some (c.toNat - 65 + 10)
  else none

def isHighSurrogate (cp : Nat) : Bool := 0xD800 ≤ cp && cp ≤ 0xDBFF

def isLowSurrogate (cp : Nat) : Bool := 0xDC00 ≤ cp && cp ≤ 0xDFFF

/-! ### The RFC 8259 number scanner -/

/-- `0` is legal only as the entire integer part. -/
def hasLeadingZero (intStart : Bytes) (intDigits : Nat) : Bool :=
  1 < intDigits && intStart.head? == some (ascii '0')

structure NumberScan where
  intStart : Bytes := []
  intDigits : Nat := 0
  negative : Bool := false
  isFloat : Bool := false
  deriving DecidableEq, Repr

inductive NumberError where
  | noIntDigits
  | leadingZero
  | noFracDigits
  | noExpDigits
  deriving DecidableEq, Repr

/-- `p < e && *p >= '0' && *p <= '9'`. -/
def startsWithDigit : Bytes → Bool
  | [] => false
  | c :: _ => isDigit c

def startsWith (c : Char) (p : Bytes) : Bool := p.head? == some (ascii c)

/-- The optional fraction: a `.` and at least one digit. The result says whether it was there. -/
def scanFraction (p : Bytes) : Except (NumberError × Bytes) (Bool × Bytes) :=
  if startsWith '.' p then
    if startsWithDigit p.tail then .ok (true, p.tail.dropWhile isDigit)
    else .error (.noFracDigits, p.tail)
  else .ok (false, p)

def skipSign (p : Bytes) : Bytes := if startsWith '+' p || startsWith '-' p then p.tail else p

/-- The optional exponent: `e` or `E`, an optional sign and at least one digit. -/
def scanExponent (p : Bytes) : Except (NumberError × Bytes) (Bool × Bytes) :=
  if startsWith 'e' p || startsWith 'E' p then
    if startsWithDigit (skipSign p.tail) then .ok (true, (skipSign p.tail).dropWhile isDigit)
    else .error (.noExpDigits, skipSign p.tail)
  else .ok (false, p)

/-- `scan_number`: on failure the bytes at the error anchor are returned with the reason. -/
def scanNumber (p : Bytes) : Except (NumberError × Bytes) (NumberScan × Bytes) :=
  let negative := startsWith '-' p
  let intStart := if negative then p.tail else p
  if !startsWithDigit intStart then .error (.noIntDigits, intStart)
  else
    let rest := intStart.dropWhile isDigit
    let intDigits := intStart.length - rest.length
    if hasLeadingZero intStart intDigits then .error (.leadingZero, rest)
    else do
      let (hasFraction, rest) ← scanFraction rest
      let (hasExponent, rest) ← scanExponent rest
      .ok ({ intStart, intDigits, negative, isFloat := hasFraction || hasExponent }, rest)

/-! ### JSON5 additions -/

def isJson5WhitespaceAscii (c : UInt8) : Bool := isWhitespace c || c == 0x0B || c == 0x0C

def isJson5WhitespaceUnicode (cp : Nat) : Bool :=
  cp == 0x00A0 || cp == 0x1680 || (0x2000 ≤ cp && cp ≤ 0x200A) || cp == 0x2028 || cp == 0x2029 ||
    cp == 0x202F || cp == 0x205F || cp == 0x3000 || cp == 0xFEFF

def isJson5Whitespace (cp : Nat) : Bool :=
  if cp ≤ 0x7F then isJson5WhitespaceAscii cp.toUInt8 else isJson5WhitespaceUnicode cp

def isIdentifierStart (c : UInt8) : Bool :=
  (ascii 'A' ≤ c && c ≤ ascii 'Z') || (ascii 'a' ≤ c && c ≤ ascii 'z') || c == ascii '_' ||
    c == ascii '$'

def isIdentifierContinue (c : UInt8) : Bool := isIdentifierStart c || isDigit c

structure NumberScanJson5 where
  intStart : Bytes := []
  intDigits : Nat := 0
  negative : Bool := false
  explicitPlus : Bool := false
  isFloat : Bool := false
  isHex : Bool := false
  deriving DecidableEq, Repr

def isHexDigit (c : UInt8) : Bool := (hexValue c).isSome

/-- The optional fraction of a JSON5 number with an integer part: its digits may be missing. -/
def scanFractionJson5 (p : Bytes) : Bool × Bytes :=
  if startsWith '.' p then (true, p.tail.dropWhile isDigit) else (false, p)

/-- The decimal forms `.5`, `5`, `5.` and `5.5`: digits, whether a point was there, the rest. -/
def scanDecimalJson5 (p : Bytes) :
    Except (NumberError × Bytes) ((Bytes × Nat × Bool) × Bytes) :=
  if startsWith '.' p then
    if !startsWithDigit p.tail then .error (.noFracDigits, p.tail)
    else
      let rest := p.tail.dropWhile isDigit
      .ok ((p.tail, p.tail.length - rest.length, true), rest)
  else if !startsWithDigit p then .error (.noIntDigits, p)
  else
    let rest := p.dropWhile isDigit
    let intDigits := p.length - rest.length
    if hasLeadingZero p intDigits then .error (.leadingZero, rest)
    else .ok ((p, intDigits, (scanFractionJson5 rest).1), (scanFractionJson5 rest).2)

/-- `p + 1 < e && p[0] == '0' && (p[1] == 'x' || p[1] == 'X')`. -/
def startsWithHexPrefix : Bytes → Bool
  | a :: b :: _ => a == ascii '0' && (b == ascii 'x' || b == ascii 'X')
  | _ => false

/-- `scan_number_json5`. -/
def scanNumberJson5 (p : Bytes) : Except (NumberError × Bytes) (NumberScanJson5 × Bytes) :=
  let negative := startsWith '-' p
  let explicitPlus := startsWith '+' p
  let p := skipSign p
  if startsWithHexPrefix p then
    let intStart := p.drop 2
    let rest := intStart.dropWhile isHexDigit
    let intDigits := intStart.length - rest.length
    if intDigits = 0 then .error (.noIntDigits, rest)
    else .ok ({ intStart, intDigits, negative, explicitPlus, isHex := true }, rest)
  else do
    let ((intStart, intDigits, hasPoint), rest) ← scanDecimalJson5 p
    let (hasExponent, rest) ← scanExponent rest
    .ok ({ intStart, intDigits, negative, explicitPlus, isFloat := hasPoint || hasExponent }, rest)

inductive Json5Nonfinite where
  | infinity
  | nan
  deriving DecidableEq, Repr

/-- `match_json5_nonfinite`: the spelling and the bytes after it. -/
def matchJson5Nonfinite (p : Bytes) : Option (Json5Nonfinite × Bytes) :=
  match matchLiteral p (asciiBytes "Infinity") with
  | some rest => some (.infinity, rest)
  | none => (matchLiteral p (asciiBytes "NaN")).map fun rest => (.nan, rest)

/-- The single escapes of JSON5: those of the RFC, `\'` and `\v`. -/
def shortEscapeValueJson5 (c : UInt8) : UInt8 :=
  if c = ascii '\'' then ascii '\''
  else if c = ascii 'v' then 0x0B
  else shortEscapeValue c

def isJson5LineTerminatorAscii (c : UInt8) : Bool := c == 0x0A || c == 0x0D

end Grammar
end PjhJson
