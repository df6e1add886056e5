import PjhJson.Json
import PjhJson.LibProg

/-! What the library takes from its surroundings (`Platform`, `Config`), and the number parsers of
`number.cpp`: a grammar scan of the bytes up to `m_end`, then the choice between `int64_t` and
`double`. Cursors are lists of the bytes from them on. -/

namespace PjhJson

open Grammar

inductive Errc where
  | none
  | invalidArgument
  | resultOutOfRange
  deriving DecidableEq, Repr

/-- `std::from_chars_result` and the parsed value; `ptr` is an offset into the text. -/
structure FromChars where
  ptr : Nat
  ec : Errc
  value : Double
  deriving DecidableEq, Repr

/-- The SIMD batch width and the standard library functions that the code calls. -/
structure Platform where
  batch : Nat
  batch_pos : 0 < batch
  batch_le : batch ≤ 64
  keyHash : Bytes → Nat
  fromChars : Bytes → FromChars
  fromCharsHex : Bytes → FromChars
  toChars : Double → Option Bytes

/-- The parse knobs of `Config`, as a parser or reader captures them. -/
structure Config where
  json5 : Bool := false
  stripBom : Bool := false
  strictUtf8 : Bool := false
  strictDuplicateKeys : Bool := false
  maxDepth : Nat := 512
  deriving DecidableEq, Repr

/-- `parse_u64` over digits that are already validated. -/
def parseU64 (digits : Bytes) : UInt64 :=
  digits.foldl (fun v c => v * 10 + (c - ascii '0').toUInt64) 0

def kInt64MinAbs : UInt64 := 9223372036854775808
def kInt64MaxDigits : Bytes := asciiBytes "9223372036854775807"
def kInt64MinAbsDigits : Bytes := asciiBytes "9223372036854775808"

/-- `std::string_view` comparison: lexicographic on unsigned bytes. -/
def bytesLe : Bytes → Bytes → Bool
  | [], _ => true
  | _ :: _, [] => false
  | a :: as, b :: bs => if a < b then true else if b < a then false else bytesLe as bs

def fitsInt64_19 (p : Bytes) (negative : Bool) : Bool :=
  bytesLe (p.take 19) (if negative then kInt64MinAbsDigits else kInt64MaxDigits)

/-- The signed value of a magnitude that fits; `-2^63` has no positive twin. -/
def signedValue (negative : Bool) (uval : UInt64) : Int64 :=
  if negative && uval == kInt64MinAbs then Int64.minValue
  else if negative then -uval.toInt64 else uval.toInt64

/-- The `int64_t` of a pure integer token, when its magnitude fits. -/
def integerOf (intStart : Bytes) (intDigits : Nat) (negative : Bool) : Option Int64 :=
  let digits := intDigits.toUInt32.toNat
  if digits < 19 then
    let uval := parseU64 (intStart.take digits)
    some (if negative then -uval.toInt64 else uval.toInt64)
  else if digits = 19 && fitsInt64_19 intStart negative then
    some (signedValue negative (parseU64 (intStart.take digits)))
  else none

/-- The bytes between two cursors. -/
def between (first last : Bytes) : Bytes := first.take (first.length - last.length)

/-- `std::from_chars` over `[first, last)`, with the failures reported at `start` and `last`. -/
def doubleOf (fromChars : Bytes → FromChars) (start first last : Bytes) :
    Except (ErrorCode × Bytes) Double :=
  let result := fromChars (between first last)
  if result.ec = .resultOutOfRange then .error (.numberOutOfRange, start)
  else if result.ec ≠ .none ∨ result.ptr ≠ (between first last).length then
    .error (.numberInvalidFormat, last)
  else .ok result.value

variable (platform : Platform)

/-- `classify_number` of the scanned token `[tokenBegin, tokenEnd)`. -/
def classifyNumber (tokenBegin tokenEnd : Bytes) (scan : NumberScan) :
    Except (ErrorCode × Bytes) Number :=
  match if scan.isFloat then none else integerOf scan.intStart scan.intDigits scan.negative with
  | some value => .ok (.integer value)
  | none => (doubleOf platform.fromChars tokenBegin tokenBegin tokenEnd).map .double

/-- The RFC body of `Parser::parse_number`, on the bytes up to `m_end`. -/
def scanAndClassify (p : Bytes) : Except (ErrorCode × Bytes) (Number × Bytes) :=
  match scanNumber p with
  | .error (reason, anchor) => .error (numberErrorCode reason, anchor)
  | .ok (scan, rest) => (classifyNumber platform p rest scan).map fun number => (number, rest)

/-- `Infinity` and `NaN` with an optional sign. -/
def parseNonfinite (p : Bytes) : Option (Number × Bytes) :=
  (matchJson5Nonfinite (skipSign p)).map fun (spelling, rest) =>
    let d := match spelling with
      | .infinity => Double.infinity
      | .nan => Double.quietNaN
    (.double (if startsWith '-' p then d.neg else d), rest)

/-- Whether a magnitude of up to sixteen significant hex digits is that of an `int64_t`. -/
def hexFits (negative : Bool) (sigDigits : Nat) (uval : UInt64) : Bool :=
  if sigDigits = 16 then
    if negative then decide (uval ≤ kInt64MinAbs) else decide (uval ≤ 9223372036854775807)
  else true

/-- The hexadecimal branch of `parse_number_json5`. -/
def classifyHex (start rest : Bytes) (scan : NumberScanJson5) :
    Except (ErrorCode × Bytes) Number :=
  let digits := between scan.intStart rest
  let sig := scan.intStart.drop (digits.takeWhile (· == ascii '0')).length
  let sigDigits := sig.length - rest.length
  let uval := digits.foldl (fun v c => v * 16 + ((hexValue c).getD 0).toUInt64) 0
  if sigDigits ≤ 16 && hexFits scan.negative sigDigits uval then .ok (.integer (signedValue scan.negative uval))
  else (doubleOf platform.fromCharsHex start sig rest).map fun d =>
    .double (if scan.negative then d.neg else d)

/-- The decimal branch of `parse_number_json5`. -/
def classifyDecimalJson5 (start rest : Bytes) (scan : NumberScanJson5) :
    Except (ErrorCode × Bytes) Number :=
  match if scan.isFloat then none else integerOf scan.intStart scan.intDigits scan.negative with
  | some value => .ok (.integer value)
  | none =>
    -- `from_chars` does not accept an explicit plus
    let numStart := if scan.explicitPlus then start.tail else start
    (doubleOf platform.fromChars start numStart rest).map .double

/-- `Parser::parse_number_json5`, on the bytes up to `m_end`. -/
def parseNumberJson5 (p : Bytes) : Except (ErrorCode × Bytes) (Number × Bytes) :=
  match parseNonfinite p with
  | some result => .ok result
  | none =>
    match scanNumberJson5 p with
    | .error (reason, anchor) => .error (numberErrorCode reason, anchor)
    | .ok (scan, rest) =>
      (if scan.isHex then classifyHex platform p rest scan
        else classifyDecimalJson5 platform p rest scan).map fun number => (number, rest)

/-- `Parser::parse_number` on the bytes up to `m_end`: the number and the bytes after it. -/
def parseNumberToken (cfg : Config) (p : Bytes) : Except (ErrorCode × Bytes) (Number × Bytes) :=
  if cfg.json5 then parseNumberJson5 platform p else scanAndClassify platform p

end PjhJson
