import PjhJson.Error
import PjhJson.LibProg

/-! UTF-8: the strict gate of `detail/utf8.hpp` as an incremental machine, and the encoder of
`utils.cpp`. Source positions are offsets from the first byte of the string content. -/

namespace PjhJson

/-- `Utf8Checker`: the continuation bytes still expected and the range of the first one. -/
structure Utf8Checker where
  need : Nat := 0
  c1lo : UInt8 := 0
  c1hi : UInt8 := 0
  lead : Nat := 0
  failCode : ErrorCode := .none
  code : ErrorCode := .none
  err : Nat := 0
  deriving DecidableEq, Repr

namespace Utf8Checker

def failed (ck : Utf8Checker) : Bool := ck.code != .none

/-- The first failure wins. -/
def set (ck : Utf8Checker) (code : ErrorCode) (pos : Nat) : Utf8Checker :=
  if ck.failed then ck else { ck with code, err := pos }

/-- Start a sequence at `pos`; `failCode` is the violation of its first continuation range. -/
def begin (ck : Utf8Checker) (need : Nat) (c1lo c1hi : UInt8) (failCode : ErrorCode) (pos : Nat) :
    Utf8Checker :=
  { ck with need, c1lo, c1hi, failCode, lead := pos }

/-- `feed` between sequences. -/
def feedLead (ck : Utf8Checker) (b : UInt8) (pos : Nat) : Utf8Checker :=
  if b ≤ 0x7F then ck
  else if 0xC2 ≤ b ∧ b ≤ 0xDF then ck.begin 1 0x80 0xBF .none pos
  else if b = 0xE0 then ck.begin 2 0xA0 0xBF .utf8Overlong pos
  else if b = 0xED then ck.begin 2 0x80 0x9F .utf8Surrogate pos
  else if (0xE1 ≤ b ∧ b ≤ 0xEC) ∨ b = 0xEE ∨ b = 0xEF then ck.begin 2 0x80 0xBF .none pos
  else if b = 0xF0 then ck.begin 3 0x90 0xBF .utf8Overlong pos
  else if b = 0xF4 then ck.begin 3 0x80 0x8F .utf8ExceedsMax pos
  else if 0xF1 ≤ b ∧ b ≤ 0xF3 then ck.begin 3 0x80 0xBF .none pos
  else if b = 0xC0 ∨ b = 0xC1 then ck.set .utf8Overlong pos
  else ck.set .utf8InvalidLead pos

/-- `feed` inside a sequence. A control byte is left to the caller's own check. -/
def feedContinuation (ck : Utf8Checker) (b : UInt8) (pos : Nat) : Utf8Checker :=
  if b < 0x20 then ck
  else if pos = ck.lead + 1 then
    if b < 0x80 ∨ 0xBF < b then ck.set .utf8InvalidContinuation pos
    else if b < ck.c1lo ∨ ck.c1hi < b then ck.set ck.failCode ck.lead
    else { ck with need := ck.need - 1 }
  else if b < 0x80 ∨ 0xBF < b then ck.set .utf8InvalidContinuation pos
  else { ck with need := ck.need - 1 }

def feed (ck : Utf8Checker) (b : UInt8) (pos : Nat) : Utf8Checker :=
  if ck.failed then ck
  else if ck.need = 0 then ck.feedLead b pos
  else ck.feedContinuation b pos

/-- `end`: a dangling sequence is a failure at its lead byte. -/
def finish (ck : Utf8Checker) : Utf8Checker :=
  if ck.need ≠ 0 ∧ ck.failed = false then ck.set .utf8Truncated ck.lead else ck

/-- `feed_range` over the bytes from offset `pos` on; it stops at the first failure. -/
def feedRange (ck : Utf8Checker) : Bytes → Nat → Utf8Checker
  | [], _ => ck
  | b :: rest, pos => if ck.failed then ck else (ck.feed b pos).feedRange rest (pos + 1)

end Utf8Checker

/-- `check_utf8_strict`: the machine after all bytes of the content. -/
def checkUtf8Strict (content : Bytes) : Utf8Checker :=
  (({} : Utf8Checker).feedRange content 0).finish

/-- `encode_utf8`: the bytes of a code point, none outside the Unicode range. -/
def encodeUtf8 (cp : Nat) : Option Bytes :=
  if cp ≤ 0x7F then some [cp.toUInt8]
  else if cp ≤ 0x7FF then
    some [(0xC0 ||| ((cp >>> 6) &&& 0x1F)).toUInt8, (0x80 ||| (cp &&& 0x3F)).toUInt8]
  else if cp ≤ 0xFFFF then
    some [(0xE0 ||| ((cp >>> 12) &&& 0x0F)).toUInt8, (0x80 ||| ((cp >>> 6) &&& 0x3F)).toUInt8,
      (0x80 ||| (cp &&& 0x3F)).toUInt8]
  else if cp ≤ 0x10FFFF then
    some [(0xF0 ||| ((cp >>> 18) &&& 0x07)).toUInt8, (0x80 ||| ((cp >>> 12) &&& 0x3F)).toUInt8,
      (0x80 ||| ((cp >>> 6) &&& 0x3F)).toUInt8, (0x80 ||| (cp &&& 0x3F)).toUInt8]
  else none

/-- `starts_with_utf8_bom`. -/
def startsWithUtf8Bom (p : Bytes) : Bool := p.take 3 == [0xEF, 0xBB, 0xBF]

end PjhJson
