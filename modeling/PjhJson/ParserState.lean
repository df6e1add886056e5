import PjhJson.LibMemory
import PjhJson.LibProg
import PjhJson.Number
import PjhJson.Trivia

/-! The state of a `Parser` and the operations on its cursor, its error slot and its memory. Cursors
are offsets into the padded buffer, which the string decoders write to in place. A read outside the
buffer has no outcome, and neither has a write outside the content before the padding. -/

namespace PjhJson

def kPaddingWidth : Nat := 128

/-- A `String` that borrows from the buffer. -/
structure View where
  offset : Nat
  length : Nat
  deriving DecidableEq, Repr

def View.read (buffer : Bytes) (view : View) : Bytes :=
  Memory.slice buffer view.offset view.length

/-- The fields of `Parser`, and `out`, the `Json` that the running call's reference argument names.
`m_has_error` is whether the slot `mError` is filled. -/
structure Parser where
  buffer : Bytes
  mBegin : Nat
  mCurr : Nat
  mEnd : Nat
  mDepth : Nat := 0
  mError : Option Error := none
  mAssumePadded : Bool := true
  out : Json View := .null
  deriving Repr

namespace Parser

/-- The bytes `[m_curr, m_end)`. -/
def view (p : Parser) : Bytes := (p.buffer.take p.mEnd).drop p.mCurr

def atEnd (p : Parser) : Bool := p.mEnd ≤ p.mCurr

/-- `*m_curr`. -/
def peek : Prog Parser UInt8 := fun p =>
  match p.buffer[p.mCurr]? with
  | some c => .ok (c, p)
  | none => .stuck

/-- `std::memcpy` of `length` bytes at the cursor. -/
def load (length : Nat) : Prog Parser Bytes := fun p =>
  if p.mCurr + length ≤ p.buffer.length then .ok (Memory.slice p.buffer p.mCurr length, p)
  else .stuck

/-- Write `written` at the address `dst`, which lies in the content. -/
def store (dst : Nat) (written : Bytes) : Prog Parser Unit := fun p =>
  if dst + written.length + kPaddingWidth ≤ p.buffer.length then
    .ok ((), { p with buffer := Memory.overlay p.buffer dst written })
  else .stuck

/-- The characters of a borrowed `String`. -/
def characters (borrowed : View) : Prog Parser Bytes := fun p =>
  if borrowed.offset + borrowed.length ≤ p.buffer.length then .ok (borrowed.read p.buffer, p)
  else .stuck

def setCurr (pos : Nat) : Prog Parser Unit := .modify fun p => { p with mCurr := pos }

def advance (count : Nat) : Prog Parser Unit :=
  .modify fun p => { p with mCurr := p.mCurr + count }

/-- Move the cursor to where a scan of `[m_curr, m_end)` left off. -/
def advanceTo (rest : Bytes) : Prog Parser Unit :=
  .modify fun p => { p with mCurr := p.mCurr + (p.view.length - rest.length) }

def setOut (value : Json View) : Prog Parser Unit := .modify fun p => { p with out := value }

/-- The first failure wins. -/
def recordError (error : Error) : Prog Parser Unit :=
  .modify fun p => if p.mError.isSome then p else { p with mError := some error }

/-- `fail` without the `return false` that follows it at most call sites. -/
def record (code : ErrorCode) (pos : Nat) : Prog Parser Unit := do
  let p ← .get
  recordError { code, position := pos - p.mBegin, positioned := true }

/-- `fail(code, pos); return false;` -/
def fail {α : Type} (code : ErrorCode) (pos : Nat) : Prog Parser α := do
  record code pos
  .halt

def failHere {α : Type} (code : ErrorCode) : Prog Parser α := do
  let p ← .get
  fail code p.mCurr

/-- `fail_context(code, detail); return false;` -/
def failContext {α : Type} (code : ErrorCode) (detail : Bytes := []) : Prog Parser α := do
  recordError { code, detail }
  .halt

/-- Run a parser whose `out` is the element of a container that holds `initial`; the result is what
the element holds afterwards. -/
def withElement (initial : Json View) (element : Prog Parser Unit) : Prog Parser (Json View) :=
  fun p =>
    match element { p with out := initial } with
    | .ok (_, q) => .ok (q.out, { q with out := p.out })
    | .error q => .error { q with out := p.out }
    | .stuck => .stuck

/-- `DepthFrame`: the depth is restored on every way out. -/
def withDepth {α : Type} (body : Prog Parser α) : Prog Parser α := fun p =>
  match body { p with mDepth := p.mDepth + 1 } with
  | .ok (value, q) => .ok (value, { q with mDepth := q.mDepth - 1 })
  | .error q => .error { q with mDepth := q.mDepth - 1 }
  | .stuck => .stuck

end Parser
end PjhJson
