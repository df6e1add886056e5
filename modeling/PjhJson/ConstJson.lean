import Mathlib.Logic.Function.Basic
import PjhJson.ObjectOps

/-! `json_constexpr.hpp`: compile-time values, their conversion to a `Json`, and the serializer that
runs at compile time. It has one traversal, over any sink: one sink counts, the other writes into a
buffer of the caller. -/

namespace PjhJson

open Grammar

/-- A value of one of the types `ConstJsonNull` to `ConstJsonObject`. -/
inductive ConstJson where
  | null
  | bool (v : Bool)
  | int (v : Int64)
  | double (v : Double)
  | str (v : Bytes)
  | array (elems : List ConstJson)
  | object (entries : List (Bytes × ConstJson))

namespace ConstJson

theorem induct {motive : ConstJson → Prop} (null : motive null) (bool : ∀ v, motive (bool v))
    (int : ∀ v, motive (int v)) (double : ∀ v, motive (double v)) (str : ∀ v, motive (str v))
    (array : ∀ elems, (∀ e ∈ elems, motive e) → motive (array elems))
    (object : ∀ entries, (∀ entry ∈ entries, motive entry.2) → motive (object entries))
    (v : ConstJson) : motive v := by
  refine @ConstJson.rec motive (fun elems => ∀ e ∈ elems, motive e)
    (fun entries => ∀ entry ∈ entries, motive entry.2) (fun entry => motive entry.2)
    null bool int double str array object ?_ ?_ ?_ ?_ (fun _ _ h => h) v
  · exact fun _ h => absurd h List.not_mem_nil
  · exact fun _ _ hhead htail => List.forall_mem_cons.mpr ⟨hhead, htail⟩
  · exact fun _ h => absurd h List.not_mem_nil
  · exact fun _ _ hhead htail => List.forall_mem_cons.mpr ⟨hhead, htail⟩

/-! ### Conversion -/

mutual

/-- `to_runtime`. It has no result where an object needs an index for more entries than one can be built
for. -/
def toRuntime (res : Nat) : ConstJson → Option Node
  | null => some .null
  | bool v => some (.boolean v)
  | int v => some (.integer v)
  | double v => some (.floating v)
  | str v => some (.stringView v)
  | array elems => (pushElems res elems).map .array
  | object entries => (insertEntries res { resource := res } entries).map .object

/-- The elements, in order. -/
def pushElems (res : Nat) : List ConstJson → Option (List Node)
  | [] => some []
  | e :: elems => do
    let value ← toRuntime res e
    let values ← pushElems res elems
    some (value :: values)

/-- The insertion of the entries, in order. -/
def insertEntries (res : Nat) (obj : Object Node) : List (Bytes × ConstJson) → Option (Object Node)
  | [] => some obj
  | (key, e) :: entries => do
    let value ← toRuntime res e
    let obj ← obj.insert key value
    insertEntries res obj entries

end

mutual

/-- `const_json_has_double`. -/
def hasDouble : ConstJson → Bool
  | double _ => true
  | array elems => hasDoubleElems elems
  | object entries => hasDoubleEntries entries
  | _ => false

def hasDoubleElems : List ConstJson → Bool
  | [] => false
  | e :: elems => hasDouble e || hasDoubleElems elems

def hasDoubleEntries : List (Bytes × ConstJson) → Bool
  | [] => false
  | (_, e) :: entries => hasDouble e || hasDoubleEntries entries

end

end ConstJson

/-! ### Sinks -/

/-- What the traversal asks of a sink: the two overloads of `put`. -/
class ConstSink (σ : Type) where
  put : σ → UInt8 → σ
  putText : σ → Bytes → σ

open ConstSink

/-- `const_json_count_sink`. -/
structure CountSink where
  n : Nat := 0

instance : ConstSink CountSink where
  put sink _ := { n := sink.n + 1 }
  putText sink s := { n := sink.n + s.length }

/-- `const_json_buf_sink`, with the memory it writes to. -/
structure BufSink where
  memory : Nat → UInt8
  p : Nat
  limit : Nat
  written : Nat := 0
  overflow : Bool := false

namespace BufSink

/-- `put(char)`. -/
def put (sink : BufSink) (c : UInt8) : BufSink :=
  if sink.p ≠ sink.limit then
    { sink with
      memory := Function.update sink.memory sink.p c
      p := sink.p + 1
      written := sink.written + 1 }
  else { sink with overflow := true }

instance : ConstSink BufSink where
  put := put
  putText sink s := s.foldl put sink

end BufSink

/-! ### The traversal -/

namespace ConstJson

section Traversal

variable {σ : Type} [ConstSink σ]

/-- The digits that the loop of `const_dump_int` leaves in `buf`, the last one first; `buf` has as many
places as the fuel. -/
def digitBuf : Nat → UInt64 → Bytes
  | 0, _ => []
  | room + 1, m => (ascii '0' + (m % 10).toUInt8) :: if m / 10 ≠ 0 then digitBuf room (m / 10) else []

/-- The magnitude of an integer: `-(v + 1)` does not overflow. -/
def magnitude (v : Int64) : UInt64 := if v < 0 then (-(v + 1)).toUInt64 + 1 else v.toUInt64

/-- `const_dump_int`. -/
def constDumpInt (sink : σ) (v : Int64) : σ :=
  (digitBuf 20 (magnitude v)).reverse.foldl put (if v < 0 then put sink (ascii '-') else sink)

/-- `const_json_hex_lower`. -/
def hexLower : Bytes := asciiBytes "0123456789abcdef"

/-- One byte of `const_dump_string`. -/
def constDumpChar (sink : σ) (c : UInt8) : σ :=
  if c = ascii '"' then putText sink (asciiBytes "\\\"")
  else if c = ascii '\\' then putText sink (asciiBytes "\\\\")
  else if c = 0x08 then putText sink (asciiBytes "\\b")
  else if c = 0x0C then putText sink (asciiBytes "\\f")
  else if c = 0x0A then putText sink (asciiBytes "\\n")
  else if c = 0x0D then putText sink (asciiBytes "\\r")
  else if c = 0x09 then putText sink (asciiBytes "\\t")
  else if c < 0x20 then
    putText sink (asciiBytes "\\u00" ++
      [hexLower.getD ((c.toNat >>> 4) &&& 0xF) 0, hexLower.getD (c.toNat &&& 0xF) 0])
  else put sink c

/-- `const_dump_string`. -/
def constDumpString (sink : σ) (str : Bytes) : σ :=
  put (str.foldl constDumpChar (put sink (ascii '"'))) (ascii '"')

/-- The comma in front of every item but the first. -/
def putComma (sink : σ) (first : Bool) : σ := if first then sink else put sink (ascii ',')

mutual

/-- `const_dump_to`. A double is stopped by a `static_assert`. -/
def constDumpTo (sink : σ) : ConstJson → σ
  | null => putText sink (asciiBytes "null")
  | bool v => putText sink (asciiBytes (if v then "true" else "false"))
  | int v => constDumpInt sink v
  | str v => constDumpString sink v
  | array elems => put (constDumpElems (put sink (ascii '[')) true elems) (ascii ']')
  | object entries => put (constDumpEntries (put sink (ascii '\x7b')) true entries) (ascii '\x7d')
  | double _ => sink

/-- `const_dump_array_elems`, between the brackets. -/
def constDumpElems (sink : σ) (first : Bool) : List ConstJson → σ
  | [] => sink
  | e :: elems => constDumpElems (constDumpTo (putComma sink first) e) false elems

/-- `const_dump_object_entries`, between the braces. -/
def constDumpEntries (sink : σ) (first : Bool) : List (Bytes × ConstJson) → σ
  | [] => sink
  | (key, e) :: entries =>
    constDumpEntries
      (constDumpTo (put (constDumpString (putComma sink first) key) (ascii ':')) e) false entries

end

end Traversal

/-- `const_dump_size`. It has no instance for a value with a double. -/
def constDumpSize (v : ConstJson) : Option Nat :=
  if v.hasDouble then none else some (constDumpTo ({} : CountSink) v).n

/-- `const_dump` into `cap` bytes from `out` on: what it returns, and the memory it leaves. -/
def constDump (v : ConstJson) (memory : Nat → UInt8) (out cap : Nat) :
    Option (Nat × (Nat → UInt8)) :=
  if v.hasDouble then none
  else
    let sink := constDumpTo ({ memory, p := out, limit := out + cap } : BufSink) v
    some (if sink.overflow then 0 else sink.written, sink.memory)

/-- `ConstJsonText`. -/
structure Text where
  data : Bytes
  size : Nat := 0
  overflow : Bool := false

/-- `view`. -/
def Text.view (t : Text) : Bytes := t.data.take t.size

/-- `const_dump<Cap>`, in one call. -/
def constDumpText (cap : Nat) (v : ConstJson) : Option Text := do
  let (n, memory) ← constDump v (fun _ => 0) 0 cap
  let data := (List.range cap).map memory
  some (if n = 0 then { data, overflow := true } else { data, size := n })

end ConstJson

end PjhJson
