import PjhJson.NodeOrder
import PjhJson.WriterString

/-! `writer/dump.cpp`: a tree as text. A container is written by the programs of its items, which are
given in the order they are written in: the loop over the elements and the two loops over the entries
are the one loop `writeItems`. -/

namespace PjhJson

open Grammar

/-- `DumpOptions`. -/
structure DumpOptions where
  pretty : Bool := false
  indent : UInt8 := 2
  indentChar : UInt8 := 0x20
  ascii : Bool := false
  sortKeys : Bool := false
  deriving DecidableEq, Repr

namespace Writer

section Values

variable (platform : Platform) (opts : DumpOptions)

/-- `write_indent`. -/
def writeIndent (depth : Nat) : Prog Writer Unit := do
  append [0x0A]
  append (List.replicate (opts.indent.toNat * depth) opts.indentChar)

/-- `std::to_chars` of an `int64_t`. -/
def int64Text (value : Int64) : Bytes := asciiBytes (toString value.toInt)

/-- The branch of the integers: `buf` has 24 bytes. -/
def writeInt (value : Int64) : Prog Writer Unit :=
  if 24 < (int64Text value).length then fail .formatIntFailed else append (int64Text value)

/-- The loop that looks for a point or an exponent. -/
def hasPoint (buf : Bytes) : Bool :=
  buf.any fun c => c == ascii '.' || c == ascii 'e' || c == ascii 'E'

/-- `write_double`. `toChars` has no result where the text does not fit into `buf`. -/
def writeDouble (val : Double) : Prog Writer Unit :=
  if !val.isFinite then fail .nonFiniteDouble
  else
    match platform.toChars val with
    | none => fail .formatDoubleFailed
    | some buf => do
      append buf
      if !hasPoint buf then append (asciiBytes ".0") else pure ()

/-- `if (!first) sink.push_back(',');` -/
def writeComma (first : Bool) : Prog Writer Unit := if first then pure () else append [ascii ',']

/-- `if (opts.pretty) write_indent(sink, opts, depth);` -/
def breakLine (depth : Nat) : Prog Writer Unit :=
  if opts.pretty then writeIndent opts depth else pure ()

/-- The loop over the items of a container. -/
def writeItems (depth : Nat) (first : Bool) : List (Prog Writer Unit) → Prog Writer Unit
  | [] => pure ()
  | item :: items => do
    writeComma first
    breakLine opts (depth + 1)
    item
    writeItems depth false items

/-- A container between its two brackets. -/
def writeContainer (depth : Nat) (opening closing : UInt8) (items : List (Prog Writer Unit)) :
    Prog Writer Unit :=
  if items.isEmpty then append [opening, closing]
  else do
    append [opening]
    writeItems opts depth true items
    breakLine opts depth
    append [closing]

/-- An entry: its key, and the program that writes its value. -/
def writeEntry (entry : Bytes × Prog Writer Unit) : Prog Writer Unit := do
  writeEscapedImpl platform entry.1 opts.ascii
  append (asciiBytes (if opts.pretty then ": " else ":"))
  entry.2

/-- The entries in the order they are written in. `std::sort` leaves the order of entries with the
same key open. -/
def orderEntries {ν : Type} (entries : List (Bytes × ν)) : List (Bytes × ν) :=
  if opts.sortKeys then sortByKey entries else entries

variable (maxDepth : Nat)

/-- A container is rejected below `maxDepth`, even if it is empty; zero stands for no limit. -/
def checkDepth (depth : Nat) (program : Prog Writer Unit) : Prog Writer Unit :=
  if maxDepth ≠ 0 ∧ maxDepth < depth + 1 then fail .dumpMaxDepthExceeded else program

mutual

/-- `write_value`. -/
def writeValue (depth : Nat) : Node → Prog Writer Unit
  | .null => append (asciiBytes "null")
  | .boolean b => append (asciiBytes (if b then "true" else "false"))
  | .integer i => writeInt i
  | .floating f => writeDouble platform f
  | .stringView s => writeEscapedImpl platform s opts.ascii
  | .stringOwned s => writeEscapedImpl platform s opts.ascii
  | .array arr => checkDepth maxDepth depth
      (writeContainer opts depth (ascii '[') (ascii ']') (elementWriters (depth + 1) arr))
  | .object { data, .. } => checkDepth maxDepth depth
      (writeContainer opts depth (ascii '\x7b') (ascii '\x7d')
        ((orderEntries opts (entryWriters (depth + 1) data)).map (writeEntry platform opts)))

/-- The programs that write the elements of an array. -/
def elementWriters (depth : Nat) : List Node → List (Prog Writer Unit)
  | [] => []
  | el :: arr => writeValue depth el :: elementWriters depth arr

/-- The keys of an object with the programs that write the values. -/
def entryWriters (depth : Nat) : List (Bytes × Node) → List (Bytes × Prog Writer Unit)
  | [] => []
  | (key, val) :: data => (key, writeValue depth val) :: entryWriters depth data

end

/-- `dump_value_to`. -/
def dumpValueTo (value : Node) : Prog Writer Unit :=
  if opts.pretty ∧ opts.indentChar ≠ ascii ' ' ∧ opts.indentChar ≠ ascii '\t' then
    fail .invalidIndentChar
  else writeValue platform opts maxDepth 0 value

/-- `dump_impl`: the text, or the error of the `JsonError`. -/
def dump (value : Node) : Res Error Bytes :=
  match dumpValueTo platform opts maxDepth value {} with
  | .ok (_, w) => .ok w.sink
  | .error w => .error w.error
  | .stuck => .stuck

variable {platform opts maxDepth}

@[simp] theorem elementWriters_eq (depth : Nat) (arr : List Node) :
    elementWriters platform opts maxDepth depth arr =
      arr.map (writeValue platform opts maxDepth depth) := by
  induction arr with
  | nil => rfl
  | cons el arr ih => rw [elementWriters, ih, List.map_cons]

@[simp] theorem entryWriters_eq (depth : Nat) (data : List (Bytes × Node)) :
    entryWriters platform opts maxDepth depth data =
      data.map fun entry => (entry.1, writeValue platform opts maxDepth depth entry.2) := by
  induction data with
  | nil => rfl
  | cons entry data ih => rw [entryWriters, ih, List.map_cons]

theorem writeValue_array (depth : Nat) (arr : List Node) :
    writeValue platform opts maxDepth depth (.array arr) = checkDepth maxDepth depth
      (writeContainer opts depth (ascii '[') (ascii ']')
        (arr.map (writeValue platform opts maxDepth (depth + 1)))) := by
  rw [writeValue, elementWriters_eq]

theorem orderEntries_map {ν μ : Type} (f : ν → μ) (entries : List (Bytes × ν)) :
    orderEntries opts (entries.map fun entry => (entry.1, f entry.2)) =
      (orderEntries opts entries).map fun entry => (entry.1, f entry.2) := by
  unfold orderEntries
  split
  · exact Node.sortByKey_map f entries
  · rfl

theorem writeValue_object (depth : Nat) (self : Object Node) :
    writeValue platform opts maxDepth depth (.object self) = checkDepth maxDepth depth
      (writeContainer opts depth (ascii '\x7b') (ascii '\x7d')
        ((orderEntries opts self.data).map fun entry => writeEntry platform opts
          (entry.1, writeValue platform opts maxDepth (depth + 1) entry.2))) := by
  obtain ⟨data, index, resource⟩ := self
  rw [writeValue, entryWriters_eq, orderEntries_map, List.map_map]
  rfl

end Values

end Writer

end PjhJson
