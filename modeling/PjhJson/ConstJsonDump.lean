import PjhJson.ConstJsonRuntime
import PjhJson.NumberValue
import PjhJson.WriterText

/-! The serializer of the compile-time values against the writer: both produce the text of the value,
and the sink that writes into a buffer stays inside it. -/

namespace PjhJson

open Grammar ConstSink

namespace ConstJson

/-! ### Integers -/

theorem digit_toUInt8 {m : UInt64} : ascii '0' + (m % 10).toUInt8 = ascii (Nat.digitChar (m.toNat % 10)) := by
  have hall : ∀ d < 10, ascii '0' + (Nat.toUInt8 d) = ascii (Nat.digitChar d) := by decide
  rw [← hall _ (Nat.mod_lt _ (by decide))]
  congr 1

/-- The buffer holds the decimal digits, in reverse. -/
theorem digitBuf_eq {room : Nat} {m : UInt64} (hroom : 0 < room) (hm : m.toNat < 10 ^ room) :
    (digitBuf room m).reverse = (Nat.toDigits 10 m.toNat).map ascii := by
  induction room generalizing m with
  | zero => omega
  | succ room ih =>
      rw [digitBuf, digit_toUInt8, List.reverse_cons, Nat.toDigits_eq_if (by decide)]
      have hdiv : (m / 10).toNat = m.toNat / 10 := UInt64.toNat_div m 10
      by_cases hlt : m.toNat < 10
      · have hzero : m / 10 = 0 := by
          apply UInt64.toNat_inj.mp
          rw [hdiv]
          exact Nat.div_eq_of_lt hlt
        rw [if_neg (not_not.mpr hzero), if_pos hlt, Nat.mod_eq_of_lt hlt]
        rfl
      · have hne : m / 10 ≠ 0 := by
          intro hzero
          have hzero' := congrArg UInt64.toNat hzero
          rw [hdiv] at hzero'
          change m.toNat / 10 = 0 at hzero'
          omega
        have hroom' : 0 < room := by
          rcases room with _ | room
          · exact absurd hm (by omega)
          · exact Nat.succ_pos room
        have hrest : (m / 10).toNat < 10 ^ room := by
          rw [Nat.pow_succ] at hm
          omega
        rw [if_pos hne, if_neg hlt, ih hroom' hrest, hdiv, List.map_append]
        rfl

/-- The magnitude of the smallest integer is not lost. -/
theorem magnitude_toNat (v : Int64) : (magnitude v).toNat = v.toInt.natAbs := by
  have hlow := Int64.le_toInt v
  have hhigh := Int64.toInt_lt v
  rw [magnitude]
  by_cases hneg : v < 0
  · have hneg' : v.toInt < 0 := Int64.lt_iff_toInt_lt.mp hneg
    have hsucc : (v + 1).toInt = v.toInt + 1 := by
      rw [Int64.toInt_add]
      change (v.toInt + 1).bmod (2 ^ 64) = _
      exact Int.bmod_eq_of_le (by omega) (by omega)
    have hflip : (-(v + 1)).toInt = -(v.toInt + 1) := by
      rw [Int64.toInt_neg, hsucc]
      exact Int.bmod_eq_of_le (by omega) (by omega)
    have hle : 0 ≤ -(v + 1) := by
      apply Int64.le_iff_toInt_le.mpr
      rw [hflip]
      change (0 : Int) ≤ _
      omega
    rw [if_pos hneg, UInt64.toNat_add, Int64.toNat_toUInt64_of_le hle, Int64.toNatClampNeg, hflip]
    change (_ + 1) % 2 ^ 64 = _
    omega
  · have hle : 0 ≤ v := Int64.not_lt.mp hneg
    have hle' : 0 ≤ v.toInt := Int64.le_iff_toInt_le.mp hle
    rw [if_neg hneg, Int64.toNat_toUInt64_of_le hle, Int64.toNatClampNeg]
    omega

/-- The digits that `const_dump_int` puts, behind a sign, are the text of `std::to_chars`. -/
theorem int64Text_eq (v : Int64) : Writer.int64Text v =
    (if v < 0 then [ascii '-'] else []) ++ (digitBuf 20 (magnitude v)).reverse := by
  have hbound : (magnitude v).toNat < 10 ^ 20 := (magnitude v).toNat_lt.trans (by decide)
  rw [digitBuf_eq (by decide) hbound, magnitude_toNat, Writer.int64Text]
  have hsign : v < 0 ↔ v.toInt < 0 := Int64.lt_iff_toInt_lt
  cases hv : v.toInt with
  | ofNat n =>
      rw [if_neg (by rw [hsign, hv]; exact Int.not_lt.mpr (Int.natCast_nonneg n))]
      change asciiBytes n.repr = _
      rw [asciiBytes, Nat.toList_repr]
      rfl
  | negSucc n =>
      rw [if_pos (by rw [hsign, hv]; exact Int.negSucc_lt_zero n)]
      change asciiBytes ("-" ++ (n + 1).repr) = _
      rw [asciiBytes, String.toList_append, List.map_append, Nat.toList_repr]
      rfl

/-! ### What the traversal puts -/

/-- The texts of the items with commas between them. -/
def joinItems (first : Bool) : List Bytes → Bytes
  | [] => []
  | text :: texts => (if first then [] else [ascii ',']) ++ (text ++ joinItems false texts)

def quoted (s : Bytes) : Bytes := ascii '"' :: (s.flatMap Writer.esc ++ [ascii '"'])

mutual

/-- The compact text of a value without doubles. -/
def compact : ConstJson → Bytes
  | null => asciiBytes "null"
  | bool v => asciiBytes (if v then "true" else "false")
  | int v => Writer.int64Text v
  | double _ => []
  | str v => quoted v
  | array elems => ascii '[' :: (joinItems true (compactElems elems) ++ [ascii ']'])
  | object entries => ascii '\x7b' :: (joinItems true (compactEntries entries) ++ [ascii '\x7d'])

def compactElems : List ConstJson → List Bytes
  | [] => []
  | e :: elems => compact e :: compactElems elems

def compactEntries : List (Bytes × ConstJson) → List Bytes
  | [] => []
  | (key, e) :: entries => (quoted key ++ ascii ':' :: compact e) :: compactEntries entries

end

/-- A sink that takes a text byte by byte. -/
class Bytewise (σ : Type) [ConstSink σ] : Prop where
  putText_eq : ∀ (sink : σ) (text : Bytes), putText sink text = text.foldl put sink

theorem foldl_count (sink : CountSink) (text : Bytes) :
    text.foldl put sink = { n := sink.n + text.length } := by
  induction text generalizing sink with
  | nil => rfl
  | cons c text ih =>
      rw [List.foldl_cons, ih]
      change CountSink.mk (sink.n + 1 + text.length) = CountSink.mk (sink.n + (text.length + 1))
      rw [Nat.add_right_comm, Nat.add_assoc]

instance : Bytewise CountSink where
  putText_eq sink text := (foldl_count sink text).symm

instance : Bytewise BufSink where
  putText_eq _ _ := rfl

section Traversal

variable {σ : Type} [ConstSink σ] [Bytewise σ]

open Bytewise

/-- The text that one byte of a string is replaced by: the escapes of the runtime writer. -/
theorem constDumpChar_eq (sink : σ) (c : UInt8) :
    constDumpChar sink c = (Writer.esc c).foldl put sink := by
  have htext : ∀ c : UInt8, Writer.esc c =
      if c = ascii '"' then asciiBytes "\\\""
      else if c = ascii '\\' then asciiBytes "\\\\"
      else if c = 0x08 then asciiBytes "\\b"
      else if c = 0x0C then asciiBytes "\\f"
      else if c = 0x0A then asciiBytes "\\n"
      else if c = 0x0D then asciiBytes "\\r"
      else if c = 0x09 then asciiBytes "\\t"
      else if c < 0x20 then asciiBytes "\\u00" ++
        [hexLower.getD ((c.toNat >>> 4) &&& 0xF) 0, hexLower.getD (c.toNat &&& 0xF) 0]
      else [c] := by decide +kernel
  rw [htext, constDumpChar]
  simp only [putText_eq]
  split_ifs <;> rfl

theorem constDumpString_eq (sink : σ) (str : Bytes) :
    constDumpString sink str = (quoted str).foldl put sink := by
  have hbody : ∀ (sink : σ), str.foldl constDumpChar sink = (str.flatMap Writer.esc).foldl put sink := by
    induction str with
    | nil => exact fun _ => rfl
    | cons c str ih =>
        intro sink
        rw [List.foldl_cons, ih, constDumpChar_eq, List.flatMap_cons, List.foldl_append]
  rw [constDumpString, hbody, quoted, List.foldl_cons, List.foldl_append]
  rfl

omit [Bytewise σ] in
theorem constDumpInt_eq (sink : σ) (v : Int64) :
    constDumpInt sink v = (Writer.int64Text v).foldl put sink := by
  rw [constDumpInt, int64Text_eq, List.foldl_append]
  split <;> rfl

omit [Bytewise σ] in
theorem putComma_eq (sink : σ) (first : Bool) :
    putComma sink first = (if first then [] else [ascii ',']).foldl put sink := by
  cases first <;> rfl

/-- Any sink is given the compact text, byte by byte. -/
theorem constDumpTo_eq (v : ConstJson) (sink : σ) : constDumpTo sink v = v.compact.foldl put sink := by
  induction v using ConstJson.induct generalizing sink with
  | null => exact putText_eq sink _
  | bool v => exact putText_eq sink _
  | int v => exact constDumpInt_eq sink v
  | double v => rfl
  | str v => exact constDumpString_eq sink v
  | array elems ih =>
      have hitems : ∀ (first : Bool) (sink : σ), constDumpElems sink first elems =
          (joinItems first (compactElems elems)).foldl put sink := by
        induction elems with
        | nil => exact fun _ _ => rfl
        | cons e elems ih' =>
            intro first sink
            obtain ⟨he, helems⟩ := List.forall_mem_cons.mp ih
            rw [constDumpElems, ih' helems, he, putComma_eq, compactElems, joinItems, List.foldl_append,
              List.foldl_append]
      rw [constDumpTo, hitems, compact, List.foldl_cons, List.foldl_append]
      rfl
  | object entries ih =>
      have hitems : ∀ (first : Bool) (sink : σ), constDumpEntries sink first entries =
          (joinItems first (compactEntries entries)).foldl put sink := by
        induction entries with
        | nil => exact fun _ _ => rfl
        | cons entry entries ih' =>
            intro first sink
            obtain ⟨key, e⟩ := entry
            obtain ⟨he, hentries⟩ := List.forall_mem_cons.mp ih
            rw [constDumpEntries, ih' hentries, he, constDumpString_eq, putComma_eq, compactEntries,
              joinItems, List.foldl_append, List.foldl_append, List.foldl_append]
            rfl
      rw [constDumpTo, hitems, compact, List.foldl_cons, List.foldl_append]
      rfl

end Traversal

/-! ### The buffer -/

/-- What a sink leaves that is given a text: as much of it as fits, and a flag for the rest. -/
theorem foldl_buf (text : Bytes) {sink : BufSink} (hp : sink.p ≤ sink.limit) :
    let room := sink.limit - sink.p
    let after := text.foldl BufSink.put sink
    (∀ a, a < sink.p ∨ sink.limit ≤ a → after.memory a = sink.memory a) ∧
      (∀ i (hi : i < text.length), i < room → after.memory (sink.p + i) = text[i]) ∧
      after.written = sink.written + min text.length room ∧
      (after.overflow = true ↔ sink.overflow = true ∨ room < text.length) := by
  induction text generalizing sink with
  | nil =>
      refine ⟨fun _ _ => rfl, fun i hi => absurd hi (Nat.not_lt_zero i), ?_, ?_⟩
      · rw [List.length_nil, Nat.zero_min]
        rfl
      · exact (or_iff_left (Nat.not_lt_zero _)).symm
  | cons c text ih =>
      rw [List.foldl_cons]
      by_cases hfull : sink.p = sink.limit
      · have hput : BufSink.put sink c = { sink with overflow := true } := if_neg (not_not.mpr hfull)
        obtain ⟨hframe, -, hwritten, hoverflow⟩ := @ih { sink with overflow := true } hp
        rw [hput]
        refine ⟨hframe, fun i _ hroom => absurd hroom (by omega), ?_, ?_⟩
        · dsimp only at hwritten ⊢
          rw [hwritten, hfull, Nat.sub_self, Nat.min_zero, Nat.min_zero]
        · dsimp only at hoverflow ⊢
          rw [hoverflow, hfull, Nat.sub_self]
          exact iff_of_true (.inl rfl) (.inr (Nat.succ_pos _))
      · have hput : BufSink.put sink c = { sink with
            memory := Function.update sink.memory sink.p c
            p := sink.p + 1
            written := sink.written + 1 } := if_pos hfull
        obtain ⟨hframe, htext, hwritten, hoverflow⟩ := @ih { sink with
            memory := Function.update sink.memory sink.p c
            p := sink.p + 1
            written := sink.written + 1 } (by dsimp only; omega)
        rw [hput]
        dsimp only at hframe htext hwritten hoverflow ⊢
        refine ⟨?_, ?_, ?_, ?_⟩
        · intro a ha
          rw [hframe a (by omega), Function.update_of_ne (by omega)]
        · intro i hi hroom
          cases i with
          | zero =>
              rw [hframe _ (by omega)]
              exact Function.update_self ..
          | succ i =>
              rw [List.length_cons] at hi
              rw [List.getElem_cons_succ, ← htext i (by omega) (by omega)]
              congr 1
              omega
        · rw [hwritten, List.length_cons]
          omega
        · rw [hoverflow, List.length_cons]
          exact or_congr_right (by omega)

/-! ### The runtime writer -/

section Runtime

open Writer

variable {platform : Platform} {maxDepth : Nat}

/-- In compact mode the items of a container stand with commas between them. -/
theorem writes_writeItems {items : List (Prog Writer Unit)} {texts : List Bytes} (depth : Nat)
    (first : Bool) (h : List.Forall₂ Writes items texts) :
    Writes (writeItems {} depth first items) (joinItems first texts) := by
  induction h generalizing first with
  | nil => exact writes_pure
  | @cons item text items texts hitem _ ih =>
      have hcomma : Writes (writeComma first) (if first then [] else [ascii ',']) := by
        cases first with
        | true => exact writes_pure
        | false => exact writes_append _
      exact hcomma.seq (writes_pure.seq (hitem.seq (ih false)))

theorem writes_writeContainer {items : List (Prog Writer Unit)} {texts : List Bytes} (depth : Nat)
    (opening closing : UInt8) (h : List.Forall₂ Writes items texts) :
    Writes (writeContainer {} depth opening closing items)
      (opening :: (joinItems true texts ++ [closing])) := by
  rw [writeContainer]
  cases h with
  | nil => exact writes_append _
  | cons hitem hitems =>
      exact (writes_append [opening]).seq ((writes_writeItems depth true (.cons hitem hitems)).seq
        (writes_pure.seq (writes_append [closing])))

theorem writes_quoted (s : Bytes) : Writes (writeEscapedImpl platform s false) (quoted s) :=
  writeEscapedImpl_eq platform s

theorem writes_writeInt (v : Int64) : Writes (writeInt v) (int64Text v) := by
  have hlength : ¬24 < (int64Text v).length := by
    rw [int64Text_eq, List.length_append, List.length_reverse]
    have hbuf : ∀ room m, (digitBuf room m).length ≤ room := by
      intro room
      induction room with
      | zero => exact fun _ => Nat.le_refl 0
      | succ room ih =>
          intro m
          rw [digitBuf, List.length_cons]
          split
          · exact Nat.succ_le_succ (ih _)
          · exact Nat.succ_le_succ (Nat.zero_le _)
    have hle := hbuf 20 (magnitude v)
    split
    · rw [List.length_singleton]
      omega
    · rw [List.length_nil]
      omega
  rw [writeInt, if_neg hlength]
  exact writes_append _

theorem writes_checkDepth {depth : Nat} {program : Prog Writer Unit} {text : Bytes}
    (hdepth : maxDepth = 0 ∨ depth + 1 ≤ maxDepth) (h : Writes program text) :
    Writes (checkDepth maxDepth depth program) text := by
  rw [checkDepth, if_neg (by omega)]
  exact h

/-- The converted value is written as the compact text. -/
theorem writes_toRuntime {v : ConstJson} {res : Nat} {value : Node} {depth : Nat}
    (hdouble : v.hasDouble = false) (hrepeats : v.NoRepeats)
    (hdepth : maxDepth = 0 ∨ depth + v.nesting ≤ maxDepth) (h : toRuntime res v = some value) :
    Writes (writeValue platform {} maxDepth depth value) v.compact := by
  induction v using ConstJson.induct generalizing value depth with
  | null =>
      cases h
      exact writes_append _
  | bool v =>
      cases h
      exact writes_append _
  | int v =>
      cases h
      exact writes_writeInt v
  | double v => cases hdouble
  | str v =>
      cases h
      exact writes_quoted v
  | array elems ih =>
      obtain ⟨values, hvalues, rfl⟩ := Option.map_eq_some_iff.mp h
      rw [pushElems_eq_some] at hvalues
      rw [hasDouble, hasDoubleElems_eq_false] at hdouble
      rw [NoRepeats, AllObjects, allObjectsElems_iff] at hrepeats
      have hchild : ∀ e ∈ elems, maxDepth = 0 ∨ depth + 1 + e.nesting ≤ maxDepth := by
        intro e he
        have hle := nestingElems_le.mp (Nat.le_refl (nestingElems elems)) e he
        rw [nesting] at hdepth
        omega
      rw [writeValue_array, compact]
      refine writes_checkDepth (by rw [nesting] at hdepth; omega) (writes_writeContainer depth _ _ ?_)
      clear h hdepth
      induction hvalues with
      | nil => exact .nil
      | @cons e value elems values he _ ih' =>
          obtain ⟨ihe, ihelems⟩ := List.forall_mem_cons.mp ih
          rw [List.forall_mem_cons] at hdouble hrepeats hchild
          exact .cons (ihe hdouble.1 hrepeats.1 hchild.1 he)
            (ih' ihelems hdouble.2 hrepeats.2 hchild.2)
  | object entries ih =>
      obtain ⟨hkeys, hentries⟩ := hrepeats
      obtain ⟨self, rfl, hall⟩ := toRuntime_object hkeys h
      rw [hasDouble, hasDoubleEntries_eq_false] at hdouble
      rw [allObjectsEntries_iff] at hentries
      have hchild : ∀ entry ∈ entries, maxDepth = 0 ∨ depth + 1 + entry.2.nesting ≤ maxDepth := by
        intro entry hentry
        have hle := nestingEntries_le.mp (Nat.le_refl (nestingEntries entries)) entry hentry
        rw [nesting] at hdepth
        omega
      rw [writeValue_object, compact]
      refine writes_checkDepth (by rw [nesting] at hdepth; omega) (writes_writeContainer depth _ _ ?_)
      clear h hdepth hkeys
      generalize self.data = data at hall
      change List.Forall₂ Writes (data.map _) _
      induction hall with
      | nil => exact .nil
      | @cons entry entry' entries data hentry _ ih' =>
          obtain ⟨ihe, ihentries⟩ := List.forall_mem_cons.mp ih
          rw [List.forall_mem_cons] at hdouble hentries hchild
          have hvalue := ihe hdouble.1 hentries.1 hchild.1 hentry.2
          have hkey : Writes (writeEscapedImpl platform entry'.1 false) (quoted entry.1) := by
            rw [hentry.1]
            exact writes_quoted entry'.1
          exact .cons (hkey.seq ((writes_append [ascii ':']).seq hvalue))
            (ih' ihentries hdouble.2 hentries.2 hchild.2)

theorem dump_toRuntime {v : ConstJson} {res : Nat} {value : Node} (hdouble : v.hasDouble = false)
    (hrepeats : v.NoRepeats) (hdepth : maxDepth = 0 ∨ v.nesting ≤ maxDepth)
    (h : toRuntime res v = some value) : dump platform {} maxDepth value = .ok v.compact := by
  have hwrites := @writes_toRuntime platform maxDepth v res value 0 hdouble hrepeats (by omega) h
  rw [dump, dumpValueTo, if_neg (by decide), hwrites]
  rfl

end Runtime

/-! ### The entry points -/

theorem constDumpSize_eq {v : ConstJson} (hdouble : v.hasDouble = false) :
    v.constDumpSize = some v.compact.length := by
  rw [constDumpSize, if_neg (by rw [hdouble]; decide), constDumpTo_eq, foldl_count]
  exact congrArg some (Nat.zero_add _)

/-- What `const_dump` leaves in memory, and what it returns. -/
theorem constDump_spec {v : ConstJson} (hdouble : v.hasDouble = false) (memory : Nat → UInt8)
    (out cap : Nat) : ∃ memory', v.constDump memory out cap =
        some (if v.compact.length ≤ cap then v.compact.length else 0, memory') ∧
      (∀ a, a < out ∨ out + cap ≤ a → memory' a = memory a) ∧
      ∀ i (hi : i < v.compact.length), i < cap → memory' (out + i) = v.compact[i] := by
  obtain ⟨hframe, htext, hwritten, hoverflow⟩ :=
    @foldl_buf v.compact { memory, p := out, limit := out + cap } (Nat.le_add_right out cap)
  dsimp only at hframe htext hwritten hoverflow
  rw [Nat.add_sub_cancel_left] at htext hwritten hoverflow
  refine ⟨_, ?_, hframe, htext⟩
  rw [constDump, if_neg (by rw [hdouble]; decide), constDumpTo_eq]
  dsimp only
  congr 2
  change (if (v.compact.foldl BufSink.put _).overflow = true then _ else _) = _
  by_cases hfits : v.compact.length ≤ cap
  · rw [if_pos hfits, if_neg]
    · exact hwritten.trans (by rw [Nat.min_eq_left hfits, Nat.zero_add])
    · rw [hoverflow]
      exact not_or.mpr ⟨by decide, Nat.not_lt.mpr hfits⟩
  · rw [if_neg hfits, if_pos (hoverflow.mpr (.inr (Nat.lt_of_not_le hfits)))]

theorem compact_ne_nil {v : ConstJson} (hdouble : v.hasDouble = false) : v.compact ≠ [] := by
  cases v with
  | null => decide
  | bool v => cases v <;> decide
  | int v =>
      rw [compact, int64Text_eq, digitBuf, List.reverse_cons]
      exact fun h => List.cons_ne_nil _ _ (List.append_eq_nil_iff.mp (List.append_eq_nil_iff.mp h).2).2
  | double v => cases hdouble
  | str v => exact List.cons_ne_nil _ _
  | array elems => exact List.cons_ne_nil _ _
  | object entries => exact List.cons_ne_nil _ _

/-- `const_dump<Cap>` holds the text exactly if it fits. -/
theorem constDumpText_spec {v : ConstJson} (hdouble : v.hasDouble = false) (cap : Nat) :
    ∃ t, v.constDumpText cap = some t ∧ (t.overflow = false ↔ v.compact.length ≤ cap) ∧
      (v.compact.length ≤ cap → t.view = v.compact) := by
  obtain ⟨memory, hrun, -, htext⟩ := constDump_spec hdouble (fun _ => 0) 0 cap
  have hpos : v.compact.length ≠ 0 := fun h => compact_ne_nil hdouble (List.length_eq_zero_iff.mp h)
  rw [constDumpText, hrun, Option.bind_eq_bind, Option.bind_some]
  by_cases hfits : v.compact.length ≤ cap
  · rw [if_pos hfits]
    dsimp only
    rw [if_neg hpos]
    refine ⟨_, rfl, iff_of_true rfl hfits, fun _ => ?_⟩
    have hdata : ((List.range cap).map memory).take v.compact.length = v.compact := by
      apply List.ext_getElem
      · rw [List.length_take, List.length_map, List.length_range, Nat.min_eq_left hfits]
      · intro i hi hi'
        rw [List.getElem_take, List.getElem_map, List.getElem_range, ← htext i hi' (by omega),
          Nat.zero_add]
    exact hdata
  · rw [if_neg hfits]
    exact ⟨_, rfl, iff_of_false (fun h => by cases h) hfits, fun h => absurd h hfits⟩

/-- A value without doubles and without repeated keys, nested no deeper than `max_depth`, has one compact
text: the runtime writer dumps it from the converted value, `const_dump_size` is its length, and
`const_dump` writes it into the buffer that has room for it, and nothing outside any buffer. -/
theorem constDump_agrees (platform : Platform) (maxDepth : Nat) {v : ConstJson}
    (hdouble : v.hasDouble = false) (hrepeats : v.NoRepeats)
    (hdepth : maxDepth = 0 ∨ v.nesting ≤ maxDepth) : ∃ text : Bytes,
      (∀ res value, toRuntime res v = some value →
        Writer.dump platform {} maxDepth value = .ok text) ∧
      (v.Indexable → ∀ res, ∃ value, toRuntime res v = some value) ∧
      v.constDumpSize = some text.length ∧
      (∀ cap, ∃ t, v.constDumpText cap = some t ∧ (t.overflow = false ↔ text.length ≤ cap) ∧
        (text.length ≤ cap → t.view = text)) ∧
      ∀ memory out cap, ∃ memory', v.constDump memory out cap =
          some (if text.length ≤ cap then text.length else 0, memory') ∧
        (∀ a, a < out ∨ out + cap ≤ a → memory' a = memory a) ∧
        ∀ i (hi : i < text.length), i < cap → memory' (out + i) = text[i] :=
  ⟨v.compact, fun _ _ h => dump_toRuntime hdouble hrepeats hdepth h,
    fun hindex res => exists_toRuntime res hindex, constDumpSize_eq hdouble,
    constDumpText_spec hdouble, constDump_spec hdouble⟩

/-- `{"a":[-9223372036854775808]}`. -/
def smallest : ConstJson := object [(asciiBytes "a", array [int Int64.minValue])]

theorem constDump_agrees_smallest : ∃ text : Bytes, smallest.constDumpSize = some text.length ∧
    (∀ res value, toRuntime res smallest = some value →
      Writer.dump halfPlatform {} 2 value = .ok text) ∧
    ∃ value, toRuntime 0 smallest = some value := by
  have hrepeats : smallest.NoRepeats := ⟨List.nodup_singleton _, ⟨trivial, trivial⟩, trivial⟩
  have hindex : smallest.Indexable := ⟨by decide, ⟨trivial, trivial⟩, trivial⟩
  obtain ⟨text, hdump, hreturns, hsize, -⟩ := constDump_agrees halfPlatform 2
    (show smallest.hasDouble = false by decide +kernel) hrepeats (.inr (by decide +kernel))
  exact ⟨text, hsize, hdump, hreturns hindex 0⟩

end ConstJson

end PjhJson
