import PjhJson.ConstJsonDump
import PjhJson.WriterCanonical

/-! Exactly which trees `dump` writes: those within the depth limit, without a double that is not finite
and, in the ASCII form, without a string that is not well-formed UTF-8. -/

namespace PjhJson

open Grammar Utf8

namespace Node

/-- A value below `depth` open containers nests within the limit; zero stands for no limit. -/
def NestsWithin (maxDepth depth : Nat) (value : Node) : Prop :=
  maxDepth = 0 ∨ depth + value.nesting ≤ maxDepth

theorem nestsWithin_array {maxDepth depth : Nat} {elements : List Node} :
    NestsWithin maxDepth depth (array elements) ↔
      (maxDepth = 0 ∨ depth + 1 ≤ maxDepth) ∧ ∀ value ∈ elements, NestsWithin maxDepth (depth + 1) value := by
  have hnesting := @nestingElements_le elements (maxDepth - (depth + 1))
  simp only [NestsWithin, nesting]
  by_cases hmax : maxDepth = 0
  · simp [hmax]
  · simp only [hmax, false_or]
    constructor
    · intro hdepth
      refine ⟨by omega, fun value hmem => ?_⟩
      have hvalue := hnesting.mp (by omega) value hmem
      omega
    · rintro ⟨hdepth, hvalues⟩
      have helements := hnesting.mpr fun value hmem => by
        have hvalue := hvalues value hmem
        omega
      omega

theorem nestsWithin_object {maxDepth depth : Nat} {self : Object Node} :
    NestsWithin maxDepth depth (object self) ↔ (maxDepth = 0 ∨ depth + 1 ≤ maxDepth) ∧
      ∀ entry ∈ self.data, NestsWithin maxDepth (depth + 1) entry.2 := by
  obtain ⟨data, index, resource⟩ := self
  have hnesting : nestingEntries data = nestingElements (data.map (·.2)) := by
    induction data with
    | nil => rfl
    | cons entry rest ih => rw [nestingEntries, ih, List.map_cons, nestingElements]
  have hvalues : (∀ entry ∈ data, NestsWithin maxDepth (depth + 1) entry.2) ↔
      ∀ value ∈ data.map (·.2), NestsWithin maxDepth (depth + 1) value :=
    List.forall_mem_map.symm
  rw [hvalues, ← nestsWithin_array, NestsWithin, NestsWithin, nesting, nesting, hnesting]

theorem nestsWithin_scalar {maxDepth depth : Nat} {value : Node} (h : value.nesting = 0) :
    NestsWithin maxDepth depth value ↔ maxDepth = 0 ∨ depth ≤ maxDepth := by
  rw [NestsWithin, h, Nat.add_zero]

/-- What the text of a tree can show: every double is finite and, in the ASCII form, every string and key is
well-formed UTF-8. -/
def Representable (ascii : Bool) (node : Node) : Prop := node.All fun
  | floating value => value.isFinite = true
  | stringView text => ascii = true → WellFormed text
  | stringOwned text => ascii = true → WellFormed text
  | object self => ascii = true → ∀ key ∈ self.keys, WellFormed key
  | _ => True

theorem representable_array {ascii : Bool} {elements : List Node} :
    (array elements).Representable ascii ↔ ∀ value ∈ elements, value.Representable ascii := by
  rw [Representable, all_array]
  exact ⟨fun h => h.2, fun h => ⟨trivial, h⟩⟩

theorem representable_object {ascii : Bool} {self : Object Node} :
    (object self).Representable ascii ↔
      ∀ entry ∈ self.data, (ascii = true → WellFormed entry.1) ∧ entry.2.Representable ascii := by
  rw [Representable, all_object]
  constructor
  · rintro ⟨hkeys, hvalues⟩ entry hmem
    exact ⟨fun hascii => hkeys hascii entry.1 (List.mem_map_of_mem hmem), hvalues entry hmem⟩
  · intro h
    exact ⟨fun hascii => List.forall_mem_map.mpr fun entry hmem => (h entry hmem).1 hascii,
      fun entry hmem => (h entry hmem).2⟩

end Node

namespace Writer

/-- The program appends a text. -/
def Writable (program : Prog Writer Unit) : Prop := ∃ text, Writes program text

section Rules

variable {program next : Prog Writer Unit}

theorem writable_append (text : Bytes) : Writable (append text) := ⟨text, writes_append text⟩

theorem writable_pure : Writable (pure ()) := ⟨[], writes_pure⟩

theorem not_writable_fail (code : ErrorCode) : ¬Writable (fail code) := by
  rintro ⟨text, htext⟩
  have hrun := htext {}
  cases hrun

theorem writable_seq (h : Settled program) (h' : Settled next) :
    Writable (program >>= fun _ => next) ↔ Writable program ∧ Writable next := by
  constructor
  · rintro ⟨text, htext⟩
    obtain ⟨first, rest, hfirst, hrest, -⟩ := (h.spells.seq h'.spells).2 text htext
    exact ⟨⟨first, hfirst⟩, rest, hrest⟩
  · rintro ⟨⟨first, hfirst⟩, rest, hrest⟩
    exact ⟨first ++ rest, hfirst.seq hrest⟩

/-- A first part that is always written does not matter. -/
theorem writable_behind {text : Bytes} (h : Writes program text) (h' : Settled next) :
    Writable (program >>= fun _ => next) ↔ Writable next := by
  rw [writable_seq h.settled h']
  exact and_iff_right ⟨text, h⟩

theorem writable_front {text : Bytes} (h : Settled program) (h' : Writes next text) :
    Writable (program >>= fun _ => next) ↔ Writable program := by
  rw [writable_seq h h'.settled]
  exact and_iff_left ⟨text, h'⟩

end Rules

section Values

variable {platform : Platform} {opts : DumpOptions} {maxDepth : Nat}

theorem writable_escaped (s : Bytes) (ascii : Bool) :
    Writable (writeEscapedImpl platform s ascii) ↔ (ascii = true → WellFormed s) := by
  cases ascii with
  | false =>
      have hwrites : Writes (writeEscapedImpl platform s false) _ := writeEscapedImpl_eq platform s
      exact iff_of_true ⟨_, hwrites⟩ fun h => absurd h Bool.false_ne_true
  | true =>
      have hbody : Writable (writeEscapedAscii (s.length + 1) s) ↔ WellFormed s := by
        rw [wellFormed_iff_chars]
        constructor
        · rintro ⟨text, htext⟩
          exact chars_of_writeEscapedAscii (htext {})
        · rintro ⟨chars, rfl⟩
          exact ⟨_, writeEscapedAscii_chars chars (Nat.lt_succ_self _)⟩
      have hsettled : Settled (writeEscapedAscii (s.length + 1) s) := by
        by_cases hs : WellFormed s
        · obtain ⟨text, htext⟩ := hbody.mpr hs
          exact htext.settled
        · refine .inr fun w pair hrun => hs ?_
          rw [wellFormed_iff_chars]
          exact @chars_of_writeEscapedAscii _ _ _ pair.2 hrun
      have hquote : Writes (append [PjhJson.ascii '"']) _ := writes_append _
      calc Writable (writeEscapedImpl platform s true)
          ↔ Writable (append [PjhJson.ascii '"'] >>= fun _ =>
              writeEscapedAscii (s.length + 1) s >>= fun _ => append [PjhJson.ascii '"']) := Iff.rfl
        _ ↔ Writable (writeEscapedAscii (s.length + 1) s >>= fun _ => append [PjhJson.ascii '"']) :=
            writable_behind hquote (hsettled.seq hquote.settled)
        _ ↔ Writable (writeEscapedAscii (s.length + 1) s) := writable_front hsettled hquote
        _ ↔ WellFormed s := hbody
        _ ↔ (true = true → WellFormed s) := ⟨fun h _ => h, fun h => h rfl⟩

theorem writable_double (hchars : ∀ d : Double, d.isFinite = true → ∃ buf, platform.toChars d = some buf)
    (d : Double) : Writable (writeDouble platform d) ↔ d.isFinite = true := by
  constructor
  · rintro ⟨text, htext⟩
    exact ((writeDouble_spells d).2 text htext).1
  · intro hfinite
    obtain ⟨buf, hbuf⟩ := hchars d hfinite
    have hnot : ¬(!d.isFinite) = true := by rw [hfinite]; decide
    have hpoint : Writable (if (!hasPoint buf) = true then append (asciiBytes ".0") else pure ()) := by
      split
      · exact writable_append _
      · exact writable_pure
    obtain ⟨rest, hrest⟩ := hpoint
    unfold writeDouble
    rw [if_neg hnot, hbuf]
    exact ⟨_, (writes_append buf).seq hrest⟩

theorem writable_checkDepth {depth : Nat} {program : Prog Writer Unit} :
    Writable (checkDepth maxDepth depth program) ↔ (maxDepth = 0 ∨ depth + 1 ≤ maxDepth) ∧ Writable program := by
  unfold checkDepth
  split
  · rename_i hdeep
    exact iff_of_false (not_writable_fail _) fun h => by omega
  · rename_i hfits
    exact (and_iff_right (show maxDepth = 0 ∨ depth + 1 ≤ maxDepth by omega)).symm

theorem writable_entry (key : Bytes) {program : Prog Writer Unit} (h : Settled program) :
    Writable (writeEntry platform opts (key, program)) ↔
      (opts.ascii = true → WellFormed key) ∧ Writable program := by
  have hkey := (@writeEscapedImpl_spells platform key opts.ascii).1
  have hcolon : Writes (append (asciiBytes (if opts.pretty then ": " else ":"))) _ := writes_append _
  calc Writable (writeEntry platform opts (key, program))
      ↔ Writable (writeEscapedImpl platform key opts.ascii >>= fun _ =>
          append (asciiBytes (if opts.pretty then ": " else ":")) >>= fun _ => program) := Iff.rfl
    _ ↔ Writable (writeEscapedImpl platform key opts.ascii) ∧
          Writable (append (asciiBytes (if opts.pretty then ": " else ":")) >>= fun _ => program) :=
        writable_seq hkey (hcolon.settled.seq h)
    _ ↔ (opts.ascii = true → WellFormed key) ∧ Writable program :=
        and_congr (writable_escaped key opts.ascii) (writable_behind hcolon h)

/-- The loop writes its items if each of them is written; what stands between them always is. -/
theorem writable_items {items : List (Prog Writer Unit)} (depth : Nat) (first : Bool)
    (h : ∀ item ∈ items, Settled item) : Settled (writeItems opts depth first items) ∧
      (Writable (writeItems opts depth first items) ↔ ∀ item ∈ items, Writable item) := by
  induction items generalizing first with
  | nil =>
      refine ⟨writes_pure.settled, iff_of_true writable_pure ?_⟩
      exact fun _ hmem => absurd hmem List.not_mem_nil
  | cons item items ih =>
      obtain ⟨hitem, hitems⟩ := List.forall_mem_cons.mp h
      obtain ⟨hsettled, hall⟩ := ih false hitems
      have hcomma : ∃ comma, Writes (writeComma first) comma := by
        cases first with
        | true => exact ⟨[], writes_pure⟩
        | false => exact ⟨_, writes_append _⟩
      obtain ⟨comma, hcomma⟩ := hcomma
      have hbreak := @writes_breakLine opts (depth + 1)
      have hrest := hitem.seq hsettled
      refine ⟨hcomma.settled.seq (hbreak.settled.seq hrest), ?_⟩
      calc Writable (writeItems opts depth first (item :: items))
          ↔ Writable (writeComma first >>= fun _ => breakLine opts (depth + 1) >>= fun _ => item >>= fun _ =>
              writeItems opts depth false items) := Iff.rfl
        _ ↔ Writable (breakLine opts (depth + 1) >>= fun _ => item >>= fun _ =>
              writeItems opts depth false items) := writable_behind hcomma (hbreak.settled.seq hrest)
        _ ↔ Writable (item >>= fun _ => writeItems opts depth false items) := writable_behind hbreak hrest
        _ ↔ Writable item ∧ Writable (writeItems opts depth false items) := writable_seq hitem hsettled
        _ ↔ ∀ item' ∈ item :: items, Writable item' := by rw [hall, List.forall_mem_cons]

theorem writable_container {items : List (Prog Writer Unit)} (depth : Nat) (opening closing : UInt8)
    (h : ∀ item ∈ items, Settled item) :
    Writable (writeContainer opts depth opening closing items) ↔ ∀ item ∈ items, Writable item := by
  cases items with
  | nil => exact iff_of_true (writable_append _) fun _ hmem => absurd hmem List.not_mem_nil
  | cons item items =>
      obtain ⟨hsettled, hall⟩ := @writable_items opts (item :: items) depth true h
      have hclose := (@writes_breakLine opts depth).seq (writes_append [closing])
      have hopen := writes_append [opening]
      calc Writable (writeContainer opts depth opening closing (item :: items))
          ↔ Writable (append [opening] >>= fun _ => writeItems opts depth true (item :: items) >>= fun _ =>
              breakLine opts depth >>= fun _ => append [closing]) := Iff.rfl
        _ ↔ Writable (writeItems opts depth true (item :: items) >>= fun _ =>
              breakLine opts depth >>= fun _ => append [closing]) :=
            writable_behind hopen (hsettled.seq hclose.settled)
        _ ↔ Writable (writeItems opts depth true (item :: items)) := writable_front hsettled hclose
        _ ↔ ∀ item' ∈ item :: items, Writable item' := hall

/-- A value is written exactly when it nests within the limit and can be shown. -/
theorem writable_value (hchars : ∀ d : Double, d.isFinite = true → ∃ buf, platform.toChars d = some buf)
    (value : Node) {depth : Nat} (hdepth : maxDepth = 0 ∨ depth ≤ maxDepth) :
    Writable (writeValue platform opts maxDepth depth value) ↔
      value.NestsWithin maxDepth depth ∧ value.Representable opts.ascii := by
  have hscalar : ∀ {value : Node}, value.nesting = 0 → value.NestsWithin maxDepth depth := fun hzero =>
    (Node.nestsWithin_scalar hzero).mpr hdepth
  induction value using Node.induct generalizing depth with
  | array arr ih =>
      have hsettled : ∀ item ∈ arr.map (writeValue platform opts maxDepth (depth + 1)), Settled item :=
        List.forall_mem_map.mpr fun value _ => (writeValue_spells value (depth + 1)).1
      rw [writeValue_array, writable_checkDepth, writable_container depth _ _ hsettled, List.forall_mem_map,
        Node.nestsWithin_array, Node.representable_array, and_assoc, ← forall₂_and]
      apply and_congr_right
      intro hinner
      exact forall₂_congr fun value hmem => ih value hmem hinner fun hzero =>
        (Node.nestsWithin_scalar hzero).mpr hinner
  | object self ih =>
      have hsettled : ∀ item ∈ (orderEntries opts self.data).map fun entry => writeEntry platform opts
          (entry.1, writeValue platform opts maxDepth (depth + 1) entry.2), Settled item :=
        List.forall_mem_map.mpr fun entry _ =>
          (writeEntry_spells entry.1 (writeValue_spells entry.2 (depth + 1)).1).1
      rw [writeValue_object, writable_checkDepth, writable_container depth _ _ hsettled, List.forall_mem_map,
        Node.nestsWithin_object, Node.representable_object, and_assoc, ← forall₂_and]
      apply and_congr_right
      intro hinner
      apply forall_congr'
      intro entry
      rw [mem_orderEntries]
      refine imp_congr_right fun hmem => ?_
      have hvalue : Writable (writeValue platform opts maxDepth (depth + 1) entry.2) ↔ _ :=
        ih entry hmem hinner fun hzero => (Node.nestsWithin_scalar hzero).mpr hinner
      rw [writable_entry entry.1 (writeValue_spells entry.2 (depth + 1)).1, hvalue]
      exact and_left_comm
  | floating d =>
      exact (writable_double hchars d).trans (and_iff_right (hscalar rfl)).symm
  | stringView s =>
      exact (writable_escaped s opts.ascii).trans (and_iff_right (hscalar rfl)).symm
  | stringOwned s =>
      exact (writable_escaped s opts.ascii).trans (and_iff_right (hscalar rfl)).symm
  | integer i => exact iff_of_true ⟨_, ConstJson.writes_writeInt i⟩ ⟨hscalar rfl, trivial⟩
  | null => exact iff_of_true (writable_append _) ⟨hscalar rfl, trivial⟩
  | boolean b => exact iff_of_true (writable_append _) ⟨hscalar rfl, trivial⟩

/-- The characters a line of the pretty form may be indented with. -/
def IndentFits (opts : DumpOptions) : Prop :=
  opts.pretty = true → opts.indentChar = ascii ' ' ∨ opts.indentChar = ascii '\t'

theorem dump_eq_ok {value : Node} {text : Bytes} : dump platform opts maxDepth value = .ok text ↔
    IndentFits opts ∧ Writes (writeValue platform opts maxDepth 0 value) text := by
  constructor
  · intro h
    refine ⟨fun hpretty => ?_, writes_of_dump h⟩
    by_contra hindent
    have hrejected : opts.pretty = true ∧ opts.indentChar ≠ ascii ' ' ∧ opts.indentChar ≠ ascii '\t' :=
      ⟨hpretty, not_or.mp hindent⟩
    rw [dump, dumpValueTo, if_pos hrejected] at h
    cases h
  · rintro ⟨hindent, hwrites⟩
    have haccepted : ¬(opts.pretty = true ∧ opts.indentChar ≠ ascii ' ' ∧ opts.indentChar ≠ ascii '\t') :=
      fun h => not_or.mpr h.2 (hindent h.1)
    rw [dump, dumpValueTo, if_neg haccepted, hwrites]
    rfl

/-- `dump` succeeds exactly on these trees. -/
theorem dump_succeeds_iff (hchars : ∀ d : Double, d.isFinite = true → ∃ buf, platform.toChars d = some buf)
    (value : Node) : (∃ text, dump platform opts maxDepth value = .ok text) ↔
      IndentFits opts ∧ (maxDepth = 0 ∨ value.nesting ≤ maxDepth) ∧ value.Representable opts.ascii := by
  have hwritable := @writable_value platform opts maxDepth hchars value 0 (.inr (Nat.zero_le _))
  rw [Node.NestsWithin, Nat.zero_add] at hwritable
  simp only [dump_eq_ok, exists_and_left]
  exact and_congr_right fun _ => hwritable

end Values

end Writer

end PjhJson
