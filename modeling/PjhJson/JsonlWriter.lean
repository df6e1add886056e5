import PjhJson.JsonlLines
import PjhJson.WriterRoundTrip

/-! `writer/jsonl.cpp`: the elements of an array, each on a line of its own. `dump_jsonl_impl` and
`dump_jsonl_to` stop at the first element that cannot be written, with its error, and `parse_jsonl` reads back
what they write. -/

namespace PjhJson

open Grammar Spelling

namespace Writer

section Lines

variable (platform : Platform) (maxDepth : Nat)

/-- The loop of `dump_jsonl_impl`: an element in the compact form, then the end of its line. -/
def writeLines : List Node → Prog Writer Unit
  | [] => pure ()
  | el :: arr => do
    dumpValueTo platform {} maxDepth el
    append [0x0A]
    writeLines arr

/-- `dump_jsonl_impl`: the text, or the error of the `JsonError`. -/
def dumpJsonl (arr : List Node) : Res Error Bytes :=
  match writeLines platform maxDepth arr {} with
  | .ok (_, w) => .ok w.sink
  | .error w => .error w.error
  | .stuck => .stuck

/-- `dump_jsonl_to`: each element has a `DumpState` of its own. An error comes with what the sink holds then. -/
def dumpJsonlTo (sink : Bytes) : List Node → Res (Bytes × Error) Bytes
  | [] => .ok sink
  | el :: arr =>
    match dumpValueTo platform {} maxDepth el { sink } with
    | .ok (_, w) => dumpJsonlTo (w.sink ++ [0x0A]) arr
    | .error w => .error (w.sink, w.error)
    | .stuck => .stuck

end Lines

/-! ### Programs that break off -/

/-- The program fails with this error, behind a text that does not depend on the sink. -/
def Breaks (program : Prog Writer Unit) (text : Bytes) (code : ErrorCode) : Prop :=
  ∀ sink, program { sink } = .error { sink := sink ++ text, error := { code, category := .json } }

/-- The program appends a text to any sink, or fails with the same error on any sink. -/
def Decided (program : Prog Writer Unit) : Prop := Writable program ∨ ∃ text code, Breaks program text code

section Rules

variable {program next : Prog Writer Unit}

theorem Writes.decided {text : Bytes} (h : Writes program text) : Decided program := .inl ⟨text, h⟩

theorem decided_fail (code : ErrorCode) : Decided (fail code) :=
  .inr ⟨[], code, fun sink => by rw [List.append_nil]; rfl⟩

theorem Decided.seq (h : Decided program) (h' : Decided next) : Decided (program >>= fun _ => next) := by
  rcases h with ⟨text, htext⟩ | ⟨text, code, hbreaks⟩
  · rcases h' with ⟨text', htext'⟩ | ⟨text', code, hbreaks⟩
    · exact (htext.seq htext').decided
    · refine .inr ⟨text ++ text', code, fun sink => ?_⟩
      rw [Prog.bind_of_ok (htext _), hbreaks, List.append_assoc]
  · exact .inr ⟨text, code, fun sink => Prog.bind_of_error (hbreaks sink) _⟩

end Rules

section Values

variable {platform : Platform} {opts : DumpOptions} {maxDepth : Nat}

theorem decided_items {items : List (Prog Writer Unit)} (depth : Nat) (first : Bool)
    (h : ∀ item ∈ items, Decided item) : Decided (writeItems opts depth first items) := by
  induction items generalizing first with
  | nil => exact writes_pure.decided
  | cons item items ih =>
      obtain ⟨hitem, hitems⟩ := List.forall_mem_cons.mp h
      have hcomma : Decided (writeComma first) := by
        cases first with
        | true => exact writes_pure.decided
        | false => exact (writes_append _).decided
      exact hcomma.seq ((writes_breakLine (depth + 1)).decided.seq (hitem.seq (ih false hitems)))

theorem decided_container {items : List (Prog Writer Unit)} (depth : Nat) (opening closing : UInt8)
    (h : ∀ item ∈ items, Decided item) : Decided (writeContainer opts depth opening closing items) := by
  unfold writeContainer
  split
  · exact (writes_append _).decided
  · exact (writes_append _).decided.seq ((decided_items depth true h).seq
      ((writes_breakLine depth).decided.seq (writes_append _).decided))

theorem decided_checkDepth {depth : Nat} {program : Prog Writer Unit} (h : Decided program) :
    Decided (checkDepth maxDepth depth program) := by
  unfold checkDepth
  split
  · exact decided_fail _
  · exact h

theorem decided_double (d : Double) : Decided (writeDouble platform d) := by
  unfold writeDouble
  split
  · exact decided_fail _
  · cases platform.toChars d with
    | none => exact decided_fail _
    | some buf =>
        refine (writes_append buf).decided.seq ?_
        split
        · exact (writes_append _).decided
        · exact writes_pure.decided

/-- Without the ASCII form, a value is written or fails in one way. -/
theorem decided_value (hascii : opts.ascii = false) (value : Node) (depth : Nat) :
    Decided (writeValue platform opts maxDepth depth value) := by
  have hescaped : ∀ s, Decided (writeEscapedImpl platform s opts.ascii) := fun s => by
    rw [hascii]
    exact (ConstJson.writes_quoted s).decided
  induction value using Node.induct generalizing depth with
  | null => exact (writes_append _).decided
  | boolean b => exact (writes_append _).decided
  | integer i => exact (ConstJson.writes_writeInt i).decided
  | floating d => exact decided_double d
  | stringView s => exact hescaped s
  | stringOwned s => exact hescaped s
  | array arr ih =>
      rw [writeValue_array]
      apply decided_checkDepth
      apply decided_container
      exact List.forall_mem_map.mpr fun value hmem => ih value hmem (depth + 1)
  | object self ih =>
      rw [writeValue_object]
      apply decided_checkDepth
      apply decided_container
      refine List.forall_mem_map.mpr fun entry hmem => ?_
      exact (hescaped entry.1).seq ((writes_append _).decided.seq
        (ih entry (mem_orderEntries.mp hmem) (depth + 1)))

/-- An element as `dump` returns it, and as the loop over the elements writes it. -/
theorem dump_cases (platform : Platform) (maxDepth : Nat) (value : Node) :
    (∃ line, dump platform {} maxDepth value = .ok line ∧ Writes (dumpValueTo platform {} maxDepth value) line) ∨
      ∃ text error, dump platform {} maxDepth value = .error error ∧ ∀ sink,
        dumpValueTo platform {} maxDepth value { sink } = .error { sink := sink ++ text, error } := by
  have hdecided : Decided (dumpValueTo platform {} maxDepth value) := decided_value rfl value 0
  rcases hdecided with ⟨line, hline⟩ | ⟨text, code, hbreaks⟩
  · exact .inl ⟨line, by rw [dump, hline]; rfl, hline⟩
  · exact .inr ⟨text, _, by rw [dump, hbreaks], hbreaks⟩

end Values

/-! ### The first failure -/

section FirstFailure

variable {platform : Platform} {maxDepth : Nat}

/-- The texts, each with the end of its line. -/
def linesText (lines : List Bytes) : Bytes := lines.flatMap fun line => line ++ [0x0A]

theorem linesText_cons (line : Bytes) (lines : List Bytes) :
    linesText (line :: lines) = line ++ [0x0A] ++ linesText lines := rfl

/-- Each element is dumped as its line. -/
abbrev DumpedAs (platform : Platform) (maxDepth : Nat) : List Node → List Bytes → Prop :=
  List.Forall₂ fun el line => dump platform {} maxDepth el = .ok line

/-- Both loops write all elements, or stop at the first one that cannot be written. -/
theorem writeLines_cases (arr : List Node) :
    (∃ lines, DumpedAs platform maxDepth arr lines ∧ ∀ sink,
      writeLines platform maxDepth arr { sink } = .ok ((), { sink := sink ++ linesText lines }) ∧
      dumpJsonlTo platform maxDepth sink arr = .ok (sink ++ linesText lines)) ∨
    ∃ before el after lines text error, arr = before ++ el :: after ∧ DumpedAs platform maxDepth before lines ∧
      dump platform {} maxDepth el = .error error ∧ ∀ sink,
        writeLines platform maxDepth arr { sink } =
          .error { sink := sink ++ (linesText lines ++ text), error } ∧
        dumpJsonlTo platform maxDepth sink arr = .error (sink ++ (linesText lines ++ text), error) := by
  induction arr with
  | nil =>
      refine .inl ⟨[], .nil, fun sink => ?_⟩
      rw [show linesText [] = [] from rfl, List.append_nil]
      exact ⟨rfl, rfl⟩
  | cons el arr ih =>
      rcases dump_cases platform maxDepth el with ⟨line, hdump, hline⟩ | ⟨text, error, hdump, herror⟩
      · have hwrite : ∀ sink, writeLines platform maxDepth (el :: arr) { sink } =
            writeLines platform maxDepth arr { sink := sink ++ (line ++ [0x0A]) } := by
          intro sink
          have happend : append [0x0A] ({ sink := sink ++ line } : Writer) =
              .ok ((), { sink := sink ++ line ++ [0x0A] }) := rfl
          rw [writeLines, Prog.bind_of_ok (hline _), Prog.bind_of_ok happend, List.append_assoc]
        have hto : ∀ sink, dumpJsonlTo platform maxDepth sink (el :: arr) =
            dumpJsonlTo platform maxDepth (sink ++ (line ++ [0x0A])) arr := by
          intro sink
          rw [dumpJsonlTo, hline, ← List.append_assoc]
        rcases ih with ⟨lines, hlines, hrest⟩ | ⟨before, el', after, lines, text, error, rfl, hlines, herror, hrest⟩
        · refine .inl ⟨line :: lines, .cons hdump hlines, fun sink => ?_⟩
          have hmore := hrest (sink ++ (line ++ [0x0A]))
          rw [List.append_assoc] at hmore
          rw [hwrite, hto, linesText_cons]
          exact hmore
        · refine .inr ⟨el :: before, el', after, line :: lines, text, error, rfl, .cons hdump hlines, herror,
            fun sink => ?_⟩
          have hmore := hrest (sink ++ (line ++ [0x0A]))
          rw [List.append_assoc] at hmore
          rw [hwrite, hto, linesText_cons, List.append_assoc (line ++ [0x0A])]
          exact hmore
      · refine .inr ⟨[], el, arr, [], text, error, rfl, .nil, hdump, fun sink => ?_⟩
        have hnone : linesText [] ++ text = text := rfl
        rw [hnone]
        constructor
        · rw [writeLines, Prog.bind_of_error (herror sink)]
        · rw [dumpJsonlTo, herror]

theorem DumpedAs.unique {arr : List Node} {lines lines' : List Bytes} (h : DumpedAs platform maxDepth arr lines)
    (h' : DumpedAs platform maxDepth arr lines') : lines = lines' :=
  List.right_unique_forall₂' (fun _ _ _ hline hline' => Res.ok.inj (hline.symm.trans hline')) h h'

/-- The first failure of a list is one failure: nothing in front of it fails. -/
theorem first_error_unique {before before' after after' : List Node} {el el' : Node} {error error' : Error}
    (heq : before ++ el :: after = before' ++ el' :: after')
    (h : ∀ value ∈ before, ∃ line, dump platform {} maxDepth value = .ok line)
    (h' : ∀ value ∈ before', ∃ line, dump platform {} maxDepth value = .ok line)
    (herror : dump platform {} maxDepth el = .error error)
    (herror' : dump platform {} maxDepth el' = .error error') : error = error' := by
  induction before generalizing before' with
  | nil =>
      cases before' with
      | nil =>
          obtain rfl := (List.cons.inj heq).1
          exact Res.error.inj (herror.symm.trans herror')
      | cons value before' =>
          obtain ⟨line, hline⟩ := h' value List.mem_cons_self
          rw [(List.cons.inj heq).1, hline] at herror
          cases herror
  | cons value before ih =>
      cases before' with
      | nil =>
          obtain ⟨line, hline⟩ := h value List.mem_cons_self
          rw [← (List.cons.inj heq).1, hline] at herror'
          cases herror'
      | cons value' before' =>
          exact ih (List.cons.inj heq).2 (List.forall_mem_cons.mp h).2 (List.forall_mem_cons.mp h').2

/-- The two functions on an array. -/
theorem dumpJsonl_cases (platform : Platform) (maxDepth : Nat) (arr : List Node) :
    (∃ lines, DumpedAs platform maxDepth arr lines ∧ dumpJsonl platform maxDepth arr = .ok (linesText lines) ∧
      ∀ sink, dumpJsonlTo platform maxDepth sink arr = .ok (sink ++ linesText lines)) ∨
    ∃ before el after written error, arr = before ++ el :: after ∧
      (∀ value ∈ before, ∃ line, dump platform {} maxDepth value = .ok line) ∧
      dump platform {} maxDepth el = .error error ∧ dumpJsonl platform maxDepth arr = .error error ∧
      ∀ sink, dumpJsonlTo platform maxDepth sink arr = .error (sink ++ written, error) := by
  rcases @writeLines_cases platform maxDepth arr with ⟨lines, hlines, hruns⟩ |
    ⟨before, el, after, lines, text, error, harr, hlines, herror, hruns⟩
  · refine .inl ⟨lines, hlines, ?_, fun sink => (hruns sink).2⟩
    rw [dumpJsonl, (hruns []).1]
    rfl
  · refine .inr ⟨before, el, after, _, error, harr, exists_of_forall₂ hlines, herror, ?_,
      fun sink => (hruns sink).2⟩
    rw [dumpJsonl, (hruns []).1]

theorem not_dumpedAs {before after : List Node} {el : Node} {error : Error} {lines : List Bytes}
    (herror : dump platform {} maxDepth el = .error error) :
    ¬DumpedAs platform maxDepth (before ++ el :: after) lines := by
  intro hlines
  obtain ⟨line, hline⟩ := exists_of_forall₂ hlines el (List.mem_append_right before List.mem_cons_self)
  rw [hline] at herror
  cases herror

theorem dumpJsonl_eq_ok {arr : List Node} {text : Bytes} : dumpJsonl platform maxDepth arr = .ok text ↔
    ∃ lines, DumpedAs platform maxDepth arr lines ∧ text = linesText lines := by
  rcases dumpJsonl_cases platform maxDepth arr with ⟨lines, hlines, hdump, -⟩ |
    ⟨before, el, after, written, error, rfl, -, herror, hdump, -⟩
  · rw [hdump]
    constructor
    · intro h
      exact ⟨lines, hlines, (Res.ok.inj h).symm⟩
    · rintro ⟨lines', hlines', rfl⟩
      rw [hlines.unique hlines']
  · rw [hdump]
    refine iff_of_false (fun h => by cases h) ?_
    rintro ⟨lines, hlines, -⟩
    exact not_dumpedAs herror hlines

theorem dumpJsonl_eq_error {arr : List Node} {error : Error} : dumpJsonl platform maxDepth arr = .error error ↔
    ∃ before el after, arr = before ++ el :: after ∧
      (∀ value ∈ before, ∃ line, dump platform {} maxDepth value = .ok line) ∧
        dump platform {} maxDepth el = .error error := by
  rcases dumpJsonl_cases platform maxDepth arr with ⟨lines, hlines, hdump, -⟩ |
    ⟨before, el, after, written, first, rfl, hbefore, herror, hdump, -⟩
  · rw [hdump]
    refine iff_of_false (fun h => by cases h) ?_
    rintro ⟨before, el, after, rfl, -, herror⟩
    exact not_dumpedAs herror hlines
  · rw [hdump]
    constructor
    · intro h
      exact ⟨before, el, after, rfl, hbefore, Res.error.inj h ▸ herror⟩
    · rintro ⟨before', el', after', heq, hbefore', herror'⟩
      rw [first_error_unique heq hbefore hbefore' herror herror']

/-- `dump_jsonl` and `dump_jsonl_to` on any array and any sink: both succeed with one line for each element when
every element is dumped by itself, and otherwise fail with the error of the first element that is not, however
the elements behind it would end. What was in the sink stays in front of what is written. -/
theorem dumpJsonl_firstFailure (platform : Platform) (maxDepth : Nat) (arr : List Node) (sink : Bytes) :
    (∀ text, dumpJsonl platform maxDepth arr = .ok text ↔
      ∃ lines, DumpedAs platform maxDepth arr lines ∧ text = linesText lines) ∧
    (∀ error, dumpJsonl platform maxDepth arr = .error error ↔ ∃ before el after, arr = before ++ el :: after ∧
      (∀ value ∈ before, ∃ line, dump platform {} maxDepth value = .ok line) ∧
        dump platform {} maxDepth el = .error error) ∧
    ((∃ text, dumpJsonl platform maxDepth arr = .ok text ∧
        dumpJsonlTo platform maxDepth sink arr = .ok (sink ++ text)) ∨
      ∃ written error, dumpJsonl platform maxDepth arr = .error error ∧
        dumpJsonlTo platform maxDepth sink arr = .error (sink ++ written, error)) := by
  refine ⟨fun text => dumpJsonl_eq_ok, fun error => dumpJsonl_eq_error, ?_⟩
  rcases dumpJsonl_cases platform maxDepth arr with ⟨lines, -, hdump, hto⟩ |
    ⟨-, -, -, written, error, -, -, -, hdump, hto⟩
  · exact .inl ⟨linesText lines, hdump, hto sink⟩
  · exact .inr ⟨written, error, hdump, hto sink⟩

end FirstFailure

/-! ### Reading the lines back -/

section RoundTrip

variable {platform : Platform} {maxDepth : Nat}

/-- The bytes of a container that has no line breaks in it. -/
theorem printable_container {α : Type} {program : α → Prog Writer Unit} {items : List α} {depth : Nat}
    {opening closing : UInt8} {text : Bytes} (hopening : ¬opening < 0x20) (hclosing : ¬closing < 0x20)
    (h : ContainerForm {} depth opening closing (items.map program) text)
    (hitem : ∀ a ∈ items, ∀ text, Writes (program a) text → ∀ c ∈ text, ¬c < 0x20) : ∀ c ∈ text, ¬c < 0x20 := by
  have hshown : ∀ a ∈ items, ∀ text, Writes (program a) text → ∃ _ : Unit, (∀ c ∈ text, ¬c < 0x20) ∧ True :=
    fun a hmem text htext => ⟨(), hitem a hmem text htext, trivial⟩
  obtain ⟨-, rfl⟩ | ⟨first, texts, -, units, hfirst, htexts, -, rfl⟩ := container_denoted h hshown
  · exact List.forall_mem_cons.mpr ⟨hopening, List.forall_mem_singleton.mpr hclosing⟩
  · have hbreak : ∀ depth, lineBreak {} depth = [] := fun _ => rfl
    have hrest : ∀ c ∈ separated (separator {} depth) texts, ¬c < 0x20 := by
      intro c hc
      obtain ⟨text, hmem, hc⟩ := List.mem_flatMap.mp hc
      rw [separator, hbreak] at hc
      rcases List.mem_cons.mp hc with rfl | hc
      · decide
      · obtain ⟨_, htext⟩ := exists_of_forall₂ htexts text hmem
        exact htext c hc
    rw [hbreak, hbreak, List.append_nil, List.nil_append]
    simp only [List.forall_mem_cons, List.forall_mem_append, List.mem_singleton, forall_eq]
    exact ⟨hopening, ⟨hfirst, hrest⟩, hclosing⟩

theorem stringToken_printable {token value : Bytes} (h : Rfc.StringToken token value) : ∀ c ∈ token, ¬c < 0x20 := by
  obtain ⟨content, value, hcontent⟩ := h
  refine List.forall_mem_cons.mpr ⟨by decide, List.forall_mem_append.mpr ⟨characters_printable hcontent, ?_⟩⟩
  exact List.forall_mem_singleton.mpr (by decide)

theorem scalar_printable {text : Bytes} (h : ∀ c ∈ text, isScalarByte c = true) : ∀ c ∈ text, ¬c < 0x20 := by
  intro c hc
  have hbyte := (Bool.and_eq_true_iff.mp (h c hc)).2
  simpa using hbyte

/-- The compact text of a value has no control byte in it, so it does not end a line. -/
theorem printable_value (hnumbers : NumbersReturn platform) {value : Node} {depth : Nat} {text : Bytes}
    (h : Writes (writeValue platform {} maxDepth depth value) text) : ∀ c ∈ text, ¬c < 0x20 := by
  have hform := (writeValue_spells value depth).2 text h
  induction value using Node.induct generalizing depth text with
  | null => exact hform ▸ scalar_printable (literal_scalar (.inl rfl))
  | boolean b =>
      cases b with
      | false => exact hform ▸ scalar_printable (literal_scalar (.inr (.inr rfl)))
      | true => exact hform ▸ scalar_printable (literal_scalar (.inr (.inl rfl)))
  | integer i =>
      have htext : text = (Rfc.integerParts i.toInt).text := hform.trans (Rfc.text_integerParts i).symm
      exact htext ▸ scalar_printable (number_scalar _)
  | floating d =>
      obtain ⟨hfinite, buf, hbuf, rfl⟩ := hform
      have hnumber := (numberValue_double hnumbers hfinite hbuf).1
      generalize doubleText buf = text at hnumber ⊢
      cases hnumber with
      | double parts _ _ _ _ => exact scalar_printable (number_scalar parts)
  | stringView s => exact stringToken_printable hform
  | stringOwned s => exact stringToken_printable hform
  | array arr ih =>
      refine printable_container (by decide) (by decide) hform fun el hmem text htext => ?_
      exact ih el hmem htext ((writeValue_spells el (depth + 1)).2 text htext)
  | object self ih =>
      refine printable_container (by decide) (by decide) hform fun entry hmem text htext => ?_
      obtain ⟨token, shown, htoken, hshown, rfl⟩ :=
        (writeEntry_spells entry.1 (writeValue_spells entry.2 (depth + 1)).1).2 text htext
      have hvalue := ih entry (mem_orderEntries.mp hmem) hshown
        ((writeValue_spells entry.2 (depth + 1)).2 shown hshown)
      have hcolon : ∀ c ∈ asciiBytes ":", ¬c < 0x20 := List.forall_mem_singleton.mpr (by decide)
      exact List.forall_mem_append.mpr ⟨stringToken_printable htoken,
        List.forall_mem_append.mpr ⟨hcolon, hvalue⟩⟩

/-- Lines that are not blank and have no control bytes are the lines of their text. -/
theorem linesOf_linesText {cfg : Config} {lines : List Bytes}
    (h : ∀ line ∈ lines, (∀ c ∈ line, ¬c < 0x20) ∧ isBlankLine cfg line = false) :
    Reading.linesOf cfg (linesText lines) = lines := by
  induction lines with
  | nil => exact Reading.linesOf_nil
  | cons line lines ih =>
      obtain ⟨⟨hline, hblank⟩, hlines⟩ := List.forall_mem_cons.mp h
      have hkeep : ∀ c ∈ line, (c != 0x0A) = true := fun c hc =>
        bne_iff_ne.mpr fun heq => hline c hc (heq ▸ by decide)
      have htext : linesText (line :: lines) = line ++ 0x0A :: linesText lines := by
        rw [linesText_cons, List.append_assoc]
        rfl
      have htake : (line ++ 0x0A :: linesText lines).takeWhile (· != 0x0A) = line := by
        rw [List.takeWhile_append_of_pos hkeep]
        exact List.append_nil line
      have hdrop : (line ++ 0x0A :: linesText lines).dropWhile (· != 0x0A) = 0x0A :: linesText lines :=
        List.dropWhile_append_of_pos hkeep
      have hreturn : line.getLast? ≠ some 0x0D := fun hlast =>
        hline 0x0D (List.mem_of_getLast? hlast) (by decide)
      have hfirst : Reading.lineOf (line ++ 0x0A :: linesText lines) = line := by
        rw [Reading.lineOf, htake, Reading.withoutReturn, if_neg hreturn]
      have hafter : Reading.linesAfter (line ++ 0x0A :: linesText lines) = linesText lines := by
        rw [Reading.linesAfter, hdrop]
        rfl
      rw [htext, Reading.linesOf_eq, hfirst, hafter, hblank, if_neg Bool.false_ne_true, ih hlines]

/-- A line that `dump` returned is not blank. -/
theorem not_blank_value {cfg : Config} (hjson5 : cfg.json5 = false) {line : Bytes} {value : Ast}
    (h : Rfc.Value line value) : isBlankLine cfg line = false := by
  obtain ⟨c, more, rfl, hc, -⟩ := Reading.value_start h
  rw [isBlankLine, hjson5, if_neg Bool.false_ne_true, List.all_cons, hc, Bool.false_and]

/-- Which arrays of trees without repeated keys `dump_jsonl` writes, and that `parse_jsonl` reads the lines back
as an array of the same trees. -/
theorem dumpJsonl_parseJsonl (hnumbers : NumbersReturn platform) (maxDepth : Nat) {arr : List Node}
    (harr : ∀ el ∈ arr, el.NoDuplicates) :
    ((∃ text, dumpJsonl platform maxDepth arr = .ok text) ↔
      ∀ el ∈ arr, (maxDepth = 0 ∨ el.nesting ≤ maxDepth) ∧ el.Representable false) ∧
    ∀ text, dumpJsonl platform maxDepth arr = .ok text → paddedFits text.length = true →
      ∀ limit, (∀ el ∈ arr, limit = 0 ∨ el.nesting ≤ limit) →
        ∃ document, parseJsonl platform { maxDepth := limit } text = .ok document ∧
          document.tree = .array (arr.map Node.tree) := by
  have hindent : IndentFits {} := fun hpretty => absurd hpretty Bool.false_ne_true
  constructor
  · have hel : ∀ el, (∃ line, dump platform {} maxDepth el = .ok line) ↔
        (maxDepth = 0 ∨ el.nesting ≤ maxDepth) ∧ el.Representable false := fun el =>
      (@dump_succeeds_iff platform {} maxDepth hnumbers.written el).trans (and_iff_right hindent)
    constructor
    · rintro ⟨text, htext⟩ el hmem
      obtain ⟨lines, hlines, -⟩ := dumpJsonl_eq_ok.mp htext
      exact (hel el).mp (exists_of_forall₂ hlines el hmem)
    · intro hall
      obtain ⟨lines, hlines⟩ : ∃ lines, DumpedAs platform maxDepth arr lines := by
        clear harr
        induction arr with
        | nil => exact ⟨[], .nil⟩
        | cons el arr ih =>
            obtain ⟨hfirst, hrest⟩ := List.forall_mem_cons.mp hall
            obtain ⟨line, hline⟩ := (hel el).mpr hfirst
            obtain ⟨lines, hlines⟩ := ih hrest
            exact ⟨line :: lines, .cons hline hlines⟩
      exact ⟨_, dumpJsonl_eq_ok.mpr ⟨lines, hlines, rfl⟩⟩
  · intro text htext hfits limit hlimit
    obtain ⟨lines, hlines, rfl⟩ := dumpJsonl_eq_ok.mp htext
    have hshown : ∀ line ∈ lines, (∀ c ∈ line, ¬c < 0x20) ∧ isBlankLine { maxDepth := limit } line = false := by
      intro line hmem
      obtain ⟨el, hel, hdump⟩ := Node.exists_of_forall₂ hlines line hmem
      have hwrites := writes_of_dump hdump
      have hnests : el.NestsWithin limit 0 := by
        rw [Node.NestsWithin, Nat.zero_add]
        exact hlimit el hel
      obtain ⟨ast, hast, -⟩ := restores_of_writes hnumbers hindent (harr el hel) hnests (.inr (Nat.zero_le _)) hwrites
      exact ⟨printable_value hnumbers hwrites, not_blank_value rfl hast⟩
    have hsplit := linesOf_linesText hshown
    have hline : ∀ line ∈ lines, paddedFits line.length = true := by
      intro line hmem
      have hle := Reading.length_of_mem_linesOf (hsplit ▸ hmem : line ∈ Reading.linesOf { maxDepth := limit } _)
      rw [paddedFits, decide_eq_true_iff] at hfits ⊢
      exact hle.trans hfits
    refine parsesLines_iff_lines.mpr ⟨hfits, ?_⟩
    have hstart : Reading.dropBom { maxDepth := limit } (linesText lines) = linesText lines := rfl
    rw [hstart, hsplit, List.forall₂_map_right_iff]
    have helements : List.Forall₂ (fun el line => el ∈ arr ∧ dump platform {} maxDepth el = .ok line) arr lines :=
      (List.forall₂_and_left arr lines).mpr ⟨fun _ hmem => hmem, hlines⟩
    have hboth := (List.forall₂_and_left lines arr).mpr ⟨hline, helements.flip⟩
    refine hboth.imp ?_
    rintro line el ⟨hlength, hel, hdump⟩
    obtain ⟨document, hparse, htree⟩ := parseCopy_of_dump hnumbers (harr el hel) hdump hlength (hlimit el hel)
    exact ⟨document, hparse, htree.trans (Node.written_unsorted rfl el)⟩

/-- The lines `0.5` and `[null]`. -/
theorem dumpJsonl_parseJsonl_two : ∃ document, parseJsonl bitsPlatform { maxDepth := 1 }
      (asciiBytes "0.5\n[null]\n") = .ok document ∧
    document.tree = .array [.double ⟨0x3FE0000000000000⟩, .array [.null]] := by
  have hdump : dumpJsonl bitsPlatform 1 [.floating ⟨0x3FE0000000000000⟩, .array [.null]] =
      .ok (asciiBytes "0.5\n[null]\n") := rfl
  have harr : ∀ el ∈ [Node.floating ⟨0x3FE0000000000000⟩, .array [.null]], el.NoDuplicates := by
    simp [Node.NoDuplicates, Node.All, Node.AllElements]
  have hlimit : ∀ el ∈ [Node.floating ⟨0x3FE0000000000000⟩, .array [.null]], 1 = 0 ∨ el.nesting ≤ 1 := by
    simp [Node.nesting, Node.nestingElements]
  exact (dumpJsonl_parseJsonl bitsPlatform_returns 1 harr).2 _ hdump (by decide) 1 hlimit

end RoundTrip

end Writer

end PjhJson
