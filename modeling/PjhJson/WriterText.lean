import PjhJson.LibSpelling
import PjhJson.WriterAscii
import PjhJson.WriterValue

/-! What the programs of the writer append. A program that does not fail appends one text, whatever is
in the sink; the text of a container is put together from the texts of its items. -/

namespace PjhJson

open Grammar

namespace Writer

/-- The program appends this text to any sink. -/
def Writes (program : Prog Writer Unit) (text : Bytes) : Prop :=
  ∀ w, program w = .ok ((), { w with sink := w.sink ++ text })

/-- Whether the program succeeds, and the text it appends, do not depend on the sink. -/
def Settled (program : Prog Writer Unit) : Prop :=
  (∃ text, Writes program text) ∨ ∀ w pair, program w ≠ .ok pair

section Rules

variable {program next : Prog Writer Unit} {text text' : Bytes}

theorem Writes.unique (h : Writes program text) (h' : Writes program text') : text = text' := by
  have heq := (h {}).symm.trans (h' {})
  simpa using heq

theorem writes_append (text : Bytes) : Writes (append text) text := fun _ => rfl

theorem writes_pure : Writes (pure ()) [] := fun w => by simp

theorem Writes.seq (h : Writes program text) (h' : Writes next text') :
    Writes (program >>= fun _ => next) (text ++ text') := by
  intro w
  rw [Prog.bind_of_ok (h w), h', List.append_assoc]

theorem Writes.settled (h : Writes program text) : Settled program := .inl ⟨text, h⟩

/-- A program that succeeds once appends a text to any sink. -/
theorem Settled.writes {w : Writer} {pair : Unit × Writer} (h : Settled program)
    (hrun : program w = .ok pair) :
    ∃ text, Writes program text ∧ pair.2 = { w with sink := w.sink ++ text } := by
  rcases h with ⟨text, htext⟩ | hnever
  · refine ⟨text, htext, ?_⟩
    rw [htext w] at hrun
    exact (congrArg Prod.snd (Res.ok.inj hrun)).symm
  · exact absurd hrun (hnever w pair)

theorem Settled.seq (h : Settled program) (h' : Settled next) :
    Settled (program >>= fun _ => next) := by
  rcases h with ⟨text, htext⟩ | hnever
  · rcases h' with ⟨text', htext'⟩ | hnever
    · exact .inl ⟨_, htext.seq htext'⟩
    · refine .inr fun w pair hrun => ?_
      rw [Prog.bind_of_ok (htext w)] at hrun
      exact hnever _ _ hrun
  · refine .inr fun w pair hrun => ?_
    rw [Prog.bind_apply, Res.bind_eq_ok] at hrun
    obtain ⟨middle, hfirst, -⟩ := hrun
    exact hnever w middle hfirst

end Rules

/-- The program is settled, and its text has this form. -/
def Spells (program : Prog Writer Unit) (form : Bytes → Prop) : Prop :=
  Settled program ∧ ∀ text, Writes program text → form text

section Forms

variable {program next : Prog Writer Unit} {form form' : Bytes → Prop}

theorem Writes.spells {text : Bytes} (h : Writes program text) : Spells program (· = text) :=
  ⟨h.settled, fun _ htext => htext.unique h⟩

theorem Settled.spells (h : Settled program) : Spells program (Writes program) := ⟨h, fun _ => id⟩

theorem spells_append (text : Bytes) : Spells (append text) (· = text) := (writes_append text).spells

theorem spells_fail (code : ErrorCode) : Spells (fail code) form := by
  have hnever : ∀ w pair, (fail code : Prog Writer Unit) w ≠ .ok pair := fun _ _ h => by cases h
  exact ⟨.inr hnever, fun text htext => absurd (htext {}) (hnever _ _)⟩

theorem Spells.mono (h : Spells program form) (himp : ∀ text, form text → form' text) :
    Spells program form' := ⟨h.1, fun text htext => himp text (h.2 text htext)⟩

/-- The text of a sequence is put together from the texts of its parts. -/
theorem Spells.seq (h : Spells program form) (h' : Spells next form') :
    Spells (program >>= fun _ => next)
      fun text => ∃ first rest, form first ∧ form' rest ∧ text = first ++ rest := by
  refine ⟨h.1.seq h'.1, fun text hseq => ?_⟩
  have hrun := hseq {}
  rw [Prog.bind_apply, Res.bind_eq_ok] at hrun
  obtain ⟨middle, hfirst, hrest⟩ := hrun
  obtain ⟨first, hfirst, -⟩ := h.1.writes hfirst
  obtain ⟨rest, hrest, -⟩ := h'.1.writes hrest
  exact ⟨first, rest, h.2 first hfirst, h'.2 rest hrest, hseq.unique (hfirst.seq hrest)⟩

theorem spells_ite {c : Prop} [Decidable c] (h : Spells program form) (h' : Spells next form) :
    Spells (if c then program else next) form := by
  split
  · exact h
  · exact h'

end Forms

/-! ### Strings -/

/-- The escaped form of any byte is a character of RFC 8259. -/
theorem character_esc (b : UInt8) : Rfc.Character (esc b) [b] := by
  by_cases hb : b < 0x80
  · exact (esc_character hb).2
  · have hle : 0x80 ≤ b := UInt8.not_lt.mp hb
    have hne : ∀ other : UInt8, other < 0x80 → b ≠ other := fun other hother heq =>
      UInt8.not_lt.mpr hle (heq ▸ hother)
    have hcontrol : ¬b < 0x20 := fun hlt => hb (UInt8.lt_trans hlt (by decide))
    have hplain : needsEscape b = false := by
      simp [needsEscape, hcontrol, hne (ascii '"') (by decide), hne (ascii '\\') (by decide)]
    rw [esc_plain hplain]
    exact .unescaped b (UInt8.not_lt.mp hcontrol) (hne _ (by decide)) (hne _ (by decide))

theorem characters_esc (s : Bytes) : Rfc.Characters (s.flatMap esc) s := by
  induction s with
  | nil => exact .nil
  | cons b s ih => exact .cons _ _ _ _ (character_esc b) ih

/-- A string is written as a string token of RFC 8259 that stands for it. -/
theorem writeEscapedImpl_spells (platform : Platform) (s : Bytes) (ascii : Bool) :
    Spells (writeEscapedImpl platform s ascii) fun text => Rfc.StringToken text s := by
  cases ascii with
  | false =>
      have hwrites : Writes (writeEscapedImpl platform s false)
          (PjhJson.ascii '"' :: (s.flatMap esc ++ [PjhJson.ascii '"'])) := writeEscapedImpl_eq platform s
      refine hwrites.spells.mono fun text htext => ?_
      rw [htext]
      exact .mk _ _ (characters_esc s)
  | true =>
      have hbody : Spells (writeEscapedAscii (s.length + 1) s) fun text => Rfc.Characters text s := by
        by_cases hchars : ∃ chars : List Char, s = chars.flatMap String.utf8EncodeChar
        · obtain ⟨chars, rfl⟩ := hchars
          have hwrites : Writes _ _ := writeEscapedAscii_chars chars (Nat.lt_succ_self _)
          exact hwrites.spells.mono fun text htext => htext ▸ (asciiForm_characters chars).2
        · have hnever : ∀ w pair, writeEscapedAscii (s.length + 1) s w ≠ .ok pair :=
            fun w pair hrun => hchars (@chars_of_writeEscapedAscii _ _ _ pair.2 hrun)
          exact ⟨.inr hnever, fun text htext => absurd (htext {}) (hnever {} _)⟩
      refine ((spells_append _).seq (hbody.seq (spells_append _))).mono ?_
      rintro text ⟨_, _, rfl, ⟨content, _, hcontent, rfl, rfl⟩, rfl⟩
      exact .mk content s hcontent

/-- What a string token stands for, and where it ends, can be read off any text that begins with it. -/
theorem stringToken_inj {x y v v' s t : Bytes} (hx : Rfc.StringToken x v) (hy : Rfc.StringToken y v')
    (h : x ++ s = y ++ t) : v = v' ∧ s = t := by
  obtain ⟨content, v, hcontent⟩ := hx
  obtain ⟨content', v', hcontent'⟩ := hy
  rw [List.cons_append, List.cons_append, List.append_assoc, List.append_assoc,
    List.singleton_append, List.singleton_append] at h
  have hread := decodeLiteral_quote hcontent s
  have hread' := decodeLiteral_quote hcontent' t
  rw [(List.cons.inj h).2, hread'] at hread
  cases hread
  exact ⟨rfl, rfl⟩

/-! ### Containers -/

section Containers

variable {opts : DumpOptions}

/-- The text of `breakLine`. -/
def lineBreak (opts : DumpOptions) (depth : Nat) : Bytes :=
  if opts.pretty then 0x0A :: List.replicate (opts.indent.toNat * depth) opts.indentChar else []

theorem writes_breakLine (depth : Nat) : Writes (breakLine opts depth) (lineBreak opts depth) := by
  unfold breakLine lineBreak
  split
  · exact (writes_append [0x0A]).seq (writes_append _)
  · exact writes_pure

theorem spells_breakLine (opts : DumpOptions) (depth : Nat) :
    Spells (breakLine opts depth) (· = lineBreak opts depth) := (writes_breakLine depth).spells

/-- What stands in front of each item but the first. -/
def separator (opts : DumpOptions) (depth : Nat) : Bytes := ascii ',' :: lineBreak opts (depth + 1)

theorem writeItems_spells (depth : Nat) {items : List (Prog Writer Unit)}
    (h : ∀ item ∈ items, Settled item) : Spells (writeItems opts depth false items) fun text =>
      ∃ texts, List.Forall₂ Writes items texts ∧
        text = Spelling.separated (separator opts depth) texts := by
  induction items with
  | nil => exact writes_pure.spells.mono fun text htext => ⟨[], .nil, htext⟩
  | cons item items ih =>
      obtain ⟨hitem, hitems⟩ := List.forall_mem_cons.mp h
      have hcomma : Spells (writeComma false) (· = [ascii ',']) := spells_append _
      refine (hcomma.seq ((spells_breakLine opts (depth + 1)).seq
        (hitem.spells.seq (ih hitems)))).mono ?_
      rintro text ⟨_, _, rfl, ⟨_, _, rfl, ⟨first, _, hfirst, ⟨texts, hall, rfl⟩, rfl⟩, rfl⟩, rfl⟩
      refine ⟨first :: texts, .cons hfirst hall, ?_⟩
      rw [Spelling.separated, Spelling.separated, List.flatMap_cons, separator, List.append_assoc]
      rfl

/-- The text of a container: its brackets, or its items with the separators between them. -/
def ContainerForm (opts : DumpOptions) (depth : Nat) (opening closing : UInt8)
    (items : List (Prog Writer Unit)) (text : Bytes) : Prop :=
  (items = [] ∧ text = [opening, closing]) ∨
  ∃ item rest first texts, items = item :: rest ∧ Writes item first ∧
    List.Forall₂ Writes rest texts ∧
    text = opening :: (lineBreak opts (depth + 1) ++ (first ++
      (Spelling.separated (separator opts depth) texts ++ (lineBreak opts depth ++ [closing]))))

theorem writeContainer_spells (depth : Nat) (opening closing : UInt8)
    {items : List (Prog Writer Unit)} (h : ∀ item ∈ items, Settled item) :
    Spells (writeContainer opts depth opening closing items)
      (ContainerForm opts depth opening closing items) := by
  cases items with
  | nil => exact (spells_append _).mono fun text htext => .inl ⟨rfl, htext⟩
  | cons item items =>
      obtain ⟨hitem, hitems⟩ := List.forall_mem_cons.mp h
      have hcomma : Spells (writeComma true) (· = []) := writes_pure.spells
      have hitems := hcomma.seq ((spells_breakLine opts (depth + 1)).seq
        (hitem.spells.seq (@writeItems_spells opts depth _ hitems)))
      refine ((spells_append _).seq (hitems.seq
        ((spells_breakLine opts depth).seq (spells_append _)))).mono ?_
      rintro text ⟨_, _, rfl, ⟨_, _, ⟨_, _, rfl, ⟨_, _, rfl, ⟨first, _, hfirst, ⟨texts, hall, rfl⟩,
        rfl⟩, rfl⟩, rfl⟩, ⟨_, _, rfl, rfl, rfl⟩, rfl⟩, rfl⟩
      refine .inr ⟨item, items, first, texts, rfl, hfirst, hall, ?_⟩
      rw [List.nil_append, List.append_assoc, List.append_assoc]
      rfl

end Containers

/-! ### Values -/

section Values

variable {platform : Platform} {opts : DumpOptions} {maxDepth : Nat}

/-- The text of a double: a point is added if `to_chars` writes none. -/
def doubleText (buf : Bytes) : Bytes := if hasPoint buf then buf else buf ++ asciiBytes ".0"

theorem writeDouble_spells (d : Double) : Spells (writeDouble platform d) fun text =>
    d.isFinite = true ∧ ∃ buf, platform.toChars d = some buf ∧ text = doubleText buf := by
  unfold writeDouble
  cases hfinite : d.isFinite with
  | false => exact spells_fail _
  | true =>
      cases platform.toChars d with
      | none => exact spells_fail _
      | some buf =>
          have hpoint : Spells (if !hasPoint buf then append (asciiBytes ".0") else pure ())
              fun text => buf ++ text = doubleText buf := by
            unfold doubleText
            cases hasPoint buf with
            | true => exact writes_pure.spells.mono fun text htext => by rw [htext]; simp
            | false => exact (spells_append _).mono fun text htext => by rw [htext]; rfl
          refine ((spells_append buf).seq hpoint).mono ?_
          rintro text ⟨_, rest, hbuf, hrest, rfl⟩
          rw [hbuf]
          exact ⟨rfl, buf, rfl, hrest⟩

/-- The text of a value that is written at this depth. -/
def ValueForm (platform : Platform) (opts : DumpOptions) (maxDepth depth : Nat) :
    Node → Bytes → Prop
  | .null, text => text = asciiBytes "null"
  | .boolean b, text => text = asciiBytes (if b then "true" else "false")
  | .integer i, text => text = int64Text i
  | .floating d, text => d.isFinite = true ∧
      ∃ buf, platform.toChars d = some buf ∧ text = doubleText buf
  | .stringView s, text => Rfc.StringToken text s
  | .stringOwned s, text => Rfc.StringToken text s
  | .array arr, text => ContainerForm opts depth (ascii '[') (ascii ']')
      (arr.map (writeValue platform opts maxDepth (depth + 1))) text
  | .object self, text => ContainerForm opts depth (ascii '\x7b') (ascii '\x7d')
      ((orderEntries opts self.data).map fun entry => writeEntry platform opts
        (entry.1, writeValue platform opts maxDepth (depth + 1) entry.2)) text

theorem checkDepth_spells {depth : Nat} {program : Prog Writer Unit} {form : Bytes → Prop}
    (h : Spells program form) : Spells (checkDepth maxDepth depth program) form :=
  spells_ite (spells_fail _) h

/-- An entry: a string token for its key, the colon, and the text of its value. -/
theorem writeEntry_spells (key : Bytes) {program : Prog Writer Unit} (h : Settled program) :
    Spells (writeEntry platform opts (key, program)) fun text => ∃ token value,
      Rfc.StringToken token key ∧ Writes program value ∧
        text = token ++ (asciiBytes (if opts.pretty then ": " else ":") ++ value) := by
  refine ((writeEscapedImpl_spells platform key opts.ascii).seq
    ((spells_append _).seq h.spells)).mono ?_
  rintro text ⟨token, _, htoken, ⟨_, value, rfl, hvalue, rfl⟩, rfl⟩
  exact ⟨token, value, htoken, hvalue, rfl⟩

theorem mem_orderEntries {ν : Type} {entry : Bytes × ν} {entries : List (Bytes × ν)} :
    entry ∈ orderEntries opts entries ↔ entry ∈ entries := by
  unfold orderEntries
  split
  · exact Node.mem_sortByKey
  · rfl

theorem writeValue_spells (value : Node) (depth : Nat) :
    Spells (writeValue platform opts maxDepth depth value)
      (ValueForm platform opts maxDepth depth value) := by
  induction value using Node.induct generalizing depth with
  | null => exact spells_append _
  | boolean b => exact spells_append _
  | integer i => exact spells_ite (spells_fail _) (spells_append _)
  | floating d => exact writeDouble_spells d
  | stringView s => exact writeEscapedImpl_spells platform s opts.ascii
  | stringOwned s => exact writeEscapedImpl_spells platform s opts.ascii
  | array arr ih =>
      rw [writeValue_array]
      refine checkDepth_spells (writeContainer_spells depth _ _ ?_)
      exact List.forall_mem_map.mpr fun value hmem => (ih value hmem (depth + 1)).1
  | object self ih =>
      rw [writeValue_object]
      refine checkDepth_spells (writeContainer_spells depth _ _ ?_)
      refine List.forall_mem_map.mpr fun entry hmem => ?_
      exact (writeEntry_spells entry.1 (ih entry (mem_orderEntries.mp hmem) (depth + 1)).1).1

end Values

end Writer

end PjhJson
