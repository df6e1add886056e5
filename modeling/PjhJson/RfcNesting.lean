import PjhJson.LibNesting
import PjhJson.StreamStrings

/-! A value of the grammar is nested: its brackets match, and no control byte of it stands in a string.
So a text that is a sequence of values cannot close what is open in front of it. -/

namespace PjhJson

open Nesting

/-- What the bytes alone tell: how many brackets are open, and whether a string is. -/
structure BracketScan where
  depth : Int := 0
  quoted : Bool := false
  escaped : Bool := false
  deriving DecidableEq, Repr

namespace BracketScan

def step (b : BracketScan) (c : UInt8) : BracketScan :=
  if b.escaped then { b with escaped := false }
  else if b.quoted then
    if c = ascii '\\' then { b with escaped := true }
    else if c = ascii '"' then { b with quoted := false }
    else b
  else if c = ascii '"' then { b with quoted := true }
  else if c = ascii '[' ∨ c = ascii '{' then { b with depth := b.depth + 1 }
  else if c = ascii ']' ∨ c = ascii '}' then { b with depth := b.depth - 1 }
  else b

/-- No string is open. -/
def Outside (b : BracketScan) : Prop := b.quoted = false ∧ b.escaped = false

/-- What a bracket or a quote does not stand in. -/
def isPlain (c : UInt8) : Bool :=
  c != ascii '"' && c != ascii '[' && c != ascii '{' && c != ascii ']' && c != ascii '}'

theorem step_plain {c : UInt8} (hc : isPlain c = true) (depth : Int) : step { depth } c = { depth } := by
  simp only [isPlain, Bool.and_eq_true, bne_iff_ne] at hc
  rw [step, if_neg Bool.false_ne_true, if_neg Bool.false_ne_true, if_neg hc.1.1.1.1,
    if_neg (not_or.mpr ⟨hc.1.1.1.2, hc.1.1.2⟩), if_neg (not_or.mpr ⟨hc.1.2, hc.2⟩)]

end BracketScan

/-- The brackets of the text match, wherever it stands outside of strings. -/
def WellNested (text : Bytes) : Prop :=
  ∀ depth : Int, Poised BracketScan.step BracketScan.depth BracketScan.Outside (· < 0x20) { depth } text

theorem wellNested_nil : WellNested [] := fun _ => poised_nil

theorem WellNested.append {text more : Bytes} (h : WellNested text) (hmore : WellNested more) :
    WellNested (text ++ more) := fun depth => (h depth).append (hmore depth)

theorem wellNested_plain {text : Bytes} (h : ∀ c ∈ text, BracketScan.isPlain c = true) : WellNested text :=
  fun depth => poised_still (fun c hmem => BracketScan.step_plain (h c hmem) depth) fun _ _ _ => ⟨rfl, rfl⟩

theorem WellNested.cons {c : UInt8} {text : Bytes} (h : WellNested text) (hc : BracketScan.isPlain c = true) :
    WellNested (c :: text) :=
  (wellNested_plain (List.forall_mem_singleton.mpr hc)).append h

theorem wellNested_whitespace {ws : Bytes} (h : Rfc.Whitespace ws) : WellNested ws := by
  refine wellNested_plain fun c hmem => ?_
  rcases h c hmem with rfl | rfl | rfl | rfl <;> decide

/-- A byte that may open a container, and the one that closes it. -/
def IsPair (first last : UInt8) : Prop :=
  (first = ascii '[' ∧ last = ascii ']') ∨ (first = ascii '{' ∧ last = ascii '}')

theorem IsPair.steps {first last : UInt8} (h : IsPair first last) (depth : Int) :
    BracketScan.step { depth } first = { depth := depth + 1 } ∧
      BracketScan.step { depth := depth + 1 } last = { depth } ∧ ¬first < 0x20 ∧ ¬last < 0x20 := by
  have hback : depth + 1 - 1 = depth := Int.add_sub_cancel depth 1
  rcases h with ⟨rfl, rfl⟩ | ⟨rfl, rfl⟩
  · exact ⟨rfl, congrArg (fun depth => ({ depth } : BracketScan)) hback, by decide, by decide⟩
  · exact ⟨rfl, congrArg (fun depth => ({ depth } : BracketScan)) hback, by decide, by decide⟩

theorem WellNested.enclosed {first last : UInt8} {text : Bytes} (h : WellNested text)
    (hpair : IsPair first last) : WellNested (first :: (text ++ [last])) := by
  intro depth
  obtain ⟨hfirst, hlast, hmarks⟩ := hpair.steps depth
  exact (h (depth + 1)).enclosed hfirst hlast (Int.le_add_one (le_refl depth)) hmarks

/-! ### Strings -/

theorem foldl_content {escaped : Bool} {content : Bytes} (h : Closed escaped content) (depth : Int) :
    content.foldl BracketScan.step { depth, quoted := true, escaped } = { depth, quoted := true } ∧
      ∀ front, front <+: content →
        (front.foldl BracketScan.step { depth, quoted := true, escaped }).depth = depth := by
  induction content generalizing escaped with
  | nil =>
      obtain rfl : escaped = false := h
      refine ⟨rfl, fun front hfront => ?_⟩
      rw [List.prefix_nil.mp hfront]
      rfl
  | cons c content ih =>
      have hstep : BracketScan.step { depth, quoted := true, escaped } c =
          { depth, quoted := true, escaped := !escaped && c == ascii '\\' } := by
        cases escaped with
        | true => rfl
        | false =>
            have hquote : c ≠ ascii '"' := h.1.resolve_left Bool.false_ne_true
            rw [BracketScan.step, if_neg Bool.false_ne_true, if_pos rfl]
            by_cases hescape : c = ascii '\\'
            · rw [if_pos hescape, hescape]
              rfl
            · have hfound : (c == ascii '\\') = false := beq_eq_false_iff_ne.mpr hescape
              rw [if_neg hescape, if_neg hquote, hfound]
              rfl
      obtain ⟨hback, hdepth⟩ := ih h.2
      rw [List.foldl_cons, hstep]
      refine ⟨hback, fun front hfront => ?_⟩
      cases front with
      | nil => rfl
      | cons d front =>
          obtain ⟨rfl, hinner⟩ := List.cons_prefix_cons.mp hfront
          rw [List.foldl_cons, hstep]
          exact hdepth front hinner

theorem hexDigit_printable {c : UInt8} {v : Nat} (h : Rfc.HexDigit c v) : ¬c < 0x20 := by
  rw [UInt8.not_lt]
  cases h with
  | digit hlo _ => exact UInt8.le_trans (show (0x20 : UInt8) ≤ 0x30 by decide) hlo
  | upper hlo _ => exact UInt8.le_trans (show (0x20 : UInt8) ≤ 0x41 by decide) hlo
  | lower hlo _ => exact UInt8.le_trans (show (0x20 : UInt8) ≤ 0x61 by decide) hlo

theorem codeUnit_printable {digits : Bytes} {v : Nat} (h : Rfc.CodeUnit digits v) : ∀ c ∈ digits, ¬c < 0x20 := by
  obtain ⟨a, b, c, d, va, vb, vc, vd, ha, hb, hc, hd⟩ := h
  rw [List.forall_mem_cons, List.forall_mem_cons, List.forall_mem_cons, List.forall_mem_singleton]
  exact ⟨hexDigit_printable ha, hexDigit_printable hb, hexDigit_printable hc, hexDigit_printable hd⟩

theorem character_printable {spelling value : Bytes} (h : Rfc.Character spelling value) :
    ∀ c ∈ spelling, ¬c < 0x20 := by
  cases h with
  | unescaped c hc => exact List.forall_mem_singleton.mpr (UInt8.not_lt.mpr hc)
  | short c value hshort =>
      refine List.forall_mem_cons.mpr ⟨by decide, List.forall_mem_singleton.mpr ?_⟩
      cases hshort <;> decide
  | unicode digits value hunit =>
      exact List.forall_mem_cons.mpr ⟨by decide, List.forall_mem_cons.mpr ⟨by decide, codeUnit_printable hunit⟩⟩
  | pair digits digits' high low value hunit hunit' =>
      refine List.forall_mem_cons.mpr ⟨by decide, List.forall_mem_cons.mpr ⟨by decide, ?_⟩⟩
      refine List.forall_mem_append.mpr ⟨codeUnit_printable hunit, ?_⟩
      exact List.forall_mem_cons.mpr ⟨by decide, List.forall_mem_cons.mpr ⟨by decide, codeUnit_printable hunit'⟩⟩

/-- The content of a string has no control bytes. -/
theorem characters_printable {content value : Bytes} (h : Rfc.Characters content value) :
    ∀ c ∈ content, ¬c < 0x20 := by
  induction h with
  | nil => exact fun _ hmem => absurd hmem List.not_mem_nil
  | cons spelling value rest values hcharacter _ ih =>
      exact List.forall_mem_append.mpr ⟨character_printable hcharacter, ih⟩

theorem wellNested_string {token value : Bytes} (h : Rfc.StringToken token value) : WellNested token := by
  obtain ⟨content, value, hcontent⟩ := h
  intro depth
  obtain ⟨hback, hdepth⟩ := foldl_content (closed_characters hcontent) depth
  have hquoted : Poised BracketScan.step BracketScan.depth BracketScan.Outside (· < 0x20)
      { depth, quoted := true } content :=
    { back := hback
      above := fun front hfront => (hdepth front hfront).ge
      calm := fun front c hfront hmark => absurd hmark (characters_printable hcontent c
        (hfront.subset (List.mem_append_right front (List.mem_singleton_self c)))) }
  exact hquoted.enclosed rfl rfl (le_refl depth) ⟨by decide, by decide⟩

/-! ### Values -/

/-- A byte of a number or a literal. -/
def isScalarByte (c : UInt8) : Bool := BracketScan.isPlain c && !(c < 0x20)

theorem number_scalar (parts : Rfc.NumberParts) : ∀ c ∈ parts.text, isScalarByte c = true := by
  have hdigit : ∀ {c : UInt8}, Rfc.Digit c → isScalarByte c = true := by
    rintro c ⟨hlo, hhi⟩
    have hbelow : ∀ b : UInt8, b < 0x30 → c ≠ b := fun b hb h => absurd (h ▸ hlo) (UInt8.not_le.mpr hb)
    have habove : ∀ b : UInt8, 0x39 < b → c ≠ b := fun b hb h => absurd (h ▸ hhi) (UInt8.not_le.mpr hb)
    have hcontrol : ¬c < 0x20 := UInt8.not_lt.mpr (UInt8.le_trans (by decide) hlo)
    simp only [isScalarByte, BracketScan.isPlain, Bool.and_eq_true, bne_iff_ne, Bool.not_eq_true',
      decide_eq_false_iff_not]
    exact ⟨⟨⟨⟨⟨hbelow _ (by decide), habove _ (by decide)⟩, habove _ (by decide)⟩, habove _ (by decide)⟩,
      habove _ (by decide)⟩, hcontrol⟩
  rw [Rfc.NumberParts.text]
  refine List.forall_mem_append.mpr ⟨?_, List.forall_mem_append.mpr
    ⟨fun c hmem => hdigit (parts.isInteger.1.2 c hmem), List.forall_mem_append.mpr ⟨?_, ?_⟩⟩⟩
  · rcases parts.minus_or with hminus | hminus
    · rw [hminus]
      exact fun _ hmem => absurd hmem List.not_mem_nil
    · rw [hminus]
      exact List.forall_mem_singleton.mpr (by decide)
  · obtain ⟨fraction, hfraction⟩ : ∃ fraction, fraction = parts.fraction := ⟨_, rfl⟩
    rw [← hfraction]
    cases hfraction ▸ parts.isFraction with
    | none => exact fun _ hmem => absurd hmem List.not_mem_nil
    | some digits hdigits =>
        exact List.forall_mem_cons.mpr ⟨by decide, fun c hmem => hdigit (hdigits.2 c hmem)⟩
  · obtain ⟨exponent, hexponent⟩ : ∃ exponent, exponent = parts.exponent := ⟨_, rfl⟩
    rw [← hexponent]
    cases hexponent ▸ parts.isExponent with
    | none => exact fun _ hmem => absurd hmem List.not_mem_nil
    | some e sign digits he hsign hdigits =>
        refine List.forall_mem_cons.mpr ⟨?_, List.forall_mem_append.mpr
          ⟨?_, fun c hmem => hdigit (hdigits.2 c hmem)⟩⟩
        · rcases he with rfl | rfl <;> decide
        · rcases hsign with rfl | rfl | rfl
          · exact fun _ hmem => absurd hmem List.not_mem_nil
          · exact List.forall_mem_singleton.mpr (by decide)
          · exact List.forall_mem_singleton.mpr (by decide)

theorem literal_scalar {text : Bytes}
    (h : text = asciiBytes "null" ∨ text = asciiBytes "true" ∨ text = asciiBytes "false") :
    ∀ c ∈ text, isScalarByte c = true := by
  have hall : text.all isScalarByte = true := by
    rcases h with rfl | rfl | rfl <;> decide
  exact List.all_eq_true.mp hall

theorem wellNested_element {before text after : Bytes} (hbefore : Rfc.Whitespace before) (htext : WellNested text)
    (hafter : Rfc.Whitespace after) : WellNested (before ++ (text ++ after)) :=
  (wellNested_whitespace hbefore).append (htext.append (wellNested_whitespace hafter))

theorem wellNested_separated {before text after rest : Bytes} (hbefore : Rfc.Whitespace before)
    (htext : WellNested text) (hafter : Rfc.Whitespace after) (hrest : WellNested rest) :
    WellNested (before ++ (text ++ (after ++ ascii ',' :: rest))) :=
  (wellNested_whitespace hbefore).append
    (htext.append ((wellNested_whitespace hafter).append (hrest.cons (by decide))))

theorem wellNested_member {first token second key rest : Bytes} (hfirst : Rfc.Whitespace first)
    (htoken : Rfc.StringToken token key) (hsecond : Rfc.Whitespace second) (hrest : WellNested rest) :
    WellNested (first ++ (token ++ (second ++ ascii ':' :: rest))) :=
  (wellNested_whitespace hfirst).append
    ((wellNested_string htoken).append ((wellNested_whitespace hsecond).append (hrest.cons (by decide))))

/-- The text is nested and, if there is a control byte in it, a container. -/
def NestedValue (text : Bytes) : Prop :=
  WellNested text ∧ ∀ c ∈ text, c < 0x20 →
    ∃ first inner last, text = first :: (inner ++ [last]) ∧ IsPair first last ∧ WellNested inner

theorem nestedValue_scalar {text : Bytes} (h : ∀ c ∈ text, isScalarByte c = true) : NestedValue text := by
  refine ⟨wellNested_plain fun c hmem => (Bool.and_eq_true_iff.mp (h c hmem)).1, fun c hmem hc => ?_⟩
  have hbyte := h c hmem
  rw [isScalarByte, decide_eq_true hc, Bool.not_true, Bool.and_false] at hbyte
  cases hbyte

theorem nestedValue_string {token value : Bytes} (h : Rfc.StringToken token value) : NestedValue token := by
  refine ⟨wellNested_string h, ?_⟩
  obtain ⟨content, value, hcontent⟩ := h
  refine List.forall_mem_cons.mpr ⟨fun hc => absurd hc (by decide), List.forall_mem_append.mpr ⟨?_, ?_⟩⟩
  · exact fun c hmem hc => absurd hc (characters_printable hcontent c hmem)
  · exact List.forall_mem_singleton.mpr fun hc => absurd hc (by decide)

theorem nestedValue_array {text : Bytes} (h : WellNested text) :
    NestedValue (ascii '[' :: (text ++ [ascii ']'])) :=
  ⟨h.enclosed (.inl ⟨rfl, rfl⟩), fun _ _ _ => ⟨_, text, _, rfl, .inl ⟨rfl, rfl⟩, h⟩⟩

theorem nestedValue_object {text : Bytes} (h : WellNested text) :
    NestedValue (ascii '{' :: (text ++ [ascii '}'])) :=
  ⟨h.enclosed (.inr ⟨rfl, rfl⟩), fun _ _ _ => ⟨_, text, _, rfl, .inr ⟨rfl, rfl⟩, h⟩⟩

theorem nested_value {text : Bytes} {value : Ast} (h : Rfc.Value text value) : NestedValue text :=
  @Rfc.Value.rec (fun text _ _ => NestedValue text) (fun text _ _ => WellNested text)
    (fun text _ _ => WellNested text)
    (nestedValue_scalar (literal_scalar (.inl rfl)))
    (nestedValue_scalar (literal_scalar (.inr (.inl rfl))))
    (nestedValue_scalar (literal_scalar (.inr (.inr rfl))))
    (fun _ hnumber => by
      obtain ⟨parts, rfl⟩ := hnumber
      exact nestedValue_scalar (number_scalar parts))
    (fun _ _ htoken => nestedValue_string htoken)
    (fun _ hws => nestedValue_array (wellNested_whitespace hws))
    (fun _ _ _ ih => nestedValue_array ih)
    (fun _ hws => nestedValue_object (wellNested_whitespace hws))
    (fun _ _ _ ih => nestedValue_object ih)
    (fun _ _ _ _ hbefore _ hafter ih => wellNested_element hbefore ih.1 hafter)
    (fun _ _ _ _ _ _ hbefore _ hafter _ ih hrest => wellNested_separated hbefore ih.1 hafter hrest)
    (fun _ _ _ _ _ _ _ _ hfirst htoken hsecond hbefore _ hafter ih =>
      wellNested_member hfirst htoken hsecond (wellNested_element hbefore ih.1 hafter))
    (fun _ _ _ _ _ _ _ _ _ _ hfirst htoken hsecond hbefore _ hafter _ ih hrest =>
      wellNested_member hfirst htoken hsecond (wellNested_separated hbefore ih.1 hafter hrest))
    text value h

theorem wellNested_text {text : Bytes} {value : Ast} (h : Rfc.Text text value) : WellNested text := by
  obtain ⟨before, text, after, value, hbefore, hvalue, hafter⟩ := h
  exact wellNested_element hbefore (nested_value hvalue).1 hafter

/-- What a value has open at a control byte cannot be closed by a text that is nested by itself. -/
theorem value_ends_inside {text front rest more : Bytes} {value : Ast} {c : UInt8} (h : Rfc.Value text value)
    (hsplit : text = front ++ c :: rest) (hfront : front ≠ []) (hc : c < 0x20) (hmore : WellNested more)
    (hrest : c :: rest <+: more) : False := by
  obtain ⟨hnested, hcontrol⟩ := nested_value h
  obtain ⟨first, inner, last, hform, hpair, hinner⟩ := hcontrol c (by rw [hsplit]; simp) hc
  have hopen : 0 + 1 ≤ (front.foldl BracketScan.step {}).depth :=
    (hinner (0 + 1)).inside (hpair.steps 0).1 (hform.symm.trans hsplit) hfront (List.cons_ne_nil c rest)
  have hcalm : BracketScan.Outside (front.foldl BracketScan.step {}) :=
    (hnested 0).calm front c ⟨rest, by rw [hsplit, List.append_assoc]; rfl⟩ hc
  have hback := (hnested 0).back
  rw [hsplit, List.foldl_append] at hback
  generalize front.foldl BracketScan.step {} = state at hopen hcalm hback
  obtain ⟨depth, quoted, escaped⟩ := state
  obtain ⟨rfl, rfl⟩ : quoted = false ∧ escaped = false := hcalm
  have habove := (hmore depth).above (c :: rest) hrest
  rw [hback] at habove
  exact absurd (hopen.trans habove) (by decide)

end PjhJson
