import PjhJson.HexNumber
import PjhJson.Json5Respell

/-! Tokens that denote the same: `\xHH` and `\u00HH` for an ASCII character, and a name with and without
quotes. -/

namespace PjhJson

namespace Ast

mutual

/-- The keys of the members of all objects, in text order. -/
def keys : Ast → List Bytes
  | array elements => keysElements elements
  | object members => keysMembers members
  | _ => []

def keysElements : List Ast → List Bytes
  | [] => []
  | value :: rest => value.keys ++ keysElements rest

def keysMembers : List (Bytes × Ast) → List Bytes
  | [] => []
  | (key, value) :: rest => key :: (value.keys ++ keysMembers rest)

end

end Ast

namespace Json5

open Grammar Utf8

variable {platform : Platform} {cfg : Config}

/-! ### Hexadecimal escapes -/

/-- `content'` is `content` with one of its escapes `\xHH` spelled `\u00HH`. -/
inductive UnitForHex (quote hi lo : UInt8) : Bytes → Bytes → Prop where
  | here (content : Bytes) : UnitForHex quote hi lo
      (ascii '\\' :: ascii 'x' :: hi :: lo :: content)
      (ascii '\\' :: ascii 'u' :: ascii '0' :: ascii '0' :: hi :: lo :: content)
  | plain (c : UInt8) (content content' : Bytes) : c ≠ ascii '\\' →
      UnitForHex quote hi lo content content' → UnitForHex quote hi lo (c :: content) (c :: content')
  | escape (spelling written content content' : Bytes) :
      Escape (content ++ [quote]) spelling written → UnitForHex quote hi lo content content' →
      UnitForHex quote hi lo (spelling ++ content) (spelling ++ content')

/-- What an escape is, and where it ends, is determined. -/
theorem escape_unique {rest rest' spelling spelling' written written' : Bytes}
    (h : Escape rest spelling written) (h' : Escape rest' spelling' written')
    (heq : spelling ++ rest = spelling' ++ rest') : written = written' ∧ rest = rest' := by
  obtain ⟨more, hmore⟩ := h.start
  have hdecode : handleEscapeJson5Bounded (ascii '\\' :: (more ++ rest)) = .ok (written, rest) :=
    handleEscape_iff.mpr ⟨spelling, h, by rw [hmore]; rfl⟩
  have hdecode' : handleEscapeJson5Bounded (ascii '\\' :: (more ++ rest)) = .ok (written', rest') :=
    handleEscape_iff.mpr ⟨spelling', h', by rw [← heq, hmore]; rfl⟩
  exact Prod.mk.inj (Res.ok.inj (hdecode.symm.trans hdecode'))

variable {quote hi lo : UInt8} {content content' : Bytes}

/-- The two contents part behind a backslash. -/
theorem UnitForHex.fork (h : UnitForHex quote hi lo content content') :
    ∃ front more more', content = front ++ ascii '\\' :: more ∧
      content' = front ++ ascii '\\' :: more' := by
  induction h with
  | here content => exact ⟨[], _, _, rfl, rfl⟩
  | plain c content content' _ _ ih =>
      obtain ⟨front, more, more', rfl, rfl⟩ := ih
      exact ⟨c :: front, more, more', rfl, rfl⟩
  | escape spelling written content content' _ _ ih =>
      obtain ⟨front, more, more', rfl, rfl⟩ := ih
      exact ⟨spelling ++ front, more, more', (List.append_assoc _ _ _).symm,
        (List.append_assoc _ _ _).symm⟩

/-- An escape in front does not look behind that backslash. -/
theorem UnitForHex.escape_front (h : UnitForHex quote hi lo content content')
    {spelling written : Bytes} (hescape : Escape (content ++ [quote]) spelling written) :
    Escape (content' ++ [quote]) spelling written := by
  obtain ⟨front, more, more', rfl, rfl⟩ := h.fork
  have hbackslash : ascii '\\' ≤ 0x7F := by decide
  rw [List.append_assoc, List.cons_append, escape_closed hbackslash] at hescape
  rw [List.append_assoc, List.cons_append, escape_closed hbackslash]
  exact hescape

theorem characters_plain {c : UInt8} (hc : c ≠ ascii '\\') {value marks : Bytes}
    (h : Characters quote (c :: content) value marks) : ∃ value' marks',
      value = c :: value' ∧ marks = c :: marks' ∧ c ≠ quote ∧ c ≠ 0x0A ∧ c ≠ 0x0D ∧
        Characters quote content value' marks' := by
  generalize hwhole : c :: content = whole at h
  cases h with
  | nil => cases hwhole
  | plain b content value marks hquote _ hlf hcr hcontent =>
      obtain ⟨rfl, rfl⟩ := List.cons.inj hwhole
      exact ⟨value, marks, rfl, rfl, hquote, hlf, hcr, hcontent⟩
  | escape spelling written content value marks hescape _ =>
      obtain ⟨more, rfl⟩ := hescape.start
      exact absurd (List.cons.inj hwhole).1 hc

theorem characters_escape {spelling written value marks : Bytes}
    (hescape : Escape (content ++ [quote]) spelling written)
    (h : Characters quote (spelling ++ content) value marks) : ∃ value' marks',
      value = written ++ value' ∧ marks = ascii '\\' :: marks' ∧
        Characters quote content value' marks' := by
  obtain ⟨more, hmore⟩ := hescape.start
  generalize hwhole : spelling ++ content = whole at h
  cases h with
  | nil =>
      rw [hmore] at hwhole
      cases hwhole
  | plain c content value marks _ hne _ _ _ =>
      rw [hmore] at hwhole
      exact absurd (List.cons.inj hwhole).1.symm hne
  | escape spelling' written' content' value marks hescape' hcontent =>
      obtain ⟨rfl, hrest⟩ := escape_unique hescape hescape' (by
        rw [← List.append_assoc, hwhole, List.append_assoc])
      obtain rfl := List.append_cancel_right hrest
      exact ⟨value, marks, rfl, rfl, hcontent⟩

theorem hexByte_digits {rest spelling written : Bytes} (h : Escape rest spelling written)
    {more : Bytes} (heq : spelling ++ rest = ascii '\\' :: ascii 'x' :: more) :
    ∃ hi lo n m, Rfc.HexDigit hi n ∧ Rfc.HexDigit lo m ∧ more = hi :: lo :: rest ∧
      written = [(n * 16 + m).toUInt8] := by
  have hdecode : handleEscapeJson5Bounded (ascii '\\' :: ascii 'x' :: more) = .ok (written, rest) :=
    handleEscape_iff.mpr ⟨spelling, h, heq.symm⟩
  exact handleHexByte_iff.mp hdecode

theorem characters_hexByte {value marks : Bytes}
    (h : Characters quote (ascii '\\' :: ascii 'x' :: hi :: lo :: content) value marks) :
    ∃ n m value' marks', Rfc.HexDigit hi n ∧ Rfc.HexDigit lo m ∧
      value = (n * 16 + m).toUInt8 :: value' ∧ marks = ascii '\\' :: marks' ∧
        Characters quote content value' marks' := by
  generalize hwhole : ascii '\\' :: ascii 'x' :: hi :: lo :: content = whole at h
  cases h with
  | nil => cases hwhole
  | plain c _ _ _ _ hne _ _ _ => exact absurd (List.cons.inj hwhole).1.symm hne
  | escape spelling written rest value marks hescape hrest =>
      obtain ⟨hi', lo', n, m, hhi, hlo, hmore, rfl⟩ := @hexByte_digits _ _ _ hescape
        (hi :: lo :: (content ++ [quote])) (by rw [← List.append_assoc, ← hwhole]; rfl)
      obtain ⟨rfl, rfl, rfl⟩ : hi = hi' ∧ lo = lo' ∧ content = rest := by simpa using hmore
      exact ⟨n, m, value, marks, hhi, hlo, rfl, rfl, hrest⟩

theorem toNat_hexByte {n m : Nat} (hhi : Rfc.HexDigit hi n) (hlo : Rfc.HexDigit lo m) :
    (Char.ofNat (n * 16 + m)).toNat = n * 16 + m := by
  have hn := (HexParts.hexDigit_bounds hhi).1
  have hm := (HexParts.hexDigit_bounds hlo).1
  rw [Char.toNat_ofNat, if_pos (.inl (by omega))]

/-- Only the bytes of the one escape change: by induction on the way to it. -/
theorem UnitForHex.characters (h : UnitForHex quote hi lo content content') {value marks : Bytes}
    (hcontent : Characters quote content value marks) :
    ∃ n m front back, Rfc.HexDigit hi n ∧ Rfc.HexDigit lo m ∧
      value = front ++ (n * 16 + m).toUInt8 :: back ∧
      Characters quote content'
        (front ++ (String.utf8EncodeChar (Char.ofNat (n * 16 + m)) ++ back)) marks := by
  induction h generalizing value marks with
  | here content =>
      obtain ⟨n, m, value', marks', hhi, hlo, rfl, rfl, hrest⟩ := characters_hexByte hcontent
      refine ⟨n, m, [], value', hhi, hlo, rfl, ?_⟩
      have hzero : Rfc.HexDigit (ascii '0') 0 := .digit _ (by decide) (by decide)
      have hunit : Rfc.CodeUnit [ascii '0', ascii '0', hi, lo] (Char.ofNat (n * 16 + m)).toNat := by
        rw [toNat_hexByte hhi hlo]
        have hunit := Rfc.CodeUnit.mk _ _ _ _ _ _ _ _ hzero hzero hhi hlo
        simpa using hunit
      rw [List.nil_append]
      exact .escape (ascii '\\' :: ascii 'u' :: [ascii '0', ascii '0', hi, lo]) _ _ _ _
        (.unicode _ _ (.unit _ _ hunit)) hrest
  | plain c content content' hc _ ih =>
      obtain ⟨value', marks', rfl, rfl, hquote, hlf, hcr, hrest⟩ := characters_plain hc hcontent
      obtain ⟨n, m, front, back, hhi, hlo, rfl, hnew⟩ := ih hrest
      exact ⟨n, m, c :: front, back, hhi, hlo, rfl, .plain c _ _ _ hquote hc hlf hcr hnew⟩
  | escape spelling written content content' hescape hmore ih =>
      obtain ⟨value', marks', rfl, rfl, hrest⟩ := characters_escape hescape hcontent
      obtain ⟨n, m, front, back, hhi, hlo, rfl, hnew⟩ := ih hrest
      refine ⟨n, m, written ++ front, back, hhi, hlo, (List.append_assoc _ _ _).symm, ?_⟩
      rw [List.append_assoc]
      exact .escape spelling written _ _ _ (hmore.escape_front hescape) hnew

/-! ### Names in quotes -/

/-- A byte that stands for itself in a string. -/
def StandsAlone (quote c : UInt8) : Prop := c ≠ quote ∧ c ≠ ascii '\\' ∧ c ≠ 0x0A ∧ c ≠ 0x0D

theorem characters_append {plain : Bytes} (hplain : ∀ c ∈ plain, StandsAlone quote c)
    {value marks : Bytes} (h : Characters quote content value marks) :
    Characters quote (plain ++ content) (plain ++ value) (plain ++ marks) := by
  induction plain with
  | nil => exact h
  | cons c plain ih =>
      rw [List.forall_mem_cons] at hplain
      obtain ⟨⟨hquote, hbackslash, hlf, hcr⟩, hplain⟩ := hplain
      exact .plain c _ _ _ hquote hbackslash hlf hcr (ih hplain)

/-- No byte of an identifier ends a string or starts an escape, and none is a control byte. -/
theorem bytes_char {c : Char} (hpart : Unicode.isIdentifierContinue c.toNat = true) :
    ∀ b ∈ String.utf8EncodeChar c, StandsAlone (ascii '"') b ∧ 0x20 ≤ b := by
  intro b hb
  by_cases hle : c.toNat ≤ 0x7F
  · rw [encode_ascii hle, List.mem_singleton] at hb
    rw [Unicode.isIdentifierContinue, if_pos hle, ← hb] at hpart
    have hlow : 0x20 ≤ b := by
      by_contra hlow
      have hcontrol : ∀ n < 0x20, Grammar.isIdentifierContinue n.toUInt8 = false := by decide
      have hlt := UInt8.lt_iff_toNat_lt.mp (UInt8.not_le.mp hlow)
      have hfalse := hcontrol b.toNat hlt
      rw [Unicode.toUInt8_eq rfl, hpart] at hfalse
      cases hfalse
    refine ⟨⟨?_, ?_, ?_, ?_⟩, hlow⟩
    all_goals
      rintro rfl
      exact absurd hpart (by decide)
  · have hbyte := encode_bytes (Nat.lt_of_not_le hle) b hb
    refine ⟨⟨?_, ?_, ?_, ?_⟩, UInt8.le_trans (by decide) hbyte⟩
    all_goals
      rintro rfl
      exact absurd hbyte (by decide)

/-- Marks that the strict UTF-8 gate has no objection to. -/
def CleanMarks (marks : Bytes) : Prop := WellFormed marks ∧ ∀ c ∈ marks, 0x20 ≤ c

theorem CleanMarks.append {first second : Bytes} (h : CleanMarks first) (h' : CleanMarks second) :
    CleanMarks (first ++ second) :=
  ⟨h.1.append h'.1, List.forall_mem_append.mpr ⟨h.2, h'.2⟩⟩

theorem CleanMarks.passes {marks : Bytes} (h : CleanMarks marks) : Passes cfg marks :=
  fun _ => (checkUtf8Strict_iff h.2).mpr h.1

/-- A character of an identifier in front of the content of a string. -/
theorem characters_unit {spelling : Bytes} {c : Char} (h : IdentifierUnit spelling c)
    (hpart : Unicode.isIdentifierContinue c.toNat = true) {value marks : Bytes}
    (hcontent : Characters (ascii '"') content value marks) (hmarks : CleanMarks marks) :
    ∃ marks', Characters (ascii '"') (spelling ++ content) (String.utf8EncodeChar c ++ value) marks' ∧
      CleanMarks marks' := by
  cases h with
  | raw c =>
      have hbytes := bytes_char hpart
      refine ⟨_, characters_append (fun b hb => (hbytes b hb).1) hcontent, CleanMarks.append ?_ hmarks⟩
      exact ⟨wellFormed_sequence (sequence_encode c), fun b hb => (hbytes b hb).2⟩
  | escaped _ _ hescape =>
      refine ⟨_, .escape spelling _ _ _ _ (.unicode spelling c hescape) hcontent, ?_⟩
      have hmark : CleanMarks [ascii '\\'] :=
        ⟨wellFormed_sequence (sequence_ascii (by decide)), List.forall_mem_singleton.mpr (by decide)⟩
      exact hmark.append hmarks

theorem characters_parts {text : Bytes} {chars : List Char} (h : IdentifierParts text chars) :
    ∃ marks, Characters (ascii '"') text (utf8Bytes chars) marks ∧ CleanMarks marks := by
  induction h with
  | nil => exact ⟨[], .nil, .nil, fun c hc => absurd hc List.not_mem_nil⟩
  | cons spelling rest c chars hunit hpart _ ih =>
      obtain ⟨marks, hcontent, hmarks⟩ := ih
      rw [utf8Bytes_cons]
      exact characters_unit hunit hpart hcontent hmarks

/-- The spelling of a name is the content of a string that denotes the same. -/
theorem IdentifierName.quoted {spelling : Bytes} {chars : List Char}
    (h : IdentifierName spelling chars) :
    StringToken cfg (ascii '"') spelling (utf8Bytes chars) := by
  obtain ⟨spelling, rest, c, chars, hunit, hstart, hrest⟩ := h
  obtain ⟨marks, hcontent, hmarks⟩ := characters_parts hrest
  obtain ⟨marks', hname, hmarks'⟩ :=
    characters_unit hunit (start_continues hstart) hcontent hmarks
  rw [utf8Bytes_cons]
  exact ⟨.inl rfl, marks', hname, hmarks'.passes⟩

/-- A name is one start character and continuing characters. -/
theorem IdentifierName.start {spelling : Bytes} {chars : List Char}
    (h : IdentifierName spelling chars) :
    ∃ first rest, chars = first :: rest ∧ Unicode.isIdentifierStart first.toNat = true ∧
      ∀ c ∈ rest, Unicode.isIdentifierContinue c.toNat = true := by
  obtain ⟨spelling, text, first, rest, -, hstart, hrest⟩ := h
  refine ⟨first, rest, rfl, hstart, ?_⟩
  clear hstart
  induction hrest with
  | nil => exact fun c hc => absurd hc List.not_mem_nil
  | cons spelling text c chars _ hpart _ ih => exact List.forall_mem_cons.mpr ⟨hpart, ih⟩

/-- The name is the key of a member. -/
def IsKey (spelling : Bytes) (keys : List Bytes) : Prop :=
  ∃ chars, IdentifierName spelling chars ∧ utf8Bytes chars ∈ keys

theorem IsKey.mono {spelling : Bytes} {keys keys' : List Bytes} (h : IsKey spelling keys)
    (hsub : keys ⊆ keys') : IsKey spelling keys' := by
  obtain ⟨chars, hname, hmem⟩ := h
  exact ⟨chars, hname, hsub hmem⟩

end Json5

end PjhJson
