import PjhJson.StringGrammar
import PjhJson.Utf8Gate

/-! The strings of a text as they stand in it: the bytes between their quotes, escapes undecoded. -/

namespace PjhJson

open Utf8

/-- The content of a string, up to the first quote that no backslash escapes. -/
def contentOf (quote : UInt8) : Bytes → Bytes
  | [] => []
  | [c] => if c = quote then [] else [c]
  | c :: d :: rest =>
    if c = quote then []
    else if c = ascii '\\' then c :: d :: contentOf quote rest
    else c :: contentOf quote (d :: rest)

/-- The contents of the strings of a text, in text order, each with the number of bytes from its
first byte to the end of the text. Outside of strings, a quote begins one. -/
def stringContents : Bytes → List (Nat × Bytes)
  | [] => []
  | c :: rest =>
    if c = ascii '"' then
      let content := contentOf (ascii '"') rest
      (rest.length, content) :: stringContents (rest.drop (content.length + 1))
    else stringContents rest
termination_by text => text.length
decreasing_by
  · rw [List.length_drop, List.length_cons]
    omega
  · exact Nat.lt_succ_self _

theorem stringContents_cons {c : UInt8} (hc : c ≠ ascii '"') (rest : Bytes) :
    stringContents (c :: rest) = stringContents rest := by
  rw [stringContents, if_neg hc]

theorem stringContents_append {before : Bytes} (h : ∀ c ∈ before, c ≠ ascii '"') (rest : Bytes) :
    stringContents (before ++ rest) = stringContents rest := by
  induction before with
  | nil => rfl
  | cons c before ih =>
      rw [List.forall_mem_cons] at h
      rw [List.cons_append, stringContents_cons h.1, ih h.2]

/-- The content of a string that is closed. -/
theorem stringContents_quote {content rest : Bytes}
    (h : contentOf (ascii '"') (content ++ ascii '"' :: rest) = content) :
    stringContents (ascii '"' :: (content ++ ascii '"' :: rest)) =
      (content.length + 1 + rest.length, content) :: stringContents rest := by
  rw [stringContents, if_pos rfl]
  simp only [h, List.length_append, List.length_cons]
  congr 2
  · omega
  · rw [List.drop_append, List.drop_of_length_le (Nat.le_succ _), Nat.succ_sub (Nat.le_refl _),
      Nat.sub_self]
    rfl

theorem contentOf_begins (quote : UInt8) (text : Bytes) : contentOf quote text <+: text := by
  fun_induction contentOf quote text with
  | case1 => exact List.prefix_rfl
  | case2 => exact List.nil_prefix
  | case3 => exact List.prefix_rfl
  | case4 => exact List.nil_prefix
  | case5 d rest _ ih =>
      exact (List.prefix_cons_inj _).mpr ((List.prefix_cons_inj _).mpr ih)
  | case6 c d rest _ _ ih => exact (List.prefix_cons_inj _).mpr ih

/-- A content stands in the text where the number that comes with it says. -/
theorem mem_stringContents {text content : Bytes} {left : Nat}
    (h : (left, content) ∈ stringContents text) :
    ∃ before after, text = before ++ (content ++ after) ∧ left = (content ++ after).length := by
  fun_induction stringContents text with
  | case1 => exact absurd h List.not_mem_nil
  | case2 rest first ih =>
      rcases List.mem_cons.mp h with heq | hmem
      · obtain ⟨rfl, rfl⟩ := Prod.mk.inj heq
        obtain ⟨after, hafter⟩ := contentOf_begins (ascii '"') rest
        exact ⟨[ascii '"'], after, by rw [hafter]; rfl, by rw [hafter]⟩
      · obtain ⟨before, after, hrest, hleft⟩ := ih hmem
        refine ⟨ascii '"' :: (rest.take (first.length + 1) ++ before), after, ?_, hleft⟩
        rw [List.cons_append, List.append_assoc, ← hrest, List.take_append_drop]
  | case3 c rest _ ih =>
      obtain ⟨before, after, rfl, hleft⟩ := ih h
      exact ⟨c :: before, after, rfl, hleft⟩

section ContentOf

variable {quote c : UInt8} {rest : Bytes}

theorem contentOf_quote (quote : UInt8) (rest : Bytes) : contentOf quote (quote :: rest) = [] := by
  cases rest with
  | nil => rw [contentOf, if_pos rfl]
  | cons d rest => rw [contentOf, if_pos rfl]

theorem contentOf_cons (hquote : c ≠ quote) (hescape : c ≠ ascii '\\') :
    contentOf quote (c :: rest) = c :: contentOf quote rest := by
  cases rest with
  | nil => exact if_neg hquote
  | cons d rest => rw [contentOf, if_neg hquote, if_neg hescape]

theorem contentOf_escape (hquote : ascii '\\' ≠ quote) (d : UInt8) :
    contentOf quote (ascii '\\' :: d :: rest) = ascii '\\' :: d :: contentOf quote rest := by
  rw [contentOf, if_neg hquote, if_pos rfl]

theorem contentOf_append {before : Bytes} (h : ∀ c ∈ before, c ≠ quote ∧ c ≠ ascii '\\') :
    contentOf quote (before ++ rest) = before ++ contentOf quote rest := by
  induction before with
  | nil => rfl
  | cons c before ih =>
      rw [List.forall_mem_cons] at h
      rw [List.cons_append, contentOf_cons h.1.1 h.1.2, ih h.2, List.cons_append]

end ContentOf

/-! ### RFC strings -/

/-- A hex digit is ASCII, and neither a quote nor a backslash. -/
theorem Rfc.HexDigit.ascii {c : UInt8} {v : Nat} (h : Rfc.HexDigit c v) :
    c ≤ 0x7F ∧ c ≠ PjhJson.ascii '"' ∧ c ≠ PjhJson.ascii '\\' := by
  have hbound : c ≤ 0x7F := by
    cases h with
    | digit _ h => exact UInt8.le_trans h (by decide)
    | upper _ h => exact UInt8.le_trans h (by decide)
    | lower _ h => exact UInt8.le_trans h (by decide)
  refine ⟨hbound, ?_, ?_⟩
  · rintro rfl
    cases h with
    | digit h _ => exact absurd h (by decide)
    | upper h _ => exact absurd h (by decide)
    | lower h _ => exact absurd h (by decide)
  · rintro rfl
    cases h with
    | digit _ h => exact absurd h (by decide)
    | upper _ h => exact absurd h (by decide)
    | lower h _ => exact absurd h (by decide)

theorem Rfc.CodeUnit.ascii {digits : Bytes} {value : Nat} (h : Rfc.CodeUnit digits value) :
    ∀ c ∈ digits, c ≤ 0x7F ∧ c ≠ PjhJson.ascii '"' ∧ c ≠ PjhJson.ascii '\\' := by
  obtain ⟨a, b, c, d, va, vb, vc, vd, ha, hb, hc, hd⟩ := h
  rw [List.forall_mem_cons, List.forall_mem_cons, List.forall_mem_cons, List.forall_mem_singleton]
  exact ⟨ha.ascii, hb.ascii, hc.ascii, hd.ascii⟩

theorem Rfc.ShortEscape.ascii {c value : UInt8} (h : Rfc.ShortEscape c value) :
    c ≤ 0x7F ∧ value ≤ 0x7F := by
  cases h <;> decide

/-- A character of a string is a byte, or an escape, which is spelled in ASCII and denotes
well-formed text. -/
theorem Rfc.Character.spelled {spelling value : Bytes} (h : Rfc.Character spelling value) :
    (∃ c, spelling = [c] ∧ value = [c] ∧ 0x20 ≤ c ∧ c ≠ PjhJson.ascii '"' ∧
      c ≠ PjhJson.ascii '\\') ∨
    ∃ more, spelling = PjhJson.ascii '\\' :: more ∧ (∀ c ∈ more, c ≤ 0x7F) ∧ WellFormed value ∧
      ∀ rest, contentOf (PjhJson.ascii '"') (spelling ++ rest) =
        spelling ++ contentOf (PjhJson.ascii '"') rest := by
  have hne : PjhJson.ascii '\\' ≠ PjhJson.ascii '"' := by decide
  have hdigits : ∀ {digits : Bytes} {value : Nat}, Rfc.CodeUnit digits value → ∀ rest,
      contentOf (PjhJson.ascii '"') (digits ++ rest) =
        digits ++ contentOf (PjhJson.ascii '"') rest := fun h rest =>
    contentOf_append fun c hmem => ⟨(h.ascii c hmem).2.1, (h.ascii c hmem).2.2⟩
  cases h with
  | unescaped c hc hquote hescape => exact .inl ⟨c, rfl, rfl, hc, hquote, hescape⟩
  | short c value hshort =>
      refine .inr ⟨[c], rfl, ?_, ?_, fun rest => ?_⟩
      · exact List.forall_mem_singleton.mpr hshort.ascii.1
      · exact wellFormed_ascii (List.forall_mem_singleton.mpr hshort.ascii.2)
      · exact contentOf_escape hne c
  | unicode digits value hdigit =>
      refine .inr ⟨_, rfl, ?_, wellFormed_sequence (sequence_encode value), fun rest => ?_⟩
      · rw [List.forall_mem_cons]
        exact ⟨by decide, fun c hmem => (hdigit.ascii c hmem).1⟩
      · rw [List.cons_append, List.cons_append, contentOf_escape hne, hdigits hdigit]
        rfl
  | pair digits digits' high low value hdigit hdigit' _ _ _ _ _ =>
      refine .inr ⟨_, rfl, ?_, wellFormed_sequence (sequence_encode value), fun rest => ?_⟩
      · simp only [List.forall_mem_cons, List.forall_mem_append]
        exact ⟨by decide, fun c hmem => (hdigit.ascii c hmem).1, by decide, by decide,
          fun c hmem => (hdigit'.ascii c hmem).1⟩
      · simp only [List.cons_append, List.append_assoc]
        rw [contentOf_escape hne, hdigits hdigit, contentOf_escape hne, hdigits hdigit']

theorem contentOf_characters {content value : Bytes} (h : Rfc.Characters content value)
    (rest : Bytes) :
    contentOf (ascii '"') (content ++ ascii '"' :: rest) = content := by
  induction h with
  | nil => exact contentOf_quote _ _
  | cons spelling value content values hcharacter _ ih =>
      rw [List.append_assoc]
      rcases hcharacter.spelled with ⟨c, rfl, -, -, hquote, hescape⟩ | ⟨more, -, -, -, hcontent⟩
      · rw [List.singleton_append, contentOf_cons hquote hescape, ih]
        rfl
      · rw [hcontent, ih]

/-- A string with well-formed content denotes well-formed text. `part` is the beginning of a sequence
that the content completes. -/
theorem wellFormed_characters {content value : Bytes} (h : Rfc.Characters content value) :
    ∀ part, WellFormed (part ++ content) → WellFormed (part ++ value) := by
  induction h with
  | nil => exact fun _ h => h
  | cons spelling value content values hcharacter _ ih =>
      intro part hpart
      rcases hcharacter.spelled with ⟨c, rfl, rfl, -⟩ | ⟨more, rfl, hmore, hvalue, -⟩
      · rw [← List.append_assoc] at hpart ⊢
        exact ih _ hpart
      · rw [List.cons_append] at hpart
        obtain ⟨hbefore, hafter⟩ := hpart.split (by decide) rfl
        have hcontent := (wellFormed_ascii hmore).right hafter
        exact hbefore.append (hvalue.append (ih [] hcontent))

end PjhJson
