import PjhJson.Json5Document
import PjhJson.StrictUtf8

/-! The value that a text begins with, whatever stands behind it, in the terms of the grammars. It is
what the reading of a value finds there. -/

namespace PjhJson

open Grammar Prog Scanner Utf8

variable {platform : Platform} {cfg : Config} {json rest : Bytes} {value : Ast}

/-- Behind whitespace the text begins with this value of RFC 8259, which is within the limits, and goes
on with `rest`. A number does not go on there. The last two conditions are those of the options: no
object repeats a key, and the bytes between the quotes of every string are well-formed. -/
structure Rfc.Ahead (platform : Platform) (cfg : Config) (json : Bytes) (value : Ast) (rest : Bytes) :
    Prop where
  spelled : ∃ ws text, Rfc.Whitespace ws ∧ Rfc.Value text value ∧ json = ws ++ (text ++ rest)
  ended : ∀ token, value = .number token → Reading.NumberEnded platform token rest
  fits : Reading.Fits platform cfg 0 value
  distinct : cfg.strictDuplicateKeys = true → value.DistinctKeys
  wellFormed : cfg.strictUtf8 = true → ∃ strings,
    stringContents json = strings ++ stringContents rest ∧ ∀ string ∈ strings, WellFormed string.2

/-- The text begins with the tokens of this JSON5 value, which is admitted, and goes on with `rest`. The
trivia in front of a token may be a comment without an end, if the token is the last byte of the text. A
number does not go on behind its token. -/
structure Json5.Ahead (platform : Platform) (cfg : Config) (json : Bytes) (value : Ast)
    (rest : Bytes) : Prop where
  spelled : ∃ tokens, Json5.Value platform cfg tokens value ∧ Json5.Reaches True tokens json rest
  closes : Json5.Closes platform value rest
  admitted : Json5.Admitted cfg value

/-- The text without the byte order mark that is dropped on demand. -/
def Reading.dropBom (cfg : Config) (json : Bytes) : Bytes :=
  if cfg.stripBom ∧ startsWithUtf8Bom json then json.drop 3 else json

/-- The text begins with a value. -/
def BeginsWithValue (platform : Platform) (cfg : Config) (json : Bytes) : Prop :=
  ∃ value rest, if cfg.json5 then Json5.Ahead platform cfg (Reading.dropBom cfg json) value rest
    else Rfc.Ahead platform cfg (Reading.dropBom cfg json) value rest

/-- The text is one value with nothing but whitespace around it. -/
def IsDocument (platform : Platform) (cfg : Config) (json : Bytes) : Prop :=
  ∃ value, if cfg.json5 then
      Json5.Admitted cfg value ∧ ∃ tokens, Json5.Document tokens json ∧
        Json5.Value platform cfg tokens value
    else ∃ rest, Rfc.Ahead platform cfg (Reading.dropBom cfg json) value rest ∧ Rfc.Whitespace rest

namespace Reading

theorem dropBom_eq (cfg : Config) (json : Bytes) :
    dropBom cfg json = if cfg.stripBom && startsWithUtf8Bom json then json.drop 3 else json := by
  simp only [dropBom, Bool.and_eq_true]

theorem length_dropBom (cfg : Config) (json : Bytes) : (dropBom cfg json).length ≤ json.length := by
  unfold dropBom
  split
  · rw [List.length_drop]
    exact Nat.sub_le _ _
  · exact Nat.le_refl _

theorem skipLeadingBom_whole (cfg : Config) (json : Bytes) :
    skipLeadingBom cfg 0 { rest := json } = .ok ((), { rest := dropBom cfg json }) := by
  have hbody : body 0 { rest := json } = json := List.take_length
  rw [skipLeadingBom, Prog.modify_apply, hbody, dropBom]
  split <;> rfl

/-- A document begins with its value. -/
theorem readText_whole (json : Bytes) :
    readText skipWhitespace platform cfg 0 { rest := json } =
      (do
        let value ← readValue skipWhitespace platform cfg 0 json.length
        failIfRecorded
        skipWhitespace cfg 0
        failIfRecorded
        let r ← .get
        if r.atEnd 0 then pure value else failHere .extraCharactersAfterValue : Prog Reading Ast)
        { rest := dropBom cfg json } := by
  rw [readText, Prog.bind_get, Prog.bind_of_ok (skipLeadingBom_whole cfg json)]

/-! ### RFC 8259 -/

/-- Without the two options. -/
theorem lenient_off (hjson5 : cfg.json5 = false) : Lenient ((cfg.unique false).gate false) :=
  ⟨hjson5, rfl, rfl⟩

theorem gate_of_eq {on : Bool} (h : cfg.strictUtf8 = on) : cfg.gate on = cfg := by
  subst h
  rfl

/-- The value is no literal, or the byte behind it may follow one. -/
theorem behind_of_ahead (h : Rfc.Ahead platform cfg json value rest)
    (hliteral : value = .null ∨ (∃ b, value = .boolean b) → isAfterLiteral (rest.headD 0) = true) :
    Behind platform value rest := by
  cases value with
  | null => exact hliteral (.inl rfl)
  | boolean b => exact hliteral (.inr ⟨b, rfl⟩)
  | number token => exact h.ended token rfl
  | string value => trivial
  | array elements => trivial
  | object members => trivial

/-- The value ahead is read, where a literal is followed by what may follow it. -/
theorem readValue_of_ahead (hjson5 : cfg.json5 = false) (h : Rfc.Ahead platform cfg json value rest)
    (hbehind : Behind platform value rest) {fuel : Nat} (hfuel : json.length ≤ fuel) :
    readValue skipWhitespace platform cfg 0 fuel { rest := json } = .ok (value, { rest := rest }) := by
  obtain ⟨ws, text, hws, hvalue, hjson⟩ := h.spelled
  have hlength : text.length ≤ fuel := by
    rw [hjson, List.length_append, List.length_append] at hfuel
    omega
  have hlenient := readValue_append (lenient_off hjson5) hws hvalue ⟨h.fits.nesting, h.fits.numbers⟩
    hbehind hlength
  rw [← hjson] at hlenient
  refine readValue_unique_iff.mpr ⟨?_, h.distinct⟩
  cases hgate : cfg.strictUtf8 with
  | false => rwa [@gate_of_eq (cfg.unique false) _ hgate] at hlenient
  | true =>
      have hspans := @spans_stringContents platform (cfg.unique false) hjson5
      obtain ⟨-, strings, hstrings, hresult⟩ := gated_readValue hspans value _ hlenient rfl
      obtain ⟨strings', hstrings', hall⟩ := h.wellFormed hgate
      obtain rfl : strings = strings' := List.append_cancel_right (hstrings.symm.trans hstrings')
      rcases hresult fun _ _ => trivial with ⟨-, -, hstrict⟩ | ⟨failure, r, hrejects, -⟩
      · rwa [@gate_of_eq (cfg.unique false) _ hgate] at hstrict
      · exact absurd hall hrejects.not_wellFormed

/-- The literals of the grammar have no quotes. -/
theorem stringContents_literal {ws text : Bytes} (hws : Rfc.Whitespace ws)
    (hvalue : Rfc.Value text value) (hliteral : value = .null ∨ ∃ b, value = .boolean b)
    (rest : Bytes) : stringContents (ws ++ (text ++ rest)) = stringContents rest := by
  have hspace : ∀ c ∈ ws, c ≠ ascii '"' := by
    rintro c hmem rfl
    exact absurd (hws _ hmem) (by decide)
  have htext : ∀ c ∈ text, c ≠ ascii '"' := by
    rcases hliteral with rfl | ⟨b, rfl⟩ <;> cases hvalue <;> decide +kernel
  rw [stringContents_append hspace, stringContents_append htext]

/-- What is read is the value ahead. -/
theorem ahead_of_readValue (hjson5 : cfg.json5 = false) {fuel : Nat} (hfuel : json.length ≤ fuel)
    {r : Reading} (h : readValue skipWhitespace platform cfg 0 fuel { rest := json } = .ok (value, r)) :
    Rfc.Ahead platform cfg json value r.rest := by
  obtain ⟨hunique, hdistinct⟩ := readValue_unique_iff.mp h
  obtain ⟨ws, text, hws, hvalue, hjson, hfits⟩ := yields_readValue hjson5 value r h
  have hjson : json = ws ++ (text ++ r.rest) := hjson
  have hended : ∀ token, value = .number token → NumberEnded platform token r.rest := by
    rintro token rfl
    have hend : atEnd 0 { rest := text ++ r.rest } = false := by
      obtain ⟨c, more, rfl, -⟩ := value_start hvalue
      simp [atEnd]
    rw [hjson, readValue, Prog.bind_of_ok (skipWhitespace_append hjson5 hws
      (stops_value hvalue r.rest) none), bind_peek, Prog.bind_get, hend, if_neg (by simp)] at h
    cases hvalue with
    | number _ htoken =>
        rw [readValueAt_number htoken] at h
        exact numberEnded_of_readNumber hjson5 h
  refine ⟨⟨ws, text, hws, hvalue, hjson⟩, hended, hfits, hdistinct, fun hgate => ?_⟩
  by_cases hliteral : value = .null ∨ ∃ b, value = .boolean b
  · refine ⟨[], ?_, fun _ hmem => absurd hmem List.not_mem_nil⟩
    rw [hjson, stringContents_literal hws hvalue hliteral]
    rfl
  -- without the gate the same value is read, and the gate has let its strings pass
  have hbehind : Behind platform value r.rest := by
    cases value with
    | null => exact absurd (.inl rfl) hliteral
    | boolean b => exact absurd (.inr ⟨b, rfl⟩) hliteral
    | number token => exact hended token rfl
    | string value => trivial
    | array elements => trivial
    | object members => trivial
  have hlength : text.length ≤ fuel := by
    rw [hjson, List.length_append, List.length_append] at hfuel
    omega
  have hlenient := readValue_append (lenient_off hjson5) hws hvalue ⟨hfits.nesting, hfits.numbers⟩
    hbehind hlength
  rw [← hjson] at hlenient
  have hspans := @spans_stringContents platform (cfg.unique false) hjson5
  obtain ⟨-, strings, hstrings, hresult⟩ := gated_readValue hspans value _ hlenient rfl
  rcases hresult fun _ _ => trivial with ⟨hall, -, -⟩ | ⟨failure, r', -, hstrict, -⟩
  · exact ⟨strings, hstrings, hall⟩
  · rw [@gate_of_eq (cfg.unique false) _ hgate, hunique] at hstrict
    cases hstrict

/-- The text begins with `true`, `false` or `null` behind whitespace, whatever follows. -/
def LiteralAhead (cfg : Config) (json : Bytes) : Prop :=
  cfg.json5 = false ∧ (literalHere { rest := json.dropWhile isWhitespace }).isSome = true

theorem ahead_of_literal {value : Ast} {length : Nat}
    (h : literalHere { rest := json.dropWhile isWhitespace } = some (value, length)) :
    ∃ rest, Rfc.Ahead platform cfg json value rest := by
  have hws : Rfc.Whitespace (json.takeWhile isWhitespace) := fun c hmem =>
    isWhitespace_iff.mp (List.mem_takeWhile_imp hmem)
  have hahead : ∀ {text : Bytes} {n : Nat}, Rfc.Value text value →
      (value = .null ∨ ∃ b, value = .boolean b) → (json.dropWhile isWhitespace).take n = text →
      ∃ rest, Rfc.Ahead platform cfg json value rest := by
    intro text n hvalue hliteral htext
    have hjson : json = json.takeWhile isWhitespace ++ (text ++ (json.dropWhile isWhitespace).drop n) := by
      rw [← htext, List.take_append_drop, List.takeWhile_append_dropWhile]
    refine ⟨_, ⟨_, text, hws, hvalue, hjson⟩, ?_, ?_, fun _ => ?_,
      fun _ => ⟨[], ?_, fun _ hmem => absurd hmem List.not_mem_nil⟩⟩
    · rintro token rfl
      simp at hliteral
    · refine fits_scalar (.inr (Nat.zero_le _)) ?_ ?_
      · rcases hliteral with rfl | ⟨b, rfl⟩ <;> simp [Ast.nesting]
      · rcases hliteral with rfl | ⟨b, rfl⟩ <;> simp [Ast.numbers]
    · rcases hliteral with rfl | ⟨b, rfl⟩
      · exact .null
      · exact .boolean b
    · conv_lhs => rw [hjson]
      rw [stringContents_literal hws hvalue hliteral]
      rfl
  rw [literalHere] at h
  split_ifs at h with htrue hnull hfalse
  · cases h
    exact hahead .boolTrue (.inr ⟨true, rfl⟩) htrue
  · cases h
    exact hahead .null (.inl rfl) hnull
  · cases h
    exact hahead .boolFalse (.inr ⟨false, rfl⟩) hfalse

theorem literal_of_ahead (h : Rfc.Ahead platform cfg json value rest)
    (hliteral : value = .null ∨ ∃ b, value = .boolean b) :
    (literalHere { rest := json.dropWhile isWhitespace }).isSome = true := by
  obtain ⟨ws, text, hws, hvalue, rfl⟩ := h.spelled
  rw [dropWhile_run (fun c hc => isWhitespace_iff.mpr (hws c hc)) (stops_value hvalue rest)]
  rcases hliteral with rfl | ⟨b, rfl⟩ <;> cases hvalue <;> rfl

/-- A whole text is its value with whitespace behind it. -/
theorem readText_rfc_iff (hjson5 : cfg.json5 = false) :
    (∃ r, readText skipWhitespace platform cfg 0 { rest := json } = .ok (value, r)) ↔
      ∃ rest, readValue skipWhitespace platform cfg 0 json.length { rest := dropBom cfg json } =
        .ok (value, { rest := rest }) ∧ Rfc.Whitespace rest := by
  rw [readText_whole]
  constructor
  · rintro ⟨r, h⟩
    obtain ⟨value', ⟨rest, failure⟩, hvalue, h⟩ := Json5.bind_ok h
    obtain ⟨_, r₂, hfirst, h⟩ := Json5.bind_ok h
    obtain ⟨rfl, hclear⟩ := failIfRecorded_ok hfirst
    obtain rfl : failure = none := hclear
    rw [Prog.bind_of_ok (skipWhitespace_eq hjson5 rest none)] at h
    obtain ⟨_, r₄, hsecond, h⟩ := Json5.bind_ok h
    obtain ⟨rfl, -⟩ := failIfRecorded_ok hsecond
    rw [Prog.bind_get] at h
    split at h
    · rename_i hend
      cases h
      have hnil : rest.dropWhile isWhitespace = [] :=
        List.length_eq_zero_iff.mp (Nat.le_zero.mp (of_decide_eq_true hend))
      refine ⟨rest, hvalue, fun c hmem => isWhitespace_iff.mp ?_⟩
      rw [List.dropWhile_eq_nil_iff] at hnil
      exact hnil c hmem
    · cases h
  · rintro ⟨rest, hvalue, hrest⟩
    have hrecorded : ∀ rest, failIfRecorded { rest := rest } = .ok ((), { rest := rest }) :=
      fun _ => rfl
    have hskip := @skipWhitespace_append cfg 0 hjson5 _ _ hrest (stops_nil _) none
    rw [List.append_nil] at hskip
    refine ⟨{ rest := [] }, ?_⟩
    rw [Prog.bind_of_ok hvalue, Prog.bind_of_ok (hrecorded _), Prog.bind_of_ok hskip,
      Prog.bind_of_ok (hrecorded _), Prog.bind_get]
    rfl

/-- What is read as a whole text is a text of the grammar. -/
theorem text_of_readText (hjson5 : cfg.json5 = false) {r : Reading}
    (h : readText skipWhitespace platform cfg 0 { rest := json } = .ok (value, r)) :
    Rfc.Text (dropBom cfg json) value := by
  obtain ⟨rest, hvalue, hrest⟩ := (readText_rfc_iff hjson5).mp ⟨r, h⟩
  obtain ⟨ws, text, hws, hvalue, hjson⟩ :=
    (ahead_of_readValue hjson5 (length_dropBom cfg json) hvalue).spelled
  rw [hjson]
  exact .mk ws text rest value hws hvalue hrest

/-! ### JSON5 -/

theorem json5Ahead_iff (hjson5 : cfg.json5 = true) {fuel : Nat} (hfuel : json.length ≤ fuel) :
    Json5.Ahead platform cfg json value rest ↔
      ∃ failure, readValue skipWhitespace platform cfg 0 fuel { rest := json } = .ok (value, ⟨rest, failure⟩) := by
  constructor
  · rintro ⟨⟨tokens, hvalue, hreaches⟩, hcloses, hnests, hdistinct⟩
    obtain ⟨failure, hread⟩ := @Json5.readValue_reaches platform (cfg.unique false) hjson5 rfl _ _
      (hvalue.config (cfg.unique false) rfl) _ _ hreaches hnests hcloses _ hfuel
    exact ⟨failure, readValue_unique_iff.mpr ⟨hread, hdistinct⟩⟩
  · rintro ⟨failure, hread⟩
    obtain ⟨-, hnests, hcloses, tokens, hvalue, hreaches⟩ :=
      @Json5.found_readValue platform cfg _ True hjson5 _ _ _ hread (.inl trivial)
    exact ⟨⟨tokens, hvalue, hreaches⟩, hcloses, hnests, (readValue_unique_iff.mp hread).2⟩

/-! ### Both -/

/-- A text begins with a value when one is read there, or when it begins with a literal: what stands
behind a literal is checked, but that is no part of the value. -/
theorem beginsWithValue_iff : BeginsWithValue platform cfg json ↔
    (∃ value r, readValue skipWhitespace platform cfg 0 json.length { rest := dropBom cfg json } = .ok (value, r)) ∨
      LiteralAhead cfg (dropBom cfg json) := by
  have hfuel := length_dropBom cfg json
  rw [BeginsWithValue]
  cases hjson5 : cfg.json5 with
  | true =>
      have hno : ¬LiteralAhead cfg (dropBom cfg json) := fun h =>
        Bool.false_ne_true (h.1.symm.trans hjson5)
      simp only [if_true, json5Ahead_iff hjson5 hfuel, hno, or_false]
      constructor
      · rintro ⟨value, rest, failure, hread⟩
        exact ⟨value, _, hread⟩
      · rintro ⟨value, ⟨rest, failure⟩, hread⟩
        exact ⟨value, rest, failure, hread⟩
  | false =>
      simp only [Bool.false_eq_true, if_false]
      constructor
      · rintro ⟨value, rest, hahead⟩
        by_cases hliteral : value = .null ∨ ∃ b, value = .boolean b
        · exact .inr ⟨hjson5, literal_of_ahead hahead hliteral⟩
        · exact .inl ⟨value, _, readValue_of_ahead hjson5 hahead
            (behind_of_ahead hahead fun h => absurd h hliteral) hfuel⟩
      · rintro (⟨value, r, hread⟩ | ⟨-, hsome⟩)
        · exact ⟨value, r.rest, ahead_of_readValue hjson5 hfuel hread⟩
        · obtain ⟨⟨value, length⟩, hliteral⟩ := Option.isSome_iff_exists.mp hsome
          exact ⟨value, ahead_of_literal hliteral⟩

/-- What `parse_copy` reads as a whole text is a document. -/
theorem isDocument_iff : IsDocument platform cfg json ↔
    ∃ value r, readText skipWhitespace platform cfg 0 { rest := json } = .ok (value, r) := by
  refine exists_congr fun value => ?_
  cases hjson5 : cfg.json5 with
  | true =>
      rw [if_pos rfl, Json5.readText_admitted_iff hjson5]
  | false =>
      rw [if_neg Bool.false_ne_true]
      constructor
      · rintro ⟨rest, hahead, hrest⟩
        have hfollow : Follow (rest ++ []) := follow_whitespace hrest (stops_nil _)
        rw [List.append_nil] at hfollow
        have hread := readValue_of_ahead hjson5 hahead (behind_of_follow hahead.fits hfollow)
          (length_dropBom cfg json)
        exact (readText_rfc_iff hjson5).mpr ⟨rest, hread, hrest⟩
      · rintro ⟨r, hread⟩
        obtain ⟨rest, hvalue, hrest⟩ := (readText_rfc_iff hjson5).mp ⟨r, hread⟩
        exact ⟨rest, ahead_of_readValue hjson5 (length_dropBom cfg json) hvalue, hrest⟩

end Reading

end PjhJson
