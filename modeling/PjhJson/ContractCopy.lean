import PjhJson.GrammarComplete
import PjhJson.NumberValue
import PjhJson.RefineEntry

/-! What `parse_copy` accepts with the default flags, and the tree it returns. -/

namespace PjhJson

open Grammar

/-! ### Number tokens are parts of the text -/

theorem infix_append_left {token text : Bytes} (before : Bytes) (h : token <:+: text) :
    token <:+: before ++ text := h.trans (List.suffix_append before text).isInfix

theorem infix_append_right {token text : Bytes} (h : token <:+: text) (after : Bytes) :
    token <:+: text ++ after := h.trans (List.prefix_append text after).isInfix

theorem infix_cons {token text : Bytes} (c : UInt8) (h : token <:+: text) :
    token <:+: c :: text := infix_append_left [c] h

theorem infix_of_mem_numbers {text : Bytes} {value : Ast} (h : Rfc.Value text value) :
    ∀ token ∈ value.numbers, token <:+: text := by
  refine @Rfc.Value.rec (fun text value _ => ∀ token ∈ value.numbers, token <:+: text)
    (fun text values _ => ∀ token ∈ Ast.numbersElements values, token <:+: text)
    (fun text members _ => ∀ token ∈ Ast.numbersMembers members, token <:+: text)
    ?null ?boolTrue ?boolFalse ?number ?string ?emptyArray ?array ?emptyObject ?object
    ?oneElement ?moreElements ?oneMember ?moreMembers text value h
  case null | boolTrue | boolFalse => simp [Ast.numbers]
  case number => simp [Ast.numbers]
  case string => simp [Ast.numbers]
  case emptyArray => simp [Ast.numbers, Ast.numbersElements]
  case emptyObject => simp [Ast.numbers, Ast.numbersMembers]
  case array =>
      intro text elements _ ih token hmem
      rw [Ast.numbers] at hmem
      exact infix_cons _ (infix_append_right (ih token hmem) _)
  case object =>
      intro text members _ ih token hmem
      rw [Ast.numbers] at hmem
      exact infix_cons _ (infix_append_right (ih token hmem) _)
  case oneElement =>
      intro before text after value _ _ _ ih token hmem
      simp only [Ast.numbersElements, List.append_nil] at hmem
      exact infix_append_left _ (infix_append_right (ih token hmem) _)
  case moreElements =>
      intro before text after rest value values _ _ _ _ ih ihrest token hmem
      rw [Ast.numbersElements, List.mem_append] at hmem
      refine infix_append_left _ ?_
      rcases hmem with hmem | hmem
      · exact infix_append_right (ih token hmem) _
      · exact infix_append_left _ (infix_append_left _ (infix_cons _ (ihrest token hmem)))
  case oneMember =>
      intro first key second before text after _ value _ _ _ _ _ _ ih token hmem
      simp only [Ast.numbersMembers, List.append_nil] at hmem
      exact infix_append_left _ (infix_append_left _ (infix_append_left _ (infix_cons _
        (infix_append_left _ (infix_append_right (ih token hmem) _)))))
  case moreMembers =>
      intro first key second before text after rest _ value members _ _ _ _ _ _ _ ih ihrest token hmem
      rw [Ast.numbersMembers, List.mem_append] at hmem
      refine infix_append_left _ (infix_append_left _ (infix_append_left _ (infix_cons _
        (infix_append_left _ ?_))))
      rcases hmem with hmem | hmem
      · exact infix_append_right (ih token hmem) _
      · exact infix_append_left _ (infix_append_left _ (infix_cons _ (ihrest token hmem)))

/-- No run of digits is longer than a `uint32_t` can count. -/
def ShortIntegers (json : Bytes) : Prop :=
  ∀ digits, digits <:+: json → (∀ c ∈ digits, Rfc.Digit c) → digits.length < 2 ^ 32

theorem shortIntegers_of_length {json : Bytes} (h : json.length < 2 ^ 32) : ShortIntegers json :=
  fun _ hinfix _ => Nat.lt_of_le_of_lt hinfix.length_le h

theorem length_integer {json text : Bytes} {value : Ast} (hshort : ShortIntegers json)
    (htext : text <:+: json) (hvalue : Rfc.Value text value) :
    ∀ token ∈ value.numbers, ∀ parts : Rfc.NumberParts, parts.text = token →
      parts.integer.length < 2 ^ 32 := by
  rintro token hmem parts rfl
  refine hshort parts.integer ?_ parts.isInteger.1.2
  have hinteger : parts.integer <:+: parts.text :=
    infix_append_left _ (infix_append_right (List.infix_refl _) _)
  exact hinteger.trans ((infix_of_mem_numbers hvalue _ hmem).trans htext)

/-! ### The contract of `parse_copy` -/

theorem plain_default (maxDepth : Nat) : Reading.Plain { maxDepth := maxDepth } :=
  ⟨⟨rfl, rfl, rfl⟩, rfl⟩

theorem tokenNumber_of_scan {platform : Platform} {maxDepth : Nat} {token : Bytes} {number : Number}
    (hscan : scanAndClassify platform token = .ok (number, [])) :
    tokenNumber platform { maxDepth := maxDepth } token = number := by
  rw [tokenNumber, parseNumberToken, if_neg Bool.false_ne_true, hscan]

/-- The values of the number tokens of a text are the numbers that the parser takes them for. -/
theorem accepted_numbers {platform : Platform} (hcorrect : FromCharsCorrect platform) {json : Bytes}
    (hshort : ShortIntegers json) {value : Ast} (htext : Rfc.Text json value) :
    ∀ token ∈ value.numbers, ∀ number,
      scanAndClassify platform token = .ok (number, []) ↔ Rfc.NumberValue platform token number := by
  obtain ⟨before, text, after, value, -, hvalue, -⟩ := htext
  have hlength := length_integer hshort
    (infix_append_left before (infix_append_right (List.infix_refl text) after)) hvalue
  intro token hmem number
  exact scanAndClassify_iff hcorrect (hlength token hmem)

/-- `parse_copy` with the default flags and any depth limit: it succeeds on the texts of RFC 8259
whose nesting is within the limit and whose number tokens have a value, and returns the tree that
the text denotes. -/
theorem parseCopy_iff {platform : Platform} (hcorrect : FromCharsCorrect platform) (maxDepth : Nat)
    {json : Bytes} (hfits : paddedFits json.length = true) (hshort : ShortIntegers json)
    (tree : Json Bytes) :
    (∃ document, parseCopy platform { maxDepth := maxDepth } json = .ok document ∧
      document.tree = tree) ↔
    ∃ ast numberOf, Rfc.Text json ast ∧ (maxDepth = 0 ∨ ast.nesting ≤ maxDepth) ∧
      (∀ token ∈ ast.numbers, Rfc.NumberValue platform token (numberOf token)) ∧
      tree = ast.toJson numberOf := by
  have hplain := plain_default maxDepth
  have hdepth : ∀ value : Ast, Reading.DepthFits { maxDepth := maxDepth } (0 + value.nesting) ↔
      maxDepth = 0 ∨ value.nesting ≤ maxDepth := fun value => by
    rw [Reading.DepthFits, Nat.zero_add]
  rw [parseCopy_eq_ok hfits]
  constructor
  · rintro ⟨value, r, hread, rfl⟩
    obtain ⟨htext, hnesting, hnumbers⟩ := (Reading.readText_iff hplain).mp ⟨r, hread⟩
    refine ⟨value, _, htext, (hdepth value).mp hnesting, fun token hmem => ?_, rfl⟩
    obtain ⟨number, hscan⟩ := hnumbers token hmem
    rw [tokenNumber_of_scan hscan]
    exact (accepted_numbers hcorrect hshort htext token hmem number).mp hscan
  · rintro ⟨value, numberOf, htext, hnesting, hnumbers, rfl⟩
    have hscan : ∀ token ∈ value.numbers,
        scanAndClassify platform token = .ok (numberOf token, []) := fun token hmem =>
      (accepted_numbers hcorrect hshort htext token hmem _).mpr (hnumbers token hmem)
    obtain ⟨r, hread⟩ := (Reading.readText_iff hplain).mpr
      ⟨htext, (hdepth value).mpr hnesting, fun token hmem => ⟨_, hscan token hmem⟩⟩
    refine ⟨value, r, hread, Ast.toJson_congr fun token hmem => ?_⟩
    exact tokenNumber_of_scan (hscan token hmem)

/-- `[0.5,12]` within a depth limit of one. -/
theorem parseCopy_half :
    ∃ document, parseCopy halfPlatform { maxDepth := 1 } (asciiBytes "[0.5,12]") = .ok document ∧
      document.tree = .array [.double ⟨0x3FE0000000000000⟩, .integer 12] := by
  have hshort : ShortIntegers (asciiBytes "[0.5,12]") := shortIntegers_of_length (by decide)
  have hread : Reading.readText Reading.skipWhitespace halfPlatform { maxDepth := 1 } 0
      { rest := asciiBytes "[0.5,12]" } =
      .ok (.array [.number (asciiBytes "0.5"), .number (asciiBytes "12")], _) := rfl
  obtain ⟨htext, -⟩ := (Reading.readText_iff (plain_default 1)).mp ⟨_, hread⟩
  have hnumbers := accepted_numbers halfPlatform_correct hshort htext
  refine (parseCopy_iff halfPlatform_correct 1 (by decide) hshort _).mpr
    ⟨_, tokenNumber halfPlatform {}, htext, Or.inr (by decide), fun token hmem => ?_, rfl⟩
  have hmem' : token = asciiBytes "0.5" ∨ token = asciiBytes "12" := by
    simpa [Ast.numbers, Ast.numbersElements] using hmem
  rcases hmem' with rfl | rfl
  · exact (hnumbers _ hmem _).mp rfl
  · exact (hnumbers _ hmem _).mp rfl

end PjhJson
