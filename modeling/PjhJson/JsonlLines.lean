import PjhJson.DuplicateKeys
import PjhJson.GrammarComplete
import PjhJson.LineReading
import PjhJson.OutFrame
import PjhJson.RefineLines

/-! `parse_jsonl` on whole texts: it succeeds when each line that is not blank is parsed on its own, and its array
holds what these lines are parsed to. A line is read with the lines behind it in sight, so that a value may be
read over the end of its line; the rest of the lines is then no sequence of texts any more, and one of them
fails. -/

namespace PjhJson

open Grammar

/-! ### Lists in step -/

section InStep

variable {α β γ : Type} {R S : α → β → Prop} {items : List α}

theorem exists_of_forall₂ {others : List β} (h : List.Forall₂ R items others) : ∀ a ∈ items, ∃ b, R a b := by
  have hboth : List.Forall₂ (fun a b => (∃ b, R a b) ∧ R a b) items others := h.imp fun a b hab => ⟨⟨b, hab⟩, hab⟩
  exact ((List.forall₂_and_left items others).mp hboth).1

theorem forall₂_congr_mem {others : List β} (h : ∀ a ∈ items, ∀ b, R a b ↔ S a b) :
    List.Forall₂ R items others ↔ List.Forall₂ S items others := by
  have himp : ∀ {R S : α → β → Prop}, (∀ a ∈ items, ∀ b, R a b → S a b) → List.Forall₂ R items others →
      List.Forall₂ S items others := fun hsub hall =>
    ((List.forall₂_and_left items others).mpr ⟨hsub, hall⟩).imp fun _ b hab => hab.1 b hab.2
  exact ⟨himp fun a hmem b => (h a hmem b).mp, himp fun a hmem b => (h a hmem b).mpr⟩

/-- What is related through the values of a function is related to values of the function. -/
theorem forall₂_exists_iff {f : β → γ} {images : List γ} :
    List.Forall₂ (fun a c => ∃ b, R a b ∧ f b = c) items images ↔
      ∃ others, List.Forall₂ R items others ∧ others.map f = images := by
  constructor
  · intro h
    induction h with
    | nil => exact ⟨[], .nil, rfl⟩
    | cons hitem _ ih =>
        obtain ⟨b, hrelated, rfl⟩ := hitem
        obtain ⟨others, hothers, rfl⟩ := ih
        exact ⟨b :: others, .cons hrelated hothers, rfl⟩
  · rintro ⟨others, hothers, rfl⟩
    rw [List.forall₂_map_right_iff]
    exact hothers.imp fun _ b hrelated => ⟨b, hrelated, rfl⟩

end InStep

namespace Reading

variable {platform : Platform} {cfg : Config}

/-- The lines of a text that are not blank, without their ends. -/
def linesOf (cfg : Config) (text : Bytes) : List Bytes :=
  ((text.splitOn 0x0A).map withoutReturn).filter fun line => !isBlankLine cfg line

example : linesOf {} (asciiBytes "1\r\n \n\n[2]") = [asciiBytes "1", asciiBytes "[2]"] := by decide

theorem isBlankLine_nil : isBlankLine cfg [] = true := by
  rw [isBlankLine]
  split <;> rfl

theorem linesOf_nil : linesOf cfg [] = [] := by
  rw [linesOf, List.splitOn_nil, List.map_singleton, List.filter_singleton]
  have hblank : isBlankLine cfg (withoutReturn []) = true := isBlankLine_nil
  rw [hblank, Bool.not_true]
  rfl

theorem filter_lines (line : Bytes) (rest : List Bytes) :
    (line :: rest).filter (fun line => !isBlankLine cfg line) =
      if isBlankLine cfg line then rest.filter (fun line => !isBlankLine cfg line)
      else line :: rest.filter (fun line => !isBlankLine cfg line) := by
  rw [List.filter_cons]
  cases isBlankLine cfg line <;> rfl

/-- The first line and the lines behind it. -/
theorem linesOf_eq (text : Bytes) : linesOf cfg text =
    if isBlankLine cfg (lineOf text) then linesOf cfg (linesAfter text)
    else lineOf text :: linesOf cfg (linesAfter text) := by
  have hsplit := List.takeWhile_append_dropWhile (p := (· != (0x0A : UInt8))) (l := text)
  have hline : (0x0A : UInt8) ∉ text.takeWhile (· != 0x0A) := fun hmem =>
    absurd (List.mem_takeWhile_imp hmem) (by decide)
  cases hrest : text.dropWhile (· != 0x0A) with
  | nil =>
      rw [hrest, List.append_nil] at hsplit
      have hafter : linesAfter text = [] := by rw [linesAfter, hrest]; rfl
      have hsingle : text.splitOn 0x0A = [text.takeWhile (· != 0x0A)] := by
        conv_lhs => rw [← hsplit]
        exact List.splitOn_eq_singleton hline
      rw [hafter, linesOf_nil, linesOf, hsingle, List.map_singleton, filter_lines, ← lineOf, List.filter_nil]
  | cons c rest =>
      obtain rfl : c = 0x0A := by
        have hstop := Scanner.stops_dropWhile (· != (0x0A : UInt8)) text
        simpa using hstop c (by rw [hrest]; rfl)
      rw [hrest] at hsplit
      have hafter : linesAfter text = rest := by rw [linesAfter, hrest]; rfl
      have hcons : text.splitOn 0x0A = text.takeWhile (· != 0x0A) :: rest.splitOn 0x0A := by
        conv_lhs => rw [← hsplit]
        exact List.splitOn_append_cons_self_of_not_mem hline rest
      rw [hafter, linesOf, hcons, List.map_cons, filter_lines, ← lineOf]
      rfl

/-- A line is read to this value when it is the whole text. -/
def ReadsAlone (platform : Platform) (cfg : Config) (line : Bytes) (value : Ast) : Prop :=
  ∃ r, readText skipWhitespace platform (lineConfig cfg) 0 { rest := line } = .ok (value, r)

theorem isWhitespace_of_mem {ws : Bytes} (h : Rfc.Whitespace ws) : ∀ c ∈ ws, isWhitespace c = true :=
  fun c hmem => isWhitespace_iff.mpr (h c hmem)

theorem lineEnd_whitespace (text : Bytes) : Rfc.Whitespace (lineEnd text) := by
  refine fun c hmem => ?_
  rcases List.mem_append.mp hmem with hmem | hmem
  · split at hmem
    · exact .inr (.inr (.inr (List.mem_singleton.mp hmem)))
    · exact absurd hmem List.not_mem_nil
  · have hstop := Scanner.stops_dropWhile (· != (0x0A : UInt8)) text
    cases hrest : text.dropWhile (· != 0x0A) with
    | nil => rw [hrest] at hmem; exact absurd hmem List.not_mem_nil
    | cons d rest =>
        rw [hrest] at hmem
        obtain rfl : c = d := List.mem_singleton.mp hmem
        exact .inr (.inr (.inl (by simpa using hstop c (by rw [hrest]; rfl))))

/-- What lies behind a line begins with the end of the line. -/
theorem ends_lineEnd {text : Bytes} (h : lineEnd text ++ linesAfter text ≠ []) :
    Ends (lineEnd text ++ linesAfter text) := by
  have hsealed := sealed_lineOf text
  rw [drop_lineOf] at hsealed
  have hspace := lineEnd_whitespace text
  cases hend : lineEnd text with
  | cons c rest =>
      rw [hend] at hspace hsealed
      exact ⟨c, rest ++ linesAfter text, rfl, isWhitespace_of_mem hspace c List.mem_cons_self, hsealed⟩
  | nil =>
      have hnone : (text.dropWhile (· != 0x0A)).take 1 = [] := (List.append_eq_nil_iff.mp hend).2
      have hdrop : text.dropWhile (· != 0x0A) = [] := by
        cases hrest : text.dropWhile (· != 0x0A) with
        | nil => rfl
        | cons c rest => rw [hrest] at hnone; cases hnone
      rw [hend, linesAfter, hdrop] at h
      exact absurd rfl h

theorem wellNested_blank (hjson5 : cfg.json5 = false) {line : Bytes} (h : isBlankLine cfg line = true) :
    WellNested line := by
  rw [isBlankLine, hjson5, if_neg Bool.false_ne_true, List.all_eq_true] at h
  exact wellNested_whitespace fun c hmem => isWhitespace_iff.mp (h c hmem)

theorem wellNested_alone (hjson5 : cfg.json5 = false) {line : Bytes} {value : Ast}
    (h : ReadsAlone platform cfg line value) : WellNested line := by
  obtain ⟨r, hread⟩ := h
  have hconfig : (lineConfig cfg).json5 = false := hjson5
  exact wellNested_text (yields_readText hconfig rfl line value r hread).1

/-- Lines that are texts of their own are a text that is nested by itself. -/
theorem wellNested_lines (hjson5 : cfg.json5 = false) {text : Bytes} {values : List Ast}
    (h : List.Forall₂ (ReadsAlone platform cfg) (linesOf cfg text) values) : WellNested text := by
  induction hlength : text.length using Nat.strong_induction_on generalizing text values with
  | _ length ih =>
      by_cases hnil : text = []
      · rw [hnil]
        exact wellNested_whitespace fun c hmem => absurd hmem List.not_mem_nil
      have hshorter : (linesAfter text).length < length := hlength ▸ length_linesAfter hnil
      have happend : WellNested (lineOf text) → WellNested (linesAfter text) → WellNested text := by
        intro hline hafter
        rw [text_eq text]
        exact hline.append ((wellNested_whitespace (lineEnd_whitespace text)).append hafter)
      rw [linesOf_eq] at h
      split at h
      · rename_i hblank
        exact happend (wellNested_blank hjson5 hblank) (ih _ hshorter h rfl)
      · obtain ⟨value, rest, hline, hafter, rfl⟩ := List.forall₂_cons_left_iff.mp h
        exact happend (wellNested_alone hjson5 hline) (ih _ hshorter hafter rfl)

/-- When the lines behind it are texts, a line is read as a text of its own. -/
theorem readLine_iff {text : Bytes} (hblank : isBlankLine cfg (lineOf text) = false) {values : List Ast}
    (hafter : List.Forall₂ (ReadsAlone platform cfg) (linesOf cfg (linesAfter text)) values) (value : Ast) :
    (∃ r, readLine platform cfg text = .ok (value, r)) ↔ ReadsAlone platform cfg (lineOf text) value := by
  obtain ⟨more, hmore⟩ : ∃ more, more = lineEnd text ++ linesAfter text := ⟨_, rfl⟩
  have htext : text = lineOf text ++ more := hmore ▸ text_eq text
  have hread : readLine platform cfg text =
      readText skipWhitespace platform (lineConfig cfg) more.length { rest := lineOf text ++ more } := by
    rw [readLine, drop_lineOf, ← hmore, ← htext]
  rw [hread]
  by_cases hnil : more = []
  · rw [hnil, List.append_nil]
    rfl
  · refine readText_line (hmore ▸ ends_lineEnd (hmore ▸ hnil)) rfl (fun hjson5 => ?_) (fun hjson5 => ?_) value
    · have hline := hblank
      rw [isBlankLine, show cfg.json5 = false from hjson5, if_neg Bool.false_ne_true] at hline
      simpa using hline
    · rw [hmore]
      exact (wellNested_whitespace (lineEnd_whitespace text)).append (wellNested_lines hjson5 hafter)

/-- Reading by lines is reading each line that is not blank. -/
theorem readLines_iff {fuel : Nat} {text : Bytes} (hfuel : text.length < fuel) (values : List Ast) :
    readLines platform cfg fuel text = .ok values ↔
      List.Forall₂ (ReadsAlone platform cfg) (linesOf cfg text) values := by
  induction fuel generalizing text values with
  | zero => omega
  | succ fuel ih =>
      rw [readLines]
      by_cases hnil : text = []
      · rw [if_pos hnil, hnil, linesOf_nil, List.forall₂_nil_left_iff]
        exact ⟨fun h => (Res.ok.inj h).symm, fun h => by rw [h]⟩
      have hshorter := length_linesAfter hnil
      have hrest : ∀ values, readLines platform cfg fuel (linesAfter text) = .ok values ↔
          List.Forall₂ (ReadsAlone platform cfg) (linesOf cfg (linesAfter text)) values := ih (by omega)
      rw [if_neg hnil, linesOf_eq]
      cases hblank : isBlankLine cfg (lineOf text) with
      | true => rw [if_pos rfl, if_pos rfl, hrest]
      | false =>
          rw [if_neg Bool.false_ne_true, if_neg Bool.false_ne_true, List.forall₂_cons_left_iff]
          constructor
          · intro h
            cases hread : readLine platform cfg text with
            | stuck => rw [hread] at h; cases h
            | error r => rw [hread] at h; cases h
            | ok result =>
                obtain ⟨value, r⟩ := result
                rw [hread] at h
                obtain ⟨after, hafter, hvalues⟩ := Res.bind_eq_ok.mp h
                obtain rfl := Res.ok.inj hvalues
                have hlines := (hrest after).mp hafter
                exact ⟨value, after, (readLine_iff hblank hlines value).mp ⟨r, hread⟩, hlines, rfl⟩
          · rintro ⟨value, after, hline, hlines, rfl⟩
            obtain ⟨r, hread⟩ := (readLine_iff hblank hlines value).mpr hline
            rw [hread]
            exact Res.bind_eq_ok.mpr ⟨after, (hrest after).mpr hlines, rfl⟩

theorem length_of_mem_linesOf {text line : Bytes} (h : line ∈ linesOf cfg text) : line.length ≤ text.length := by
  induction hlength : text.length using Nat.strong_induction_on generalizing text with
  | _ length ih =>
      by_cases hnil : text = []
      · rw [hnil, linesOf_nil] at h
        exact absurd h List.not_mem_nil
      have hshorter := length_linesAfter hnil
      have hafter : line ∈ linesOf cfg (linesAfter text) → line.length ≤ length := fun hmem =>
        (ih _ (hlength ▸ hshorter) hmem rfl).trans (by omega)
      rw [linesOf_eq] at h
      split at h
      · exact hafter h
      · rcases List.mem_cons.mp h with rfl | hmem
        · exact hlength ▸ length_lineOf_le text
        · exact hafter hmem

end Reading

open Reading

variable (platform : Platform) (cfg : Config)

/-- `parse_jsonl` succeeds with the array of these trees. -/
def ParsesLines (input : Bytes) (trees : List (Json Bytes)) : Prop :=
  ∃ document, parseJsonl platform cfg input = .ok document ∧ document.tree = .array trees

variable {platform cfg}

theorem parsesLines_iff {input : Bytes} {trees : List (Json Bytes)} :
    ParsesLines platform cfg input trees ↔ paddedFits input.length = true ∧
      ∃ values, readJsonLines platform cfg input = .ok values ∧
        values.map (Ast.toJson (tokenNumber platform cfg)) = trees := by
  cases hfits : paddedFits input.length with
  | false =>
      refine iff_of_false ?_ fun h => absurd h.1 Bool.false_ne_true
      rintro ⟨document, hparse, -⟩
      rw [parseJsonl, hfits] at hparse
      cases hparse
  | true =>
      obtain ⟨values, hread, document, hparse, htree⟩ | ⟨error, hread, hparse⟩ :=
        @parseJsonl_spec platform cfg input hfits
      · constructor
        · rintro ⟨document', hparse', htree'⟩
          obtain rfl := Res.ok.inj (hparse.symm.trans hparse')
          exact ⟨rfl, values, hread, Json.array.inj (htree.symm.trans htree')⟩
        · rintro ⟨-, values', hread', rfl⟩
          obtain rfl := Res.ok.inj (hread.symm.trans hread')
          exact ⟨document, hparse, htree⟩
      · constructor
        · rintro ⟨document', hparse', -⟩
          rw [hparse] at hparse'
          cases hparse'
        · rintro ⟨-, values', hread', -⟩
          rw [hread] at hread'
          cases hread'

/-- A line that fits into a buffer is parsed on its own to what it is read to. -/
theorem parses_line_iff {line : Bytes} (hfits : paddedFits line.length = true) (tree : Json Bytes) :
    Parses platform (lineConfig cfg) line tree ↔
      ∃ value, ReadsAlone platform cfg line value ∧ value.toJson (tokenNumber platform cfg) = tree := by
  rw [parses_iff]
  constructor
  · rintro ⟨-, value, r, hread, htree⟩
    exact ⟨value, ⟨r, hread⟩, htree⟩
  · rintro ⟨value, ⟨r, hread⟩, htree⟩
    exact ⟨hfits, value, r, hread, htree⟩

theorem parsesLines_iff_lines {input : Bytes} {trees : List (Json Bytes)} :
    ParsesLines platform cfg input trees ↔ paddedFits input.length = true ∧
      List.Forall₂ (Parses platform (lineConfig cfg)) (linesOf cfg (dropBom cfg input)) trees := by
  have hstart : input.drop (if cfg.stripBom && startsWithUtf8Bom input then 3 else 0) = dropBom cfg input := by
    rw [dropBom_eq]
    split <;> rfl
  have hlength : (dropBom cfg input).length ≤ input.length := by
    rw [← hstart, List.length_drop]
    exact Nat.sub_le _ _
  have hread : ∀ values, readJsonLines platform cfg input = .ok values ↔
      List.Forall₂ (ReadsAlone platform cfg) (linesOf cfg (dropBom cfg input)) values := fun values => by
    rw [readJsonLines, hstart]
    exact readLines_iff (Nat.lt_succ_of_le hlength) values
  rw [parsesLines_iff]
  refine and_congr_right fun hfits => ?_
  have hlines : ∀ line ∈ linesOf cfg (dropBom cfg input), paddedFits line.length = true := by
    intro line hmem
    have hline := (length_of_mem_linesOf hmem).trans hlength
    rw [paddedFits, decide_eq_true_iff] at hfits ⊢
    exact hline.trans hfits
  rw [forall₂_congr_mem fun line hmem tree => parses_line_iff (hlines line hmem) tree, forall₂_exists_iff]
  exact exists_congr fun values => and_congr_left' (hread values)

/-- `parse_jsonl` succeeds exactly when every line that is not blank is parsed by itself, under every
configuration, and its array then holds the trees of these lines, in order: no line is swallowed, repeated or
joined with the next. A byte order mark is dropped at the start of the text only. -/
theorem parseJsonl_lines (platform : Platform) (cfg : Config) (input : Bytes) (trees : List (Json Bytes)) :
    (∃ document, parseJsonl platform cfg input = .ok document ∧ document.tree = .array trees) ↔
      paddedFits input.length = true ∧
        List.Forall₂ (fun line tree => ∃ document, parseCopy platform (lineConfig cfg) line = .ok document ∧
          document.tree = tree) (linesOf cfg (dropBom cfg input)) trees :=
  parsesLines_iff_lines

end PjhJson
