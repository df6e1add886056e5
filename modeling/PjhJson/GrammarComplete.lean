import PjhJson.GrammarSound

/-! The texts of the grammar are read with the default flags, to the tree that they have: by
induction on their derivation. The loops have fuel enough because every round consumes a byte, and
the levels of nesting because every level does. -/

namespace PjhJson.Reading

open Grammar Scanner

variable {platform : Platform} {cfg : Config} {tail : Nat}

/-- No flag changes what the reading accepts. -/
structure Lenient (cfg : Config) : Prop where
  json5 : cfg.json5 = false
  strictUtf8 : cfg.strictUtf8 = false
  strictDuplicateKeys : cfg.strictDuplicateKeys = false

/-- The default flags. -/
structure Plain (cfg : Config) : Prop extends Lenient cfg where
  stripBom : cfg.stripBom = false

/-! ### Tokens -/

theorem isWhitespace_iff {c : UInt8} :
    isWhitespace c = true ↔ c = 0x20 ∨ c = 0x09 ∨ c = 0x0A ∨ c = 0x0D := by
  simp [isWhitespace, or_assoc]

/-- What follows a value: the end, whitespace, or the end of an element. -/
def Follow (rest : Bytes) : Prop :=
  Stops (fun c => !(isWhitespace c || c == ascii ',' || c == ascii ']' || c == ascii '}')) rest

theorem follow_cons {c : UInt8} {rest : Bytes} : Follow (c :: rest) ↔
    isWhitespace c = true ∨ c = ascii ',' ∨ c = ascii ']' ∨ c = ascii '}' := by
  rw [Follow, stops_cons]
  simp only [Bool.not_eq_eq_eq_not, Bool.not_false, Bool.or_eq_true, beq_iff_eq, or_assoc]

theorem Follow.stops {p : UInt8 → Bool} {rest : Bytes} (h : Follow rest)
    (hws : p 0x20 = false ∧ p 0x09 = false ∧ p 0x0A = false ∧ p 0x0D = false)
    (hend : p (ascii ',') = false ∧ p (ascii ']') = false ∧ p (ascii '}') = false) :
    Stops p rest := by
  cases rest with
  | nil => exact stops_nil p
  | cons c rest =>
      refine stops_cons.mpr ?_
      rw [follow_cons, isWhitespace_iff] at h
      rcases h with (rfl | rfl | rfl | rfl) | rfl | rfl | rfl
      exacts [hws.1, hws.2.1, hws.2.2.1, hws.2.2.2, hend.1, hend.2.1, hend.2.2]

theorem follow_whitespace {ws rest : Bytes} (hws : Rfc.Whitespace ws) (h : Follow rest) :
    Follow (ws ++ rest) := by
  cases ws with
  | nil => exact h
  | cons c ws => exact follow_cons.mpr (.inl (isWhitespace_iff.mpr (hws c List.mem_cons_self)))

theorem skipWhitespace_append (hjson5 : cfg.json5 = false) {ws rest : Bytes}
    (hws : Rfc.Whitespace ws) (hrest : Stops isWhitespace rest) (failure : Option Failure) :
    skipWhitespace cfg tail ⟨ws ++ rest, failure⟩ = .ok ((), ⟨rest, failure⟩) := by
  rw [skipWhitespace, hjson5, if_neg (by decide), Prog.modify_apply,
    dropWhile_run (fun c hc => isWhitespace_iff.mpr (hws c hc)) hrest]

theorem advance_cons (c : UInt8) (rest : Bytes) (failure : Option Failure) :
    advance 1 ⟨c :: rest, failure⟩ = .ok ((), ⟨rest, failure⟩) := rfl

theorem bind_peek {α : Type} (r : Reading) (next : UInt8 → Prog Reading α) :
    (peek >>= next) r = next r.here r := rfl

theorem peek_cons {α : Type} (c : UInt8) (rest : Bytes) (failure : Option Failure)
    (next : UInt8 → Prog Reading α) :
    (peek >>= next) ⟨c :: rest, failure⟩ = next c ⟨c :: rest, failure⟩ := rfl

theorem isAfterLiteral_of_follow {rest : Bytes} (h : Follow rest) :
    isAfterLiteral (rest.headD 0) = true := by
  cases rest with
  | nil => rfl
  | cons c rest =>
      rw [follow_cons] at h
      rw [List.headD_cons, isAfterLiteral]
      rcases h with h | rfl | rfl | rfl
      · simp [h]
      all_goals decide

/-- A literal of the grammar that a value may follow is read. -/
theorem readLiteral_append {value : Ast} {text rest : Bytes} {failure : Option Failure}
    (hliteral : literalHere ⟨text ++ rest, failure⟩ = some (value, text.length))
    (hafter : isAfterLiteral (rest.headD 0) = true) :
    readLiteral cfg ⟨text ++ rest, failure⟩ = .ok (value, ⟨rest, failure⟩) := by
  have hadvance : advance text.length ⟨text ++ rest, failure⟩ = .ok ((), ⟨rest, failure⟩) := by
    rw [advance, Prog.modify_apply, List.drop_left]
  rw [readLiteral, Prog.bind_get, hliteral]
  simp only
  have hafter : isAfterLiteral (here ⟨rest, failure⟩) = true := hafter
  rw [Prog.bind_of_ok hadvance, bind_peek, hafter, Bool.or_true, if_pos rfl]
  rfl

theorem ends_of_follow {rest : Bytes} (parts : Rfc.NumberParts) (h : Follow rest) :
    parts.Ends rest where
  digits := h.stops (by decide) (by decide)
  point _ _ := startsWith_eq_false.mpr (h.stops (by decide) (by decide))
  exponent _ := ⟨startsWith_eq_false.mpr (h.stops (by decide) (by decide)),
    startsWith_eq_false.mpr (h.stops (by decide) (by decide))⟩

/-- The number with this text is in range, and nothing behind it goes on with it. -/
def NumberEnded (platform : Platform) (token rest : Bytes) : Prop :=
  ∃ parts : Rfc.NumberParts, parts.text = token ∧ parts.Ends rest ∧ (parts.value platform).isSome

theorem numberEnded_of_follow {token rest : Bytes} (haccepted : Accepted platform token)
    (hfollow : Follow rest) : NumberEnded platform token rest := by
  obtain ⟨parts, htext, hvalue⟩ := accepted_iff.mp haccepted
  exact ⟨parts, htext, ends_of_follow parts hfollow, hvalue⟩

theorem readNumber_append (hjson5 : cfg.json5 = false) {token rest : Bytes}
    (hended : NumberEnded platform token rest) (failure : Option Failure) :
    readNumber platform cfg 0 ⟨token ++ rest, failure⟩ = .ok (.number token, ⟨rest, failure⟩) := by
  obtain ⟨parts, rfl, hends, hvalue⟩ := hended
  obtain ⟨number, hnumber⟩ := Option.isSome_iff_exists.mp hvalue
  have hbody : Reading.body 0 ⟨parts.text ++ rest, failure⟩ = parts.text ++ rest := by
    rw [body, Nat.sub_zero, List.take_length]
  have hscan := (scanAndClassify_eq_ok platform).mpr
    ⟨parts, rfl, hends, hnumber⟩
  rw [readNumber, Prog.bind_get, hbody, parseNumberToken, hjson5, if_neg (by decide), hscan]
  simp only
  rw [advanceTo, Prog.bind_modify, hbody, between_append, List.length_append,
    Nat.add_sub_cancel, List.drop_left]
  rfl

/-- A number that is read ends there. -/
theorem numberEnded_of_readNumber (hjson5 : cfg.json5 = false) {token rest : Bytes} {r : Reading}
    (h : readNumber platform cfg 0 ⟨token ++ rest, none⟩ = .ok (.number token, r)) :
    NumberEnded platform token rest := by
  have hbody : Reading.body 0 ⟨token ++ rest, none⟩ = token ++ rest := by
    rw [body, Nat.sub_zero, List.take_length]
  rw [readNumber, Prog.bind_get, hbody, parseNumberToken, hjson5, if_neg (by decide)] at h
  cases hscan : scanAndClassify platform (token ++ rest) with
  | error failure => rw [hscan] at h; cases h
  | ok result =>
      obtain ⟨number, rest'⟩ := result
      obtain ⟨parts, hparts, hends, hvalue⟩ := (scanAndClassify_eq_ok platform).mp hscan
      rw [hscan] at h
      simp only at h
      rw [advanceTo, Prog.bind_modify, hparts, between_append] at h
      have htoken : parts.text = token := Ast.number.inj (Prod.mk.inj (Res.ok.inj h)).1
      obtain rfl : rest = rest' := List.append_cancel_left (htoken ▸ hparts)
      exact ⟨parts, htoken, hends, by rw [hvalue]; rfl⟩

/-! ### Strings -/

theorem checkUtf8_ok {left : Nat} {ck : Utf8Checker} (h : ck.failed = false) (r : Reading) :
    checkUtf8 left ck r = .ok ((), r) := by
  rw [checkUtf8, h]
  rfl

theorem decodeEscape_append {spelling written rest : Bytes}
    (h : Rfc.Character (ascii '\\' :: spelling) written) (failure : Option Failure) :
    decodeEscape Reading.rest readEscape ⟨ascii '\\' :: spelling ++ rest, failure⟩ =
      .ok (written, ⟨rest, failure⟩) := by
  rw [decodeEscape, Prog.bind_get]
  simp only [List.cons_append]
  rw [readEscape_iff.mpr ⟨spelling, h, rfl⟩]
  simp only
  rw [advance, Prog.bind_modify]
  simp only [List.length_cons, List.length_append]
  rw [show spelling.length + rest.length + 1 - rest.length = spelling.length + 1 by omega,
    List.drop_succ_cons, List.drop_left]
  rfl

/-- A character is either a byte that stands for itself or starts with a backslash. -/
theorem character_cases {spelling value : Bytes} (h : Rfc.Character spelling value) :
    (∃ c, spelling = [c] ∧ value = [c] ∧ isStringStop c = false) ∨
      ∃ more, spelling = ascii '\\' :: more := by
  cases h with
  | unescaped c hplain hquote hbackslash =>
      refine .inl ⟨c, rfl, rfl, ?_⟩
      simp only [isStringStop, Bool.or_eq_false_iff, beq_eq_false_iff_ne, decide_eq_false_iff_not]
      exact ⟨⟨hquote, hbackslash⟩, UInt8.not_lt.mpr hplain⟩
  | short c value h => exact .inr ⟨_, rfl⟩
  | unicode digits value h => exact .inr ⟨_, rfl⟩
  | pair digits digits' high low value => exact .inr ⟨_, rfl⟩

theorem decodeLoop_append (hutf8 : cfg.strictUtf8 = false) {content value : Bytes}
    (h : Rfc.Characters content value) {left fuel : Nat} (hfuel : content.length < fuel)
    (decoded rest : Bytes) (failure : Option Failure) :
    decodeLoop cfg left fuel decoded {} ⟨content ++ ascii '"' :: rest, failure⟩ =
      .ok (decoded ++ value, ⟨rest, failure⟩) := by
  have hck : ∀ {α : Type} (next : Unit → Prog Reading α) (r : Reading),
      (checkUtf8 left {} >>= next) r = next () r := fun _ _ => rfl
  induction h generalizing fuel decoded with
  | nil =>
      obtain ⟨fuel, rfl⟩ : ∃ f, fuel = f + 1 := ⟨fuel - 1, by omega⟩
      rw [decodeLoop, List.nil_append, peek_cons, if_pos rfl, hutf8, if_neg (by decide), hck,
        List.append_nil]
      rfl
  | cons spelling value content values hcharacter hcontent ih =>
      obtain ⟨fuel, rfl⟩ : ∃ f, fuel = f + 1 := ⟨fuel - 1, by omega⟩
      rw [List.length_append] at hfuel
      have hfuel' : content.length < fuel := by
        obtain ⟨c, rfl, -⟩ | ⟨more, rfl⟩ := character_cases hcharacter <;>
          simp only [List.length_cons] at hfuel <;> omega
      rw [decodeLoop, List.append_assoc, ← List.append_assoc decoded]
      obtain ⟨c, rfl, rfl, hstop⟩ | ⟨more, rfl⟩ := character_cases hcharacter
      · simp only [isStringStop, Bool.or_eq_false_iff, beq_eq_false_iff_ne,
          decide_eq_false_iff_not] at hstop
        rw [List.singleton_append, peek_cons, if_neg hstop.1.1, Prog.bind_get, hutf8]
        simp only [Bool.false_eq_true, if_false]
        rw [hck, if_neg hstop.1.2, if_neg hstop.2, Prog.bind_of_ok (advance_cons _ _ _)]
        exact ih hfuel' _
      · rw [List.cons_append, peek_cons, if_neg (by decide), Prog.bind_get, hutf8, if_neg (by decide),
          hck, if_pos rfl]
        have hdecode : decodeEscape Reading.rest readEscape
            ⟨ascii '\\' :: more ++ (content ++ ascii '"' :: rest), failure⟩ = _ :=
          decodeEscape_append hcharacter failure
        rw [List.cons_append] at hdecode
        rw [Prog.bind_of_ok hdecode]
        exact ih hfuel' _

/-- The plain start of a content, and the part from its first escape on. -/
theorem characters_split {content value : Bytes} (h : Rfc.Characters content value) :
    ∃ plain content' value', content = plain ++ content' ∧ value = plain ++ value' ∧
      (∀ c ∈ plain, isStringStop c = false) ∧ Rfc.Characters content' value' ∧
      (content' = [] ∧ value' = [] ∨ ∃ more, content' = ascii '\\' :: more) := by
  induction h with
  | nil => exact ⟨[], [], [], rfl, rfl, by simp, .nil, .inl ⟨rfl, rfl⟩⟩
  | cons spelling value content values hcharacter hcontent ih =>
      obtain ⟨c, rfl, rfl, hstop⟩ | ⟨more, rfl⟩ := character_cases hcharacter
      · obtain ⟨plain, content', value', rfl, rfl, hplain, hcontent', hor⟩ := ih
        exact ⟨c :: plain, content', value', rfl, rfl,
          List.forall_mem_cons.mpr ⟨hstop, hplain⟩, hcontent', hor⟩
      · exact ⟨[], _, _, rfl, rfl, by simp, .cons _ _ _ _ hcharacter hcontent, .inr ⟨_, rfl⟩⟩

theorem readStringBody_append (hutf8 : cfg.strictUtf8 = false) {content value : Bytes}
    (h : Rfc.Characters content value) (rest : Bytes) (failure : Option Failure) :
    readStringBody cfg tail ⟨content ++ ascii '"' :: rest, failure⟩ =
      .ok (value, ⟨rest, failure⟩) := by
  obtain ⟨plain, content', value', rfl, rfl, hplain, hcontent, hor⟩ := characters_split h
  have hstops : Stops (fun c => !isStringStop c) (content' ++ ascii '"' :: rest) := by
    rcases hor with ⟨rfl, -⟩ | ⟨more, rfl⟩
    · exact stops_cons.mpr (by decide)
    · exact stops_cons.mpr (by decide)
  have hrun : ∀ c ∈ plain, (fun c => !isStringStop c) c = true := fun c hc => by simp [hplain c hc]
  have htake := takeWhile_run hrun hstops
  rw [readStringBody, Prog.bind_get, List.append_assoc]
  simp only [htake]
  rw [advance, Prog.bind_modify]
  simp only [List.drop_left]
  rcases hor with ⟨rfl, rfl⟩ | ⟨more, rfl⟩
  · rw [List.nil_append, peek_cons, if_pos rfl, hutf8, if_neg (by decide), List.append_nil]
    rfl
  · rw [List.cons_append, peek_cons, if_neg (by decide), if_pos rfl, hutf8, if_neg (by decide),
      ← List.cons_append]
    refine decodeLoop_append hutf8 hcontent ?_ _ _ _
    simp only [List.length_append, List.length_cons]
    omega

theorem readString_append (hlenient : Lenient cfg) {token value : Bytes}
    (h : Rfc.StringToken token value) (rest : Bytes) (failure : Option Failure) :
    readString cfg 0 ⟨token ++ rest, failure⟩ = .ok (value, ⟨rest, failure⟩) := by
  obtain ⟨content, value, hcontent⟩ := h
  rw [readString, Prog.bind_get, if_neg (by simp [atEnd]), List.cons_append, peek_cons,
    if_neg (by simp), hlenient.json5, if_neg (by decide), Prog.bind_of_ok (advance_cons _ _ _),
    List.append_assoc, List.singleton_append]
  exact readStringBody_append hlenient.strictUtf8 hcontent rest failure

/-! ### Values -/

theorem number_start (parts : Rfc.NumberParts) (rest : Bytes) :
    ∃ c more, parts.text ++ rest = c :: more ∧ (c = ascii '-' ∨ isDigit c = true) := by
  rw [parts.text_append]
  rcases parts.minus_or with hminus | hminus
  · obtain ⟨c, digits, hdigits⟩ := List.exists_cons_of_ne_nil parts.isInteger.1.1
    have hc := parts.isInteger.1.isDigit c (hdigits ▸ List.mem_cons_self)
    rw [hminus, hdigits]
    exact ⟨c, _, rfl, .inr hc⟩
  · rw [hminus]
    exact ⟨ascii '-', _, rfl, .inl rfl⟩

/-- A value does not start with whitespace or a closing bracket. -/
theorem value_start {text : Bytes} {value : Ast} (h : Rfc.Value text value) :
    ∃ c more, text = c :: more ∧ isWhitespace c = false ∧ c ≠ ascii ']' := by
  cases h with
  | number token htoken =>
      obtain ⟨parts, rfl⟩ := htoken
      obtain ⟨c, more, hc, hstart⟩ := number_start parts []
      rw [List.append_nil] at hc
      refine ⟨c, more, hc, ?_, ?_⟩
      · by_contra hws
        rw [Bool.not_eq_false, isWhitespace_iff] at hws
        rcases hws with rfl | rfl | rfl | rfl
        all_goals exact absurd hstart (by decide)
      · rintro rfl
        exact absurd hstart (by decide)
  | string token value htoken =>
      obtain ⟨content, value, hcontent⟩ := htoken
      exact ⟨_, _, rfl, by decide, by decide⟩
  | _ => exact ⟨_, _, rfl, by decide, by decide⟩

theorem stops_value {text : Bytes} {value : Ast} (h : Rfc.Value text value) (rest : Bytes) :
    Stops isWhitespace (text ++ rest) := by
  obtain ⟨c, more, rfl, hc, -⟩ := value_start h
  exact stops_cons.mpr hc

/-- After whitespace, elements start with a value. -/
theorem elements_start {text : Bytes} {values : List Ast} (h : Rfc.Elements text values)
    (rest : Bytes) :
    ∃ c more, (text ++ rest).dropWhile isWhitespace = c :: more ∧ c ≠ ascii ']' := by
  have hdrop : ∀ {before text rest : Bytes} {value : Ast}, Rfc.Whitespace before →
      Rfc.Value text value → ∃ c more, (before ++ (text ++ rest)).dropWhile isWhitespace = c :: more ∧
        c ≠ ascii ']' := by
    intro before text rest value hbefore htext
    rw [dropWhile_run (fun c hc => isWhitespace_iff.mpr (hbefore c hc)) (stops_value htext rest)]
    obtain ⟨c, more, rfl, -, hc⟩ := value_start htext
    exact ⟨c, more ++ rest, rfl, hc⟩
  cases h with
  | one before text after value hbefore htext _ =>
      rw [List.append_assoc, List.append_assoc]
      exact hdrop hbefore htext
  | more before text after rest' value values hbefore htext _ _ =>
      rw [List.append_assoc, List.append_assoc]
      exact hdrop hbefore htext

/-- After whitespace, members start with a key. -/
theorem members_start {text : Bytes} {members : List (Bytes × Ast)} (h : Rfc.Members text members)
    (rest : Bytes) : ∃ more, (text ++ rest).dropWhile isWhitespace = ascii '"' :: more := by
  have hdrop : ∀ {first token rest key : Bytes}, Rfc.Whitespace first → Rfc.StringToken token key →
      ∃ more, (first ++ (token ++ rest)).dropWhile isWhitespace = ascii '"' :: more := by
    rintro first _ rest _ hfirst ⟨content, key, -⟩
    exact ⟨_, dropWhile_run (fun c hc => isWhitespace_iff.mpr (hfirst c hc))
      (stops_cons.mpr (by decide))⟩
  cases h with
  | one first token second before text after key value hfirst htoken =>
      rw [List.append_assoc, List.append_assoc]
      exact hdrop hfirst htoken
  | more first token second before text after rest' key value members hfirst htoken =>
      rw [List.append_assoc, List.append_assoc]
      exact hdrop hfirst htoken

/-- What a value needs behind it: a number must not go on, and a literal is checked. -/
def Behind (platform : Platform) : Ast → Bytes → Prop
  | .number token, rest => NumberEnded platform token rest
  | .null, rest | .boolean _, rest => isAfterLiteral (rest.headD 0) = true
  | _, _ => True

theorem behind_of_follow {value : Ast} {depth : Nat} {rest : Bytes}
    (hfits : Fits platform cfg depth value) (hfollow : Follow rest) : Behind platform value rest := by
  cases value with
  | null => exact isAfterLiteral_of_follow hfollow
  | boolean value => exact isAfterLiteral_of_follow hfollow
  | number token =>
      exact numberEnded_of_follow (hfits.numbers token (by simp [Ast.numbers])) hfollow
  | string value => trivial
  | array elements => trivial
  | object members => trivial

/-- The value with this text is read wherever it may stand. -/
def Completes (platform : Platform) (cfg : Config) (text : Bytes) (value : Ast) : Prop :=
  ∀ {fuel depth : Nat} {unexpected : ErrorCode} {rest : Bytes} {failure : Option Failure},
    text.length ≤ fuel → Fits platform cfg depth value → Behind platform value rest →
    readValueAt skipWhitespace platform cfg 0 depth (readElement skipWhitespace platform cfg 0 fuel) unexpected
        (here ⟨text ++ rest, failure⟩) ⟨text ++ rest, failure⟩ =
      .ok (value, ⟨rest, failure⟩)

def CompletesElements (platform : Platform) (cfg : Config) (text : Bytes) (values : List Ast) :
    Prop :=
  ∀ {fuel depth count : Nat} {elements : List Ast} {rest : Bytes} {failure : Option Failure},
    text.length < fuel → text.length < count →
    (∀ value ∈ values, Fits platform cfg depth value) →
    elementsLoop skipWhitespace cfg 0 (readElement skipWhitespace platform cfg 0 fuel depth) count elements
        ⟨text ++ ascii ']' :: rest, failure⟩ =
      .ok (elements ++ values, ⟨rest, failure⟩)

def CompletesMembers (platform : Platform) (cfg : Config) (text : Bytes)
    (more : List (Bytes × Ast)) : Prop :=
  ∀ {fuel depth count : Nat} {members : List (Bytes × Ast)} {rest : Bytes}
    {failure : Option Failure},
    text.length < fuel → text.length < count →
    (∀ member ∈ more, Fits platform cfg depth member.2) →
    membersLoop skipWhitespace cfg 0 (readElement skipWhitespace platform cfg 0 fuel depth) count members
        ⟨text ++ ascii '}' :: rest, failure⟩ =
      .ok (members ++ more, ⟨rest, failure⟩)

theorem readElement_append (hjson5 : cfg.json5 = false) {text : Bytes} {value : Ast}
    (hvalue : Rfc.Value text value) (hcompletes : Completes platform cfg text value) {fuel depth : Nat}
    (hfuel : text.length < fuel) (hfits : Fits platform cfg depth value) {ws rest : Bytes}
    (hws : Rfc.Whitespace ws) (hfollow : Follow rest) (failure : Option Failure) :
    readElement skipWhitespace platform cfg 0 fuel depth ⟨ws ++ (text ++ rest), failure⟩ =
      .ok (value, ⟨rest, failure⟩) := by
  obtain ⟨fuel, rfl⟩ : ∃ f, fuel = f + 1 := ⟨fuel - 1, by omega⟩
  rw [readElement, Prog.bind_of_ok (skipWhitespace_append hjson5 hws (stops_value hvalue rest) failure),
    bind_peek]
  exact hcompletes (Nat.le_of_lt_succ hfuel) hfits (behind_of_follow hfits hfollow)

theorem skipWhitespace_eq (hjson5 : cfg.json5 = false) (text : Bytes) (failure : Option Failure) :
    skipWhitespace cfg tail ⟨text, failure⟩ = .ok ((), ⟨text.dropWhile isWhitespace, failure⟩) := by
  rw [skipWhitespace, hjson5, if_neg (by decide), Prog.modify_apply]

/-- An element skips the whitespace before it. -/
theorem readElement_dropWhile (hjson5 : cfg.json5 = false) (fuel depth : Nat) (text : Bytes)
    (failure : Option Failure) :
    readElement skipWhitespace platform cfg 0 fuel depth ⟨text.dropWhile isWhitespace, failure⟩ =
      readElement skipWhitespace platform cfg 0 fuel depth ⟨text, failure⟩ := by
  cases fuel with
  | zero => rfl
  | succ fuel =>
      rw [readElement]
      refine Prog.bind_congr ?_ _
      rw [skipWhitespace_eq hjson5, skipWhitespace_eq hjson5, List.dropWhile_idempotent]

/-- So does a member. -/
theorem readMember_dropWhile (hjson5 : cfg.json5 = false) (element : Prog Reading Ast)
    (members : List (Bytes × Ast)) (text : Bytes) (failure : Option Failure) :
    readMember skipWhitespace cfg tail element members ⟨text.dropWhile isWhitespace, failure⟩ =
      readMember skipWhitespace cfg tail element members ⟨text, failure⟩ := by
  rw [readMember]
  refine Prog.bind_congr ?_ _
  rw [skipWhitespace_eq hjson5, skipWhitespace_eq hjson5, List.dropWhile_idempotent]

/-! ### The cases of a derivation -/

theorem completes_literal {text : Bytes} {value : Ast}
    (hbehind : ∀ rest, Behind platform value rest → isAfterLiteral (rest.headD 0) = true)
    (hstart : ∀ rest failure, here ⟨text ++ rest, failure⟩ = ascii 't' ∨
      here ⟨text ++ rest, failure⟩ = ascii 'f' ∨ here ⟨text ++ rest, failure⟩ = ascii 'n')
    (hliteral : ∀ rest failure, literalHere ⟨text ++ rest, failure⟩ = some (value, text.length)) :
    Completes platform cfg text value := by
  intro fuel depth unexpected rest failure _ _ hafter
  have hc := hstart rest failure
  have hne : ∀ b, ¬(b = ascii 't' ∨ b = ascii 'f' ∨ b = ascii 'n') →
      here ⟨text ++ rest, failure⟩ ≠ b := fun b hb heq => hb (heq ▸ hc)
  rw [readValueAt, if_neg (hne _ (by decide)), if_neg (hne _ (by decide)),
    if_neg (hne _ (by decide)), if_pos hc]
  exact readLiteral_append (hliteral rest failure) (hbehind rest hafter)

/-- The dispatch on the first byte of a number. -/
theorem readValueAt_number {token : Bytes} (htoken : Rfc.Number token) {depth : Nat}
    {element : Nat → Prog Reading Ast} {unexpected : ErrorCode} (rest : Bytes)
    (failure : Option Failure) :
    readValueAt skipWhitespace platform cfg tail depth element unexpected (here ⟨token ++ rest, failure⟩) =
      readNumber platform cfg tail := by
  have hc : here ⟨token ++ rest, failure⟩ = ascii '-' ∨
      isDigit (here ⟨token ++ rest, failure⟩) = true := by
    obtain ⟨parts, rfl⟩ := htoken
    obtain ⟨c, more, hc, hstart⟩ := number_start parts rest
    rw [here, hc]
    exact hstart
  have hne : ∀ b, ¬(b = ascii '-' ∨ isDigit b = true) → here ⟨token ++ rest, failure⟩ ≠ b :=
    fun b hb heq => hb (heq ▸ hc)
  rw [readValueAt, if_neg (hne _ (by decide)), if_neg (hne _ (by decide)),
    if_neg (hne _ (by decide)), if_neg, if_pos hc]
  rintro (h | h | h)
  · exact hne _ (by decide) h
  · exact hne _ (by decide) h
  · exact hne _ (by decide) h

theorem completes_number (hlenient : Lenient cfg) {token : Bytes} (htoken : Rfc.Number token) :
    Completes platform cfg token (.number token) := by
  intro fuel depth unexpected rest failure _ _ hended
  rw [readValueAt_number htoken]
  exact readNumber_append hlenient.json5 hended failure

theorem completes_string (hlenient : Lenient cfg) {token value : Bytes}
    (htoken : Rfc.StringToken token value) : Completes platform cfg token (.string value) := by
  intro fuel depth unexpected rest failure _ _ _
  have hc : here ⟨token ++ rest, failure⟩ = ascii '"' := by
    obtain ⟨content, value, _⟩ := htoken
    rfl
  rw [readValueAt, hc, if_neg (by decide), if_neg (by decide), if_pos rfl,
    Prog.bind_of_ok (readString_append hlenient htoken rest failure)]
  rfl

theorem checkDepth_fits {depth : Nat} (h : DepthFits cfg (depth + 1)) (r : Reading) :
    checkDepth cfg depth r = .ok ((), r) := by
  rw [checkDepth, if_neg]
  · rfl
  · rw [DepthFits] at h
    omega

theorem atByte_cons (c b : UInt8) (rest : Bytes) (failure : Option Failure) :
    atByte 0 c ⟨b :: rest, failure⟩ = .ok (b == c, ⟨b :: rest, failure⟩) := by
  rw [atByte, Prog.bind_get, if_neg (by simp [atEnd])]
  rfl

/-- Reading an array that fits, up to its first element. -/
theorem readArray_eq (hjson5 : cfg.json5 = false) {depth : Nat} (hdepth : DepthFits cfg (depth + 1))
    (element : Nat → Prog Reading Ast) {text more : Bytes} {c : UInt8}
    (htext : text.dropWhile isWhitespace = c :: more) (failure : Option Failure) :
    readArray skipWhitespace cfg 0 depth element ⟨ascii '[' :: text, failure⟩ =
      if c = ascii ']' then .ok (.array [], ⟨more, failure⟩)
      else (elementsLoop skipWhitespace cfg 0 (element (depth + 1)) (text.length + 1) [] >>= fun elements =>
        pure (.array elements)) ⟨text.dropWhile isWhitespace, failure⟩ := by
  rw [readArray, Prog.bind_get, Prog.bind_of_ok (checkDepth_fits hdepth _),
    Prog.bind_of_ok (advance_cons _ _ _), Prog.bind_of_ok (skipWhitespace_eq hjson5 _ _), htext,
    Prog.bind_of_ok (atByte_cons _ _ _ _)]
  by_cases hclose : c = ascii ']'
  · rw [if_pos hclose, if_pos (beq_iff_eq.mpr hclose), Prog.bind_of_ok (advance_cons _ _ _)]
    rfl
  · rw [if_neg hclose, if_neg (by simpa using hclose)]
    rfl

theorem dropWhile_whitespace {ws : Bytes} (hws : Rfc.Whitespace ws) {c : UInt8}
    (hc : isWhitespace c = false) (rest : Bytes) :
    (ws ++ c :: rest).dropWhile isWhitespace = c :: rest :=
  dropWhile_run (fun b hb => isWhitespace_iff.mpr (hws b hb)) (stops_cons.mpr hc)

theorem readValueAt_array {depth : Nat} {element : Nat → Prog Reading Ast} {unexpected : ErrorCode} :
    readValueAt skipWhitespace platform cfg 0 depth element unexpected (ascii '[') =
      readArray skipWhitespace cfg 0 depth element := by
  rw [readValueAt, if_neg (by decide), if_pos rfl]

theorem completes_emptyArray (hjson5 : cfg.json5 = false) {ws : Bytes} (hws : Rfc.Whitespace ws) :
    Completes platform cfg (ascii '[' :: (ws ++ [ascii ']'])) (.array []) := by
  intro fuel depth unexpected rest failure _ hfits _
  rw [List.cons_append, List.append_assoc, List.singleton_append, here, List.headD_cons,
    readValueAt_array, readArray_eq hjson5 (fits_array.mp hfits).1 _
      (dropWhile_whitespace hws (by decide) rest), if_pos rfl]

theorem completes_array (hjson5 : cfg.json5 = false) {text : Bytes} {elements : List Ast}
    (helements : Rfc.Elements text elements)
    (hcompletes : CompletesElements platform cfg text elements) :
    Completes platform cfg (ascii '[' :: (text ++ [ascii ']'])) (.array elements) := by
  intro fuel depth unexpected rest failure hfuel hfits _
  obtain ⟨hdepth, hall⟩ := fits_array.mp hfits
  simp only [List.length_cons, List.length_append] at hfuel
  obtain ⟨c, more, hstart, hc⟩ := elements_start helements (ascii ']' :: rest)
  rw [List.cons_append, List.append_assoc, List.singleton_append, here, List.headD_cons,
    readValueAt_array, readArray_eq hjson5 hdepth _ hstart, if_neg hc]
  have hloop : elementsLoop skipWhitespace cfg 0 (readElement skipWhitespace platform cfg 0 fuel (depth + 1))
      ((text ++ ascii ']' :: rest).length + 1) []
      ⟨(text ++ ascii ']' :: rest).dropWhile isWhitespace, failure⟩ =
        .ok (elements, ⟨rest, failure⟩) := by
    rw [elementsLoop, Prog.bind_congr (readElement_dropWhile hjson5 _ _ _ _), ← elementsLoop]
    exact hcompletes (by omega) (by rw [List.length_append]; omega) hall
  rw [Prog.bind_of_ok hloop]
  rfl

/-- One element, and the byte that ends it. -/
theorem elementsLoop_step (hjson5 : cfg.json5 = false) {before text after : Bytes} {value : Ast}
    (hvalue : Rfc.Value text value) (hcompletes : Completes platform cfg text value)
    (hbefore : Rfc.Whitespace before) (hafter : Rfc.Whitespace after) {c : UInt8}
    (hc : c = ascii ',' ∨ c = ascii ']') {fuel depth count : Nat} (hfuel : text.length < fuel)
    (hfits : Fits platform cfg depth value) (elements : List Ast) (rest : Bytes)
    (failure : Option Failure) :
    elementsLoop skipWhitespace cfg 0 (readElement skipWhitespace platform cfg 0 fuel depth) (count + 1) elements
        ⟨before ++ (text ++ (after ++ c :: rest)), failure⟩ =
      if c = ascii ']' then .ok (elements ++ [value], ⟨rest, failure⟩)
      else elementsLoop skipWhitespace cfg 0 (readElement skipWhitespace platform cfg 0 fuel depth) count
        (elements ++ [value])
        ⟨rest, failure⟩ := by
  have hws : isWhitespace c = false := by rcases hc with rfl | rfl <;> decide
  have hfollow : Follow (after ++ c :: rest) :=
    follow_whitespace hafter (follow_cons.mpr (.inr (by tauto)))
  rw [elementsLoop, Prog.bind_of_ok (readElement_append hjson5 hvalue hcompletes hfuel hfits hbefore
    hfollow failure), Prog.bind_of_ok (skipWhitespace_append hjson5 hafter (stops_cons.mpr hws) _),
    peek_cons]
  rcases hc with rfl | rfl
  · rw [if_neg (by decide), if_pos rfl, if_neg (by decide), Prog.bind_of_ok (advance_cons _ _ _),
      closedAfterComma, hjson5, if_neg (by decide)]
    rfl
  · rw [if_pos rfl, if_pos rfl, Prog.bind_of_ok (advance_cons _ _ _)]
    rfl

theorem completesElements_one (hjson5 : cfg.json5 = false) {before text after : Bytes} {value : Ast}
    (hbefore : Rfc.Whitespace before) (hvalue : Rfc.Value text value) (hafter : Rfc.Whitespace after)
    (hcompletes : Completes platform cfg text value) :
    CompletesElements platform cfg (before ++ (text ++ after)) [value] := by
  intro fuel depth count elements rest failure hfuel hcount hfits
  obtain ⟨count, rfl⟩ : ∃ n, count = n + 1 := ⟨count - 1, by omega⟩
  simp only [List.length_append] at hfuel
  simp only [List.append_assoc]
  rw [elementsLoop_step hjson5 hvalue hcompletes hbefore hafter (.inr rfl) (by omega)
    (hfits value List.mem_cons_self), if_pos rfl]

theorem completesElements_more (hjson5 : cfg.json5 = false) {before text after rest : Bytes}
    {value : Ast} {values : List Ast} (hbefore : Rfc.Whitespace before)
    (hvalue : Rfc.Value text value) (hafter : Rfc.Whitespace after)
    (hcompletes : Completes platform cfg text value)
    (hrest : CompletesElements platform cfg rest values) :
    CompletesElements platform cfg (before ++ (text ++ (after ++ ascii ',' :: rest)))
      (value :: values) := by
  intro fuel depth count elements behind failure hfuel hcount hfits
  obtain ⟨count, rfl⟩ : ∃ n, count = n + 1 := ⟨count - 1, by omega⟩
  rw [List.forall_mem_cons] at hfits
  simp only [List.length_append, List.length_cons] at hfuel hcount
  simp only [List.append_assoc, List.cons_append]
  rw [elementsLoop_step hjson5 hvalue hcompletes hbefore hafter (.inl rfl) (by omega) hfits.1,
    if_neg (by decide), hrest (by omega) (by omega) hfits.2, List.append_assoc, List.singleton_append]

/-! ### Objects -/

theorem readObject_eq (hjson5 : cfg.json5 = false) {depth : Nat} (hdepth : DepthFits cfg (depth + 1))
    (element : Nat → Prog Reading Ast) {text more : Bytes} {c : UInt8}
    (htext : text.dropWhile isWhitespace = c :: more) (failure : Option Failure) :
    readObject skipWhitespace cfg 0 depth element ⟨ascii '{' :: text, failure⟩ =
      if c = ascii '}' then .ok (.object [], ⟨more, failure⟩)
      else (membersLoop skipWhitespace cfg 0 (element (depth + 1)) (text.length + 1) [] >>= fun members =>
        pure (.object members)) ⟨text.dropWhile isWhitespace, failure⟩ := by
  rw [readObject, Prog.bind_get, Prog.bind_of_ok (checkDepth_fits hdepth _),
    Prog.bind_of_ok (advance_cons _ _ _), Prog.bind_of_ok (skipWhitespace_eq hjson5 _ _), htext,
    peek_cons]
  by_cases hclose : c = ascii '}'
  · rw [if_pos hclose, if_pos hclose, Prog.bind_of_ok (advance_cons _ _ _)]
    rfl
  · rw [if_neg hclose, if_neg hclose]
    rfl

theorem readValueAt_object {depth : Nat} {element : Nat → Prog Reading Ast} {unexpected : ErrorCode} :
    readValueAt skipWhitespace platform cfg 0 depth element unexpected (ascii '{') =
      readObject skipWhitespace cfg 0 depth element := by
  rw [readValueAt, if_pos rfl]

theorem completes_emptyObject (hjson5 : cfg.json5 = false) {ws : Bytes} (hws : Rfc.Whitespace ws) :
    Completes platform cfg (ascii '{' :: (ws ++ [ascii '}'])) (.object []) := by
  intro fuel depth unexpected rest failure _ hfits _
  rw [List.cons_append, List.append_assoc, List.singleton_append, here, List.headD_cons,
    readValueAt_object, readObject_eq hjson5 (fits_object.mp hfits).1 _
      (dropWhile_whitespace hws (by decide) rest), if_pos rfl]

theorem completes_object (hjson5 : cfg.json5 = false) {text : Bytes} {members : List (Bytes × Ast)}
    (hmembers : Rfc.Members text members)
    (hcompletes : CompletesMembers platform cfg text members) :
    Completes platform cfg (ascii '{' :: (text ++ [ascii '}'])) (.object members) := by
  intro fuel depth unexpected rest failure hfuel hfits _
  obtain ⟨hdepth, hall⟩ := fits_object.mp hfits
  simp only [List.length_cons, List.length_append] at hfuel
  obtain ⟨more, hstart⟩ := members_start hmembers (ascii '}' :: rest)
  rw [List.cons_append, List.append_assoc, List.singleton_append, here, List.headD_cons,
    readValueAt_object, readObject_eq hjson5 hdepth _ hstart, if_neg (by decide)]
  have hloop : membersLoop skipWhitespace cfg 0 (readElement skipWhitespace platform cfg 0 fuel (depth + 1))
      ((text ++ ascii '}' :: rest).length + 1) []
      ⟨(text ++ ascii '}' :: rest).dropWhile isWhitespace, failure⟩ =
        .ok (members, ⟨rest, failure⟩) := by
    rw [membersLoop, Prog.bind_congr (readMember_dropWhile hjson5 _ _ _ _), ← membersLoop]
    exact hcompletes (by omega) (by rw [List.length_append]; omega) hall
  rw [Prog.bind_of_ok hloop]
  rfl

/-- One member. -/
theorem readMember_append (hlenient : Lenient cfg) {first token second before text : Bytes}
    {member : Bytes × Ast} (hfirst : Rfc.Whitespace first) (htoken : Rfc.StringToken token member.1)
    (hsecond : Rfc.Whitespace second) (hbefore : Rfc.Whitespace before)
    (hvalue : Rfc.Value text member.2) (hcompletes : Completes platform cfg text member.2)
    {fuel depth : Nat} (hfuel : text.length < fuel) (hfits : Fits platform cfg depth member.2)
    (members : List (Bytes × Ast)) {rest : Bytes} (hfollow : Follow rest) (failure : Option Failure) :
    readMember skipWhitespace cfg 0 (readElement skipWhitespace platform cfg 0 fuel depth) members
        ⟨first ++ (token ++ (second ++ ascii ':' :: (before ++ (text ++ rest)))), failure⟩ =
      .ok (member, ⟨rest, failure⟩) := by
  have hstart : ∃ more, token = ascii '"' :: more := by
    obtain ⟨content, key, -⟩ := htoken
    exact ⟨_, rfl⟩
  have hskip : ∀ rest, skipWhitespace cfg 0 ⟨first ++ (token ++ rest), failure⟩ =
      .ok ((), ⟨token ++ rest, failure⟩) := by
    obtain ⟨more, rfl⟩ := hstart
    exact fun rest => skipWhitespace_append hlenient.json5 hfirst (stops_cons.mpr (by decide)) failure
  have hkey : ∀ rest, readKey cfg 0 ⟨token ++ rest, failure⟩ = .ok (member.1, ⟨rest, failure⟩) := by
    intro rest
    have hhere : here ⟨token ++ rest, failure⟩ = ascii '"' := by
      obtain ⟨more, rfl⟩ := hstart
      rfl
    rw [readKey, Prog.bind_get, hlenient.json5, if_neg (by simp), hhere, if_neg (by decide)]
    exact readString_append hlenient htoken rest failure
  have hduplicate : ∀ r, checkDuplicateKey cfg members member.1 r = .ok ((), r) := by
    intro r
    rw [checkDuplicateKey, hlenient.strictDuplicateKeys, if_neg (by simp)]
    rfl
  rw [readMember, Prog.bind_of_ok (hskip _), Prog.bind_of_ok (hkey _),
    Prog.bind_of_ok (hduplicate _),
    Prog.bind_of_ok (skipWhitespace_append hlenient.json5 hsecond (stops_cons.mpr (by decide)) failure),
    peek_cons, if_neg (by decide), Prog.bind_of_ok (advance_cons _ _ _),
    Prog.bind_of_ok (readElement_append hlenient.json5 hvalue hcompletes hfuel hfits hbefore hfollow
      failure)]
  rfl

theorem membersLoop_step (hlenient : Lenient cfg) {first token second before text after : Bytes}
    {member : Bytes × Ast} (hfirst : Rfc.Whitespace first) (htoken : Rfc.StringToken token member.1)
    (hsecond : Rfc.Whitespace second) (hbefore : Rfc.Whitespace before)
    (hvalue : Rfc.Value text member.2) (hcompletes : Completes platform cfg text member.2)
    (hafter : Rfc.Whitespace after) {c : UInt8} (hc : c = ascii ',' ∨ c = ascii '}')
    {fuel depth count : Nat} (hfuel : text.length < fuel) (hfits : Fits platform cfg depth member.2)
    (members : List (Bytes × Ast)) (rest : Bytes) (failure : Option Failure) :
    membersLoop skipWhitespace cfg 0 (readElement skipWhitespace platform cfg 0 fuel depth) (count + 1) members
        ⟨first ++ (token ++ (second ++ ascii ':' :: (before ++ (text ++ (after ++ c :: rest))))),
          failure⟩ =
      if c = ascii '}' then .ok (members ++ [member], ⟨rest, failure⟩)
      else membersLoop skipWhitespace cfg 0 (readElement skipWhitespace platform cfg 0 fuel depth) count
        (members ++ [member])
        ⟨rest, failure⟩ := by
  have hws : isWhitespace c = false := by rcases hc with rfl | rfl <;> decide
  have hfollow : Follow (after ++ c :: rest) :=
    follow_whitespace hafter (follow_cons.mpr (.inr (by tauto)))
  rw [membersLoop, Prog.bind_of_ok (readMember_append hlenient hfirst htoken hsecond hbefore hvalue
      hcompletes hfuel hfits members hfollow failure),
    Prog.bind_of_ok (skipWhitespace_append hlenient.json5 hafter (stops_cons.mpr hws) _), Prog.bind_get,
    if_neg (by simp [atEnd]), here, List.headD_cons]
  rcases hc with rfl | rfl
  · rw [if_neg (by decide), if_pos rfl, if_neg (by decide), Prog.bind_of_ok (advance_cons _ _ _),
      closedAfterComma, hlenient.json5, if_neg (by decide)]
    rfl
  · rw [if_pos rfl, if_pos rfl, Prog.bind_of_ok (advance_cons _ _ _)]
    rfl

theorem completesMembers_one (hlenient : Lenient cfg) {first token second before text after key : Bytes}
    {value : Ast} (hfirst : Rfc.Whitespace first) (htoken : Rfc.StringToken token key)
    (hsecond : Rfc.Whitespace second) (hbefore : Rfc.Whitespace before) (hvalue : Rfc.Value text value)
    (hafter : Rfc.Whitespace after) (hcompletes : Completes platform cfg text value) :
    CompletesMembers platform cfg
      (first ++ (token ++ (second ++ ascii ':' :: (before ++ (text ++ after))))) [(key, value)] := by
  intro fuel depth count members rest failure hfuel hcount hfits
  obtain ⟨count, rfl⟩ : ∃ n, count = n + 1 := ⟨count - 1, by omega⟩
  simp only [List.length_append, List.length_cons] at hfuel
  simp only [List.append_assoc, List.cons_append]
  have hstep := @membersLoop_step platform cfg hlenient _ _ _ _ _ _ (key, value) hfirst htoken hsecond
    hbefore hvalue hcompletes hafter _ (.inr rfl) fuel depth count (by omega)
    (hfits _ List.mem_cons_self)
  rw [hstep, if_pos rfl]

theorem completesMembers_more (hlenient : Lenient cfg)
    {first token second before text after rest key : Bytes} {value : Ast}
    {more : List (Bytes × Ast)} (hfirst : Rfc.Whitespace first) (htoken : Rfc.StringToken token key)
    (hsecond : Rfc.Whitespace second) (hbefore : Rfc.Whitespace before) (hvalue : Rfc.Value text value)
    (hafter : Rfc.Whitespace after) (hcompletes : Completes platform cfg text value)
    (hrest : CompletesMembers platform cfg rest more) :
    CompletesMembers platform cfg (first ++ (token ++ (second ++ ascii ':' :: (before ++ (text ++
      (after ++ ascii ',' :: rest)))))) ((key, value) :: more) := by
  intro fuel depth count members behind failure hfuel hcount hfits
  obtain ⟨count, rfl⟩ : ∃ n, count = n + 1 := ⟨count - 1, by omega⟩
  rw [List.forall_mem_cons] at hfits
  simp only [List.length_append, List.length_cons] at hfuel hcount
  simp only [List.append_assoc, List.cons_append]
  have hstep := @membersLoop_step platform cfg hlenient _ _ _ _ _ _ (key, value) hfirst htoken hsecond
    hbefore hvalue hcompletes hafter _ (.inl rfl) fuel depth count (by omega) hfits.1
  rw [hstep, if_neg (by decide), hrest (by omega) (by omega) hfits.2,
    List.append_assoc, List.singleton_append]

/-! ### Texts -/

/-- Every value of the grammar is read. -/
theorem completes_value (hlenient : Lenient cfg) {text : Bytes} {value : Ast}
    (h : Rfc.Value text value) : Completes platform cfg text value :=
  @Rfc.Value.rec (fun text value _ => Completes platform cfg text value)
    (fun text values _ => CompletesElements platform cfg text values)
    (fun text members _ => CompletesMembers platform cfg text members)
    (@completes_literal platform cfg _ .null (fun _ h => h) (fun _ _ => .inr (.inr rfl))
      fun _ _ => rfl)
    (@completes_literal platform cfg _ (.boolean true) (fun _ h => h) (fun _ _ => .inl rfl)
      fun _ _ => rfl)
    (@completes_literal platform cfg _ (.boolean false) (fun _ h => h) (fun _ _ => .inr (.inl rfl))
      fun _ _ => rfl)
    (fun _ htoken => completes_number hlenient htoken)
    (fun _ _ htoken => completes_string hlenient htoken)
    (fun _ hws => completes_emptyArray hlenient.json5 hws)
    (fun _ _ helements hcompletes => completes_array hlenient.json5 helements hcompletes)
    (fun _ hws => completes_emptyObject hlenient.json5 hws)
    (fun _ _ hmembers hcompletes => completes_object hlenient.json5 hmembers hcompletes)
    (fun _ _ _ _ hbefore hvalue hafter hcompletes =>
      completesElements_one hlenient.json5 hbefore hvalue hafter hcompletes)
    (fun _ _ _ _ _ _ hbefore hvalue hafter _ hcompletes hrest =>
      completesElements_more hlenient.json5 hbefore hvalue hafter hcompletes hrest)
    (fun _ _ _ _ _ _ _ _ hfirst htoken hsecond hbefore hvalue hafter hcompletes =>
      completesMembers_one hlenient hfirst htoken hsecond hbefore hvalue hafter hcompletes)
    (fun _ _ _ _ _ _ _ _ _ _ hfirst htoken hsecond hbefore hvalue hafter _ hcompletes hrest =>
      completesMembers_more hlenient hfirst htoken hsecond hbefore hvalue hafter hcompletes hrest)
    text value h

/-- A value is read up to what stands behind it. -/
theorem readValue_append (hlenient : Lenient cfg) {ws text rest : Bytes} {value : Ast}
    (hws : Rfc.Whitespace ws) (hvalue : Rfc.Value text value) (hfits : Fits platform cfg 0 value)
    (hbehind : Behind platform value rest) {fuel : Nat} (hfuel : text.length ≤ fuel) :
    readValue skipWhitespace platform cfg 0 fuel { rest := ws ++ (text ++ rest) } =
      .ok (value, { rest := rest }) := by
  have hend : atEnd 0 { rest := text ++ rest } = false := by
    obtain ⟨c, more, rfl, -⟩ := value_start hvalue
    simp [atEnd]
  rw [readValue, Prog.bind_of_ok (skipWhitespace_append hlenient.json5 hws
    (stops_value hvalue rest) none), bind_peek, Prog.bind_get, hend, if_neg (by simp)]
  exact completes_value hlenient hvalue hfuel hfits hbehind

theorem readText_append (hplain : Plain cfg) {json : Bytes} {value : Ast} (h : Rfc.Text json value)
    (hfits : Fits platform cfg 0 value) :
    readText skipWhitespace platform cfg 0 { rest := json } = .ok (value, { rest := [] }) := by
  obtain ⟨before, text, after, value, hbefore, hvalue, hafter⟩ := h
  have hfollow : Follow (after ++ []) := follow_whitespace hafter (stops_nil _)
  rw [List.append_nil] at hfollow
  have hstart : skipLeadingBom cfg 0 { rest := before ++ (text ++ after) } =
      .ok ((), { rest := before ++ (text ++ after) }) := by
    rw [skipLeadingBom, Prog.modify_apply, hplain.stripBom, if_neg (by simp)]
  have hread : readValue skipWhitespace platform cfg 0 (before ++ (text ++ after)).length
      { rest := before ++ (text ++ after) } = .ok (value, { rest := after }) :=
    readValue_append hplain.toLenient hbefore hvalue hfits (behind_of_follow hfits hfollow)
      (by simp only [List.length_append]; omega)
  have hrecorded : ∀ rest, failIfRecorded { rest := rest } = .ok ((), { rest := rest }) :=
    fun _ => rfl
  have hskip : skipWhitespace cfg 0 { rest := after } = .ok ((), { rest := [] }) := by
    have hskip := @skipWhitespace_append cfg 0 hplain.json5 _ _ hafter (stops_nil _) none
    rwa [List.append_nil] at hskip
  rw [readText, Prog.bind_get, Prog.bind_of_ok hstart, Prog.bind_of_ok hread,
    Prog.bind_of_ok (hrecorded _), Prog.bind_of_ok hskip, Prog.bind_of_ok (hrecorded _), Prog.bind_get]
  rfl

/-- With the default flags the reading accepts the texts of the grammar that are within the limits,
and finds their trees. -/
theorem readText_iff (hplain : Plain cfg) {json : Bytes} {value : Ast} :
    (∃ r, readText skipWhitespace platform cfg 0 { rest := json } = .ok (value, r)) ↔
      Rfc.Text json value ∧ Fits platform cfg 0 value :=
  ⟨fun ⟨r, h⟩ => yields_readText hplain.json5 hplain.stripBom json value r h,
    fun ⟨h, hfits⟩ => ⟨_, readText_append hplain h hfits⟩⟩

end PjhJson.Reading
