import PjhJson.NumberToken
import PjhJson.ReadingValue
import PjhJson.StringGrammar

/-! What the reading accepts with the default flags is a text of the grammar: by induction on the
levels of nesting, and on the rounds of the loops over elements, members and characters. -/

namespace PjhJson.Reading

open Grammar Prog

variable {platform : Platform} {cfg : Config} {tail : Nat} {r : Reading}

/-! ### Tokens -/

theorem yields_fail {α : Type} {done : α → Reading → Prop} (code : ErrorCode) (left : Nat) :
    Yields (fail code left r) done := yields_error _

theorem yields_failHere {α : Type} {done : α → Reading → Prop} (code : ErrorCode) :
    Yields (failHere code r) done := yields_error _

theorem yields_failContext {α : Type} {done : α → Reading → Prop} (code : ErrorCode)
    (detail : Bytes) : Yields (failContext code detail r) done := yields_error _

theorem whitespace_takeWhile (text : Bytes) : Rfc.Whitespace (text.takeWhile isWhitespace) := by
  intro c hmem
  have hc := List.mem_takeWhile_imp hmem
  simpa [isWhitespace, or_assoc] using hc

theorem yields_skipWhitespace (hjson5 : cfg.json5 = false) :
    Yields (skipWhitespace cfg tail r) fun _ r' =>
      ∃ ws, Rfc.Whitespace ws ∧ r.rest = ws ++ r'.rest := by
  rw [skipWhitespace, hjson5, if_neg (by decide)]
  exact yields_ok ⟨_, whitespace_takeWhile _, List.takeWhile_append_dropWhile.symm⟩

/-- The byte at the cursor is read. -/
theorem yields_peek {α : Type} {next : UInt8 → Prog Reading α} {done : α → Reading → Prop}
    (hnext : Yields (next r.here r) done) : Yields ((peek >>= next) r) done := hnext

theorem here_cons {c : UInt8} (hc : c ≠ 0) (h : r.here = c) : ∃ rest, r.rest = c :: rest := by
  rw [here] at h
  cases hrest : r.rest with
  | nil => rw [hrest] at h; exact absurd h.symm hc
  | cons b rest => rw [hrest] at h; exact ⟨rest, by rw [← h]; rfl⟩

/-- A byte that is there is moved over. -/
theorem yields_advance {α : Type} {next : Unit → Prog Reading α} {done : α → Reading → Prop}
    {c : UInt8} {rest : Bytes} (hrest : r.rest = c :: rest)
    (hnext : ∀ r', r'.rest = rest → Yields (next () r') done) :
    Yields ((advance 1 >>= next) r) done :=
  hnext { r with rest := r.rest.drop 1 } (by rw [hrest]; rfl)

theorem state_of_atByte {c : UInt8} {found : Bool} {r' : Reading}
    (h : atByte tail c r = .ok (found, r')) : r' = r := by
  simp only [atByte, Prog.bind_get] at h
  split at h
  · cases h
    rfl
  · cases h
    rfl

theorem here_of_atByte {c : UInt8} {r' : Reading} (h : atByte tail c r = .ok (true, r')) :
    r' = r ∧ r'.here = c := by
  obtain rfl := state_of_atByte h
  simp only [atByte, Prog.bind_get] at h
  split at h
  · cases h
  · rw [Prog.pure_apply, Res.ok.injEq, Prod.mk.injEq] at h
    exact ⟨rfl, beq_iff_eq.mp h.1⟩

/-- A token that the number parser takes as a whole. -/
def Accepted (platform : Platform) (token : Bytes) : Prop :=
  ∃ number, scanAndClassify platform token = .ok (number, [])

theorem accepted_iff {token : Bytes} : Accepted platform token ↔
    ∃ parts : Rfc.NumberParts, parts.text = token ∧ (parts.value platform).isSome = true := by
  constructor
  · rintro ⟨number, h⟩
    obtain ⟨parts, htoken, -, hvalue⟩ := (scanAndClassify_eq_ok platform).mp h
    exact ⟨parts, by rw [htoken, List.append_nil], by rw [hvalue]; rfl⟩
  · rintro ⟨parts, rfl, hvalue⟩
    obtain ⟨number, hnumber⟩ := Option.isSome_iff_exists.mp hvalue
    exact ⟨number, (scanAndClassify_eq_ok platform).mpr
      ⟨parts, (List.append_nil _).symm, parts.ends_nil, hnumber⟩⟩

/-- `depth` open containers are within the limit. -/
def DepthFits (cfg : Config) (depth : Nat) : Prop := cfg.maxDepth = 0 ∨ depth ≤ cfg.maxDepth

/-- A value below `depth` open containers is within the limits: its own containers fit, and its
numbers are in range. -/
structure Fits (platform : Platform) (cfg : Config) (depth : Nat) (value : Ast) : Prop where
  nesting : DepthFits cfg (depth + value.nesting)
  numbers : ∀ token ∈ value.numbers, Accepted platform token

/-- The containers of a value below `depth` open ones are within the limit. -/
def Nests (cfg : Config) (depth : Nat) (value : Ast) : Prop := DepthFits cfg (depth + value.nesting)

theorem nests_array {depth : Nat} {elements : List Ast} :
    Nests cfg depth (.array elements) ↔
      DepthFits cfg (depth + 1) ∧ ∀ value ∈ elements, Nests cfg (depth + 1) value := by
  have hnesting := @Ast.nestingElements_le elements (cfg.maxDepth - (depth + 1))
  simp only [Nests, DepthFits, Ast.nesting]
  by_cases hmax : cfg.maxDepth = 0
  · simp [hmax]
  · simp only [hmax, false_or]
    constructor
    · intro hdepth
      refine ⟨by omega, fun value hmem => ?_⟩
      have hvalue := hnesting.mp (by omega) value hmem
      omega
    · rintro ⟨hdepth, hvalues⟩
      have helements := hnesting.mpr fun value hmem => by
        have hvalue := hvalues value hmem
        omega
      omega

theorem nests_object {depth : Nat} {members : List (Bytes × Ast)} :
    Nests cfg depth (.object members) ↔
      DepthFits cfg (depth + 1) ∧ ∀ member ∈ members, Nests cfg (depth + 1) member.2 := by
  have hvalues : (∀ member ∈ members, Nests cfg (depth + 1) member.2) ↔
      ∀ value ∈ members.map (·.2), Nests cfg (depth + 1) value :=
    List.forall_mem_map.symm
  rw [hvalues, ← nests_array, Nests, Nests, Ast.nesting, Ast.nesting, Ast.nestingMembers_eq]

theorem fits_array {depth : Nat} {elements : List Ast} :
    Fits platform cfg depth (.array elements) ↔
      DepthFits cfg (depth + 1) ∧ ∀ value ∈ elements, Fits platform cfg (depth + 1) value := by
  constructor
  · rintro ⟨hnesting, hnumbers⟩
    obtain ⟨hdepth, hvalues⟩ := nests_array.mp hnesting
    refine ⟨hdepth, fun value hmem => ⟨hvalues value hmem, fun token htoken => hnumbers token ?_⟩⟩
    rw [Ast.numbers]
    exact Ast.mem_numbersElements.mpr ⟨value, hmem, htoken⟩
  · rintro ⟨hdepth, hvalues⟩
    refine ⟨nests_array.mpr ⟨hdepth, fun value hmem => (hvalues value hmem).nesting⟩,
      fun token htoken => ?_⟩
    rw [Ast.numbers] at htoken
    obtain ⟨value, hmem, htoken⟩ := Ast.mem_numbersElements.mp htoken
    exact (hvalues value hmem).numbers token htoken

theorem fits_object {depth : Nat} {members : List (Bytes × Ast)} :
    Fits platform cfg depth (.object members) ↔
      DepthFits cfg (depth + 1) ∧ ∀ member ∈ members, Fits platform cfg (depth + 1) member.2 := by
  have hvalues : (∀ member ∈ members, Fits platform cfg (depth + 1) member.2) ↔
      ∀ value ∈ members.map (·.2), Fits platform cfg (depth + 1) value :=
    List.forall_mem_map.symm
  rw [hvalues, ← fits_array]
  constructor
  · rintro ⟨hnesting, hnumbers⟩
    rw [Ast.nesting, Ast.nestingMembers_eq] at hnesting
    rw [Ast.numbers, Ast.numbersMembers_eq] at hnumbers
    exact ⟨by rwa [Ast.nesting], by rwa [Ast.numbers]⟩
  · rintro ⟨hnesting, hnumbers⟩
    rw [Ast.nesting, ← Ast.nestingMembers_eq] at hnesting
    rw [Ast.numbers, ← Ast.numbersMembers_eq] at hnumbers
    exact ⟨by rwa [Ast.nesting], by rwa [Ast.numbers]⟩

theorem fits_scalar {depth : Nat} {value : Ast} (hdepth : DepthFits cfg depth)
    (hnesting : value.nesting = 0) (hnumbers : ∀ token ∈ value.numbers, Accepted platform token) :
    Fits platform cfg depth value := ⟨by rw [hnesting]; exact hdepth, hnumbers⟩

theorem yields_readLiteral :
    Yields (readLiteral cfg r) fun value r' => ∃ text, Rfc.Value text value ∧
      r.rest = text ++ r'.rest ∧ value.numbers = [] ∧ value.nesting = 0 := by
  rw [readLiteral, Prog.bind_get]
  have hsplit : ∀ {n : Nat} {text : Bytes}, r.rest.take n = text → r.rest = text ++ r.rest.drop n :=
    fun h => by rw [← h, List.take_append_drop]
  have hliteral : ∀ value length, literalHere r = some (value, length) →
      ∃ text, Rfc.Value text value ∧ r.rest = text ++ r.rest.drop length ∧
        value.numbers = [] ∧ value.nesting = 0 := by
    intro value length h
    rw [literalHere] at h
    split_ifs at h with htrue hnull hfalse
    · obtain ⟨rfl, rfl⟩ := Prod.mk.inj (Option.some.inj h)
      exact ⟨_, .boolTrue, hsplit htrue, by simp [Ast.numbers], by simp [Ast.nesting]⟩
    · obtain ⟨rfl, rfl⟩ := Prod.mk.inj (Option.some.inj h)
      exact ⟨_, .null, hsplit hnull, by simp [Ast.numbers], by simp [Ast.nesting]⟩
    · obtain ⟨rfl, rfl⟩ := Prod.mk.inj (Option.some.inj h)
      exact ⟨_, .boolFalse, hsplit hfalse, by simp [Ast.numbers], by simp [Ast.nesting]⟩
  cases hmatch : literalHere r with
  | none => exact yields_failHere _
  | some result =>
      obtain ⟨value, length⟩ := result
      simp only
      rw [advance, Prog.bind_modify]
      refine yields_peek ?_
      split
      · exact yields_ok (hliteral value length hmatch)
      · exact yields_failHere _

theorem yields_readNumber (hjson5 : cfg.json5 = false) :
    Yields (readNumber platform cfg tail r) fun value r' => ∃ text, Rfc.Value text value ∧
      r.rest = text ++ r'.rest ∧ value.numbers = [text] ∧ Accepted platform text ∧
      value.nesting = 0 := by
  have hbody : r.rest = r.body tail ++ r.rest.drop (r.rest.length - tail) := (List.take_append_drop _ _).symm
  rw [readNumber, Prog.bind_get]
  cases hparse : parseNumberToken platform cfg (r.body tail) with
  | error failure => exact yields_fail _ _
  | ok result =>
      obtain ⟨number, rest⟩ := result
      rw [parseNumberToken, hjson5, if_neg (by decide)] at hparse
      obtain ⟨parts, hrest, hends, hvalue⟩ := (scanAndClassify_eq_ok platform).mp hparse
      simp only
      rw [advanceTo, Prog.bind_modify]
      refine yields_ok ⟨parts.text, ?_, ?_, ?_, ?_, by simp [Ast.nesting]⟩
      · rw [hrest, between_append]
        exact .number _ ⟨parts, rfl⟩
      · rw [hrest, List.length_append, Nat.add_sub_cancel]
        rw [hrest, List.append_assoc] at hbody
        rw [hbody, List.drop_left]
      · rw [hrest, between_append, Ast.numbers]
      · exact accepted_iff.mpr ⟨parts, rfl, by rw [hvalue]; rfl⟩

/-! ### Strings -/

theorem yields_checkUtf8 {α : Type} {next : Unit → Prog Reading α} {done : α → Reading → Prop}
    {left : Nat} {ck : Utf8Checker} (hnext : Yields (next () r) done) :
    Yields ((checkUtf8 left ck >>= next) r) done := by
  rw [checkUtf8]
  split
  · exact yields_error _
  · exact hnext

/-- An escape that is decoded is a character of the grammar. -/
theorem yields_decodeEscape (hescape : r.here = ascii '\\') :
    Yields (decodeEscape Reading.rest readEscape r) fun written r' =>
      ∃ spelling, Rfc.Character spelling written ∧ r.rest = spelling ++ r'.rest := by
  obtain ⟨text, htext⟩ := here_cons (by decide) hescape
  rw [decodeEscape, Prog.bind_get]
  cases hdecode : readEscape r.rest with
  | stuck => exact yields_stuck
  | error failure =>
      obtain ⟨code, anchor⟩ := failure
      cases anchor with
      | none => exact yields_failContext _ _
      | some anchor => exact yields_fail _ _
  | ok result =>
      obtain ⟨written, rest⟩ := result
      rw [htext] at hdecode
      obtain ⟨spelling, hcharacter, rfl⟩ := readEscape_iff.mp hdecode
      simp only
      rw [advance, Prog.bind_modify]
      refine yields_ok ⟨_, hcharacter, ?_⟩
      simp only [htext, List.length_cons, List.length_append]
      rw [show spelling.length + rest.length + 1 - rest.length = spelling.length + 1 by omega,
        List.drop_succ_cons, List.drop_left, List.cons_append]

theorem yields_decodeLoop {left fuel : Nat} {decoded : Bytes} {ck : Utf8Checker} :
    Yields (decodeLoop cfg left fuel decoded ck r) fun value r' =>
      ∃ content more, Rfc.Characters content more ∧ value = decoded ++ more ∧
        r.rest = content ++ ascii '"' :: r'.rest := by
  induction fuel generalizing decoded ck r with
  | zero => exact yields_stuck
  | succ fuel ih =>
      have hcons : ∀ {spelling written : Bytes} {r₁ : Reading}, Rfc.Character spelling written →
          r.rest = spelling ++ r₁.rest → ∀ ck,
          Yields (decodeLoop cfg left fuel (decoded ++ written) ck r₁) fun value r' =>
            ∃ content more, Rfc.Characters content more ∧ value = decoded ++ more ∧
              r.rest = content ++ ascii '"' :: r'.rest := by
        intro spelling written r₁ hcharacter hrest ck
        refine yields_mono ih ?_
        rintro value r' ⟨content, more, hcontent, rfl, hrest'⟩
        refine ⟨spelling ++ content, written ++ more, .cons _ _ _ _ hcharacter hcontent, ?_, ?_⟩
        · rw [List.append_assoc]
        · rw [hrest, hrest', List.append_assoc]
      rw [decodeLoop]
      refine yields_peek ?_
      split
      · rename_i hquote
        obtain ⟨rest, hrest⟩ := here_cons (by decide) hquote
        refine yields_checkUtf8 (yields_advance hrest fun r' hr' => yields_ok ?_)
        exact ⟨[], [], .nil, (List.append_nil _).symm, by rw [hrest, hr']; rfl⟩
      rename_i hquote
      rw [Prog.bind_get]
      refine yields_checkUtf8 ?_
      split
      · rename_i hescape
        refine yields_bind (yields_decodeEscape hescape) ?_
        rintro written r₁ ⟨spelling, hcharacter, hrest⟩
        exact hcons hcharacter hrest _
      rename_i hescape
      split
      · exact yields_failHere _
      · rename_i hcontrol
        have hne : r.here ≠ 0 := fun hnul => hcontrol (by rw [hnul]; decide)
        obtain ⟨rest, hrest⟩ := here_cons hne rfl
        refine yields_advance hrest fun r₁ hr₁ => ?_
        exact hcons (.unescaped r.here (UInt8.not_lt.mp hcontrol) hquote hescape)
          (by rw [hrest, hr₁]; rfl) _

theorem characters_plain {plain : Bytes}
    (h : ∀ c ∈ plain, (!isStringStop c) = true) : Rfc.Characters plain plain := by
  induction plain with
  | nil => exact .nil
  | cons c plain ih =>
      rw [List.forall_mem_cons] at h
      have hc := h.1
      simp only [isStringStop, Bool.not_eq_true', Bool.or_eq_false_iff, beq_eq_false_iff_ne,
        decide_eq_false_iff_not] at hc
      exact .cons [c] [c] plain plain (.unescaped c (UInt8.not_lt.mp hc.2) hc.1.1 hc.1.2) (ih h.2)

theorem characters_append {first firstValue second secondValue : Bytes}
    (h : Rfc.Characters first firstValue) (h' : Rfc.Characters second secondValue) :
    Rfc.Characters (first ++ second) (firstValue ++ secondValue) := by
  induction h with
  | nil => exact h'
  | cons spelling value rest values hcharacter _ ih =>
      rw [List.append_assoc, List.append_assoc]
      exact .cons _ _ _ _ hcharacter ih

theorem yields_readStringBody :
    Yields (readStringBody cfg tail r) fun value r' =>
      ∃ content, Rfc.Characters content value ∧ r.rest = content ++ ascii '"' :: r'.rest := by
  obtain ⟨plain, hplain⟩ : ∃ plain, plain = r.rest.takeWhile fun c => !isStringStop c := ⟨_, rfl⟩
  have hclass : Rfc.Characters plain plain := characters_plain fun c hmem =>
    List.mem_takeWhile_imp (p := fun c => !isStringStop c) (hplain ▸ hmem)
  have hsplit : r.rest = plain ++ r.rest.drop plain.length := by
    have hprefix : plain <+: r.rest := hplain ▸ List.takeWhile_prefix _
    rw [List.prefix_iff_eq_append.mp hprefix]
  rw [readStringBody, Prog.bind_get]
  simp only [← hplain]
  rw [advance, Prog.bind_modify]
  refine yields_peek ?_
  split
  · rename_i hquote
    obtain ⟨rest, hrest⟩ := here_cons (by decide) hquote
    refine yields_checkUtf8 (yields_advance hrest fun r' hr' => yields_ok ⟨plain, hclass, ?_⟩)
    rw [hsplit, show r.rest.drop plain.length = ascii '"' :: rest from hrest, hr']
  split
  · refine yields_checkUtf8 (yields_mono yields_decodeLoop ?_)
    rintro value r' ⟨content, more, hcontent, rfl, hrest⟩
    refine ⟨plain ++ content, characters_append hclass hcontent, ?_⟩
    rw [hsplit, show r.rest.drop plain.length = content ++ ascii '"' :: r'.rest from hrest,
      List.append_assoc]
  · rw [Prog.bind_get]
    split
    · exact yields_failHere _
    · exact yields_failHere _

theorem yields_readString (hjson5 : cfg.json5 = false) :
    Yields (readString cfg tail r) fun value r' =>
      ∃ token, Rfc.StringToken token value ∧ r.rest = token ++ r'.rest := by
  rw [readString, Prog.bind_get]
  split
  · exact yields_failHere _
  refine yields_peek ?_
  split
  · exact yields_failHere _
  rename_i hquote
  obtain ⟨rest, hrest⟩ := here_cons (by decide) (not_not.mp hquote)
  rw [hjson5, if_neg (by decide)]
  refine yields_advance hrest fun r₁ hr₁ => yields_mono yields_readStringBody ?_
  rintro value r' ⟨content, hcontent, hrest'⟩
  refine ⟨_, .mk content value hcontent, ?_⟩
  rw [hrest, ← hr₁, hrest', List.cons_append, List.append_assoc]
  rfl

/-! ### Values -/

theorem whitespace_append {first second : Bytes} (h : Rfc.Whitespace first)
    (h' : Rfc.Whitespace second) : Rfc.Whitespace (first ++ second) := by
  intro c hmem
  rcases List.mem_append.mp hmem with hmem | hmem
  · exact h c hmem
  · exact h' c hmem

/-- Elements may have further whitespace before them. -/
theorem elements_append {ws text : Bytes} {values : List Ast} (hws : Rfc.Whitespace ws)
    (h : Rfc.Elements text values) : Rfc.Elements (ws ++ text) values := by
  cases h with
  | one before text after value hbefore htext hafter =>
      rw [← List.append_assoc]
      exact .one _ _ _ _ (whitespace_append hws hbefore) htext hafter
  | more before text after rest value values hbefore htext hafter hrest =>
      rw [← List.append_assoc]
      exact .more _ _ _ _ _ _ (whitespace_append hws hbefore) htext hafter hrest

theorem members_append {ws text : Bytes} {members : List (Bytes × Ast)} (hws : Rfc.Whitespace ws)
    (h : Rfc.Members text members) : Rfc.Members (ws ++ text) members := by
  cases h with
  | one first token second before text after key value hfirst htoken hsecond hbefore htext hafter =>
      rw [← List.append_assoc]
      exact .one _ _ _ _ _ _ _ _ (whitespace_append hws hfirst) htoken hsecond hbefore htext hafter
  | more first token second before text after rest key value members hfirst htoken hsecond hbefore
      htext hafter hrest =>
      rw [← List.append_assoc]
      exact .more _ _ _ _ _ _ _ _ _ _ (whitespace_append hws hfirst) htoken hsecond hbefore htext
        hafter hrest

/-- A value was read, after whitespace. -/
def ReadsValue (platform : Platform) (cfg : Config) (depth : Nat) (r : Reading) (value : Ast)
    (r' : Reading) : Prop :=
  ∃ ws text, Rfc.Whitespace ws ∧ Rfc.Value text value ∧ r.rest = ws ++ (text ++ r'.rest) ∧
    Fits platform cfg depth value

/-- An element reader that accepts values of the grammar only. -/
def Sound (platform : Platform) (cfg : Config) (depth : Nat) (element : Prog Reading Ast) : Prop :=
  ∀ r, Yields (element r) (ReadsValue platform cfg depth r)

theorem yields_checkDepth {α : Type} {next : Unit → Prog Reading α} {done : α → Reading → Prop}
    {depth : Nat} (hnext : DepthFits cfg (depth + 1) → Yields (next () r) done) :
    Yields ((checkDepth cfg depth >>= next) r) done := by
  rw [checkDepth]
  split
  · exact yields_error _
  · rename_i hdepth
    refine hnext ?_
    rw [DepthFits]
    omega

theorem yields_closedAfterComma {α : Type} {next : Bool → Prog Reading α}
    {done : α → Reading → Prop} {c : UInt8} (hjson5 : cfg.json5 = false)
    (hnext : Yields (next false r) done) :
    Yields ((closedAfterComma skipWhitespace cfg tail c >>= next) r) done := by
  rw [closedAfterComma, hjson5, if_neg (by decide)]
  exact hnext

theorem yields_elementsLoop (hjson5 : cfg.json5 = false) {depth fuel : Nat}
    {element : Prog Reading Ast} (helement : Sound platform cfg depth element) {elements : List Ast} :
    Yields (elementsLoop skipWhitespace cfg tail element fuel elements r) fun all r' =>
      ∃ text values, all = elements ++ values ∧ Rfc.Elements text values ∧
        r.rest = text ++ ascii ']' :: r'.rest ∧ ∀ value ∈ values, Fits platform cfg depth value := by
  induction fuel generalizing elements r with
  | zero => exact yields_stuck
  | succ fuel ih =>
      rw [elementsLoop]
      refine yields_bind (helement r) ?_
      rintro value r₁ ⟨before, text, hbefore, htext, hr, hfits⟩
      refine yields_bind (yields_skipWhitespace hjson5) ?_
      rintro _ r₂ ⟨after, hafter, hr₁⟩
      refine yields_peek ?_
      split
      · rename_i hclose
        obtain ⟨rest, hrest⟩ := here_cons (by decide) hclose
        refine yields_advance hrest fun r₃ hr₃ => yields_ok ?_
        refine ⟨_, [value], rfl, .one before text after value hbefore htext hafter, ?_, ?_⟩
        · simp [hr, hr₁, hrest, hr₃]
        · simpa using hfits
      split
      · rename_i hcomma
        obtain ⟨rest, hrest⟩ := here_cons (by decide) hcomma
        refine yields_advance hrest fun r₃ hr₃ => yields_closedAfterComma hjson5 ?_
        rw [if_neg (by decide)]
        refine yields_mono ih ?_
        rintro all r' ⟨more, values, rfl, hmore, hr', hall⟩
        refine ⟨_, value :: values, by simp,
          .more before text after more value values hbefore htext hafter hmore, ?_, ?_⟩
        · simp [hr, hr₁, hrest, ← hr₃, hr']
        · exact List.forall_mem_cons.mpr ⟨hfits, hall⟩
      · exact yields_failHere _

theorem yields_readArray (hjson5 : cfg.json5 = false) {depth : Nat}
    {element : Nat → Prog Reading Ast}
    (helement : DepthFits cfg (depth + 1) → Sound platform cfg (depth + 1) (element (depth + 1)))
    (hopen : r.here = ascii '[') :
    Yields (readArray skipWhitespace cfg tail depth element r) fun value r' => ∃ text, Rfc.Value text value ∧
      r.rest = text ++ r'.rest ∧ Fits platform cfg depth value := by
  obtain ⟨rest, hrest⟩ := here_cons (by decide) hopen
  rw [readArray, Prog.bind_get]
  refine yields_checkDepth fun hdepth => yields_advance hrest fun r₁ hr₁ => ?_
  refine yields_bind (yields_skipWhitespace hjson5) ?_
  rintro _ r₂ ⟨ws, hws, hr₂⟩
  have hat : Yields (atByte tail (ascii ']') r₂) fun empty r₃ =>
      r₃ = r₂ ∧ (empty = true → r₂.here = ascii ']') := by
    rw [atByte, Prog.bind_get]
    split
    · exact yields_ok ⟨rfl, fun h => by cases h⟩
    · exact yields_ok ⟨rfl, beq_iff_eq.mp⟩
  refine yields_bind hat ?_
  rintro empty _ ⟨rfl, hempty⟩
  split
  · rename_i hdone
    obtain ⟨rest', hrest'⟩ := here_cons (by decide) (hempty hdone)
    refine yields_advance hrest' fun r₃ hr₃ => yields_ok ⟨_, .emptyArray ws hws, ?_, ?_⟩
    · simp [hrest, ← hr₁, hr₂, hrest', hr₃]
    · exact fits_array.mpr ⟨hdepth, by simp⟩
  · refine yields_bind (yields_elementsLoop hjson5 (helement hdepth)) ?_
    rintro elements r₃ ⟨text, values, helements, htext, hr₃, hall⟩
    obtain rfl : elements = values := helements
    refine yields_ok ⟨_, .array (ws ++ text) elements (elements_append hws htext), ?_, ?_⟩
    · simp [hrest, ← hr₁, hr₂, hr₃]
    · exact fits_array.mpr ⟨hdepth, hall⟩

theorem yields_readKey (hjson5 : cfg.json5 = false) :
    Yields (readKey cfg tail r) fun key r' =>
      ∃ token, Rfc.StringToken token key ∧ r.rest = token ++ r'.rest := by
  rw [readKey, Prog.bind_get, hjson5, if_neg (by simp)]
  split
  · exact yields_failHere _
  · exact yields_readString hjson5

theorem yields_checkDuplicateKey {α : Type} {next : Unit → Prog Reading α}
    {done : α → Reading → Prop} {members : List (Bytes × Ast)} {key : Bytes}
    (hnext : Yields (next () r) done) :
    Yields ((checkDuplicateKey cfg members key >>= next) r) done := by
  rw [checkDuplicateKey]
  split
  · exact yields_error _
  · exact hnext

theorem yields_readMember (hjson5 : cfg.json5 = false) {depth : Nat} {element : Prog Reading Ast}
    (helement : Sound platform cfg depth element) {members : List (Bytes × Ast)} :
    Yields (readMember skipWhitespace cfg tail element members r) fun member r' =>
      ∃ first token second before text, Rfc.Whitespace first ∧ Rfc.StringToken token member.1 ∧
        Rfc.Whitespace second ∧ Rfc.Whitespace before ∧ Rfc.Value text member.2 ∧
        r.rest = first ++ (token ++ (second ++ ascii ':' :: (before ++ (text ++ r'.rest)))) ∧
        Fits platform cfg depth member.2 := by
  rw [readMember]
  refine yields_bind (yields_skipWhitespace hjson5) ?_
  rintro _ r₁ ⟨first, hfirst, hr⟩
  refine yields_bind (yields_readKey hjson5) ?_
  rintro key r₂ ⟨token, htoken, hr₁⟩
  refine yields_checkDuplicateKey (yields_bind (yields_skipWhitespace hjson5) ?_)
  rintro _ r₃ ⟨second, hsecond, hr₂⟩
  refine yields_peek ?_
  split
  · exact yields_failHere _
  rename_i hcolon
  obtain ⟨rest, hrest⟩ := here_cons (by decide) (not_not.mp hcolon)
  refine yields_advance hrest fun r₄ hr₄ => yields_bind (helement r₄) ?_
  rintro value r₅ ⟨before, text, hbefore, htext, hr₅, hfits⟩
  refine yields_ok ⟨first, token, second, before, text, hfirst, htoken, hsecond, hbefore, htext,
    ?_, hfits⟩
  rw [hr, hr₁, hr₂, hrest, ← hr₄, hr₅]

theorem yields_membersLoop (hjson5 : cfg.json5 = false) {depth fuel : Nat}
    {element : Prog Reading Ast} (helement : Sound platform cfg depth element)
    {members : List (Bytes × Ast)} :
    Yields (membersLoop skipWhitespace cfg tail element fuel members r) fun all r' =>
      ∃ text more, all = members ++ more ∧ Rfc.Members text more ∧
        r.rest = text ++ ascii '}' :: r'.rest ∧
        ∀ member ∈ more, Fits platform cfg depth member.2 := by
  induction fuel generalizing members r with
  | zero => exact yields_stuck
  | succ fuel ih =>
      rw [membersLoop]
      refine yields_bind (yields_readMember hjson5 helement) ?_
      rintro ⟨key, value⟩ r₁
        ⟨first, token, second, before, text, hfirst, htoken, hsecond, hbefore, htext, hr, hfits⟩
      refine yields_bind (yields_skipWhitespace hjson5) ?_
      rintro _ r₂ ⟨after, hafter, hr₁⟩
      rw [Prog.bind_get]
      split
      · exact yields_failHere _
      split
      · rename_i hclose
        obtain ⟨rest, hrest⟩ := here_cons (by decide) hclose
        refine yields_advance hrest fun r₃ hr₃ => yields_ok ⟨_, [(key, value)], rfl,
          .one first token second before text after key value hfirst htoken hsecond hbefore htext
            hafter, ?_, ?_⟩
        · simp [hr, hr₁, hrest, hr₃]
        · simpa using hfits
      split
      · rename_i hcomma
        obtain ⟨rest, hrest⟩ := here_cons (by decide) hcomma
        refine yields_advance hrest fun r₃ hr₃ => yields_closedAfterComma hjson5 ?_
        rw [if_neg (by decide)]
        refine yields_mono ih ?_
        rintro all r' ⟨rest', more, rfl, hmore, hr', hall⟩
        refine ⟨_, (key, value) :: more, by simp,
          .more first token second before text after rest' key value more hfirst htoken hsecond
            hbefore htext hafter hmore, ?_, ?_⟩
        · simp [hr, hr₁, hrest, ← hr₃, hr']
        · exact List.forall_mem_cons.mpr ⟨hfits, hall⟩
      · exact yields_failHere _

theorem yields_readObject (hjson5 : cfg.json5 = false) {depth : Nat}
    {element : Nat → Prog Reading Ast}
    (helement : DepthFits cfg (depth + 1) → Sound platform cfg (depth + 1) (element (depth + 1)))
    (hopen : r.here = ascii '{') :
    Yields (readObject skipWhitespace cfg tail depth element r) fun value r' => ∃ text, Rfc.Value text value ∧
      r.rest = text ++ r'.rest ∧ Fits platform cfg depth value := by
  obtain ⟨rest, hrest⟩ := here_cons (by decide) hopen
  rw [readObject, Prog.bind_get]
  refine yields_checkDepth fun hdepth => yields_advance hrest fun r₁ hr₁ => ?_
  refine yields_bind (yields_skipWhitespace hjson5) ?_
  rintro _ r₂ ⟨ws, hws, hr₂⟩
  refine yields_peek ?_
  split
  · rename_i hclose
    obtain ⟨rest', hrest'⟩ := here_cons (by decide) hclose
    refine yields_advance hrest' fun r₃ hr₃ => yields_ok ⟨_, .emptyObject ws hws, ?_, ?_⟩
    · simp [hrest, ← hr₁, hr₂, hrest', hr₃]
    · exact fits_object.mpr ⟨hdepth, by simp⟩
  · refine yields_bind (yields_membersLoop hjson5 (helement hdepth)) ?_
    rintro members r₃ ⟨text, more, hmembers, htext, hr₃, hall⟩
    obtain rfl : members = more := hmembers
    refine yields_ok ⟨_, .object (ws ++ text) members (members_append hws htext), ?_, ?_⟩
    · simp [hrest, ← hr₁, hr₂, hr₃]
    · exact fits_object.mpr ⟨hdepth, hall⟩

theorem yields_readValueAt (hjson5 : cfg.json5 = false) {depth : Nat} {unexpected : ErrorCode}
    {element : Nat → Prog Reading Ast}
    (helement : DepthFits cfg (depth + 1) → Sound platform cfg (depth + 1) (element (depth + 1)))
    (hdepth : DepthFits cfg depth) :
    Yields (readValueAt skipWhitespace platform cfg tail depth element unexpected r.here r) fun value r' =>
      ∃ text, Rfc.Value text value ∧ r.rest = text ++ r'.rest ∧ Fits platform cfg depth value := by
  rw [readValueAt, hjson5]
  split
  · rename_i hobject
    exact yields_readObject hjson5 helement hobject
  split
  · rename_i harray
    exact yields_readArray hjson5 helement harray
  split
  · refine yields_bind (yields_readString hjson5) ?_
    rintro value r' ⟨token, htoken, hr⟩
    exact yields_ok ⟨token, .string token value htoken, hr,
      fits_scalar hdepth (by simp [Ast.nesting]) (by simp [Ast.numbers])⟩
  split
  · refine yields_mono yields_readLiteral ?_
    rintro value r' ⟨text, htext, hr, hnumbers, hnesting⟩
    exact ⟨text, htext, hr, fits_scalar hdepth hnesting (by simp [hnumbers])⟩
  split
  · refine yields_mono (yields_readNumber hjson5) ?_
    rintro value r' ⟨text, htext, hr, hnumbers, haccepted, hnesting⟩
    exact ⟨text, htext, hr, fits_scalar hdepth hnesting (by simpa [hnumbers] using haccepted)⟩
  · rw [if_neg (by simp), if_neg (by simp)]
    exact yields_failHere _

theorem sound_readElement (hjson5 : cfg.json5 = false) {fuel depth : Nat}
    (hdepth : DepthFits cfg depth) :
    Sound platform cfg depth (readElement skipWhitespace platform cfg tail fuel depth) := by
  induction fuel generalizing depth with
  | zero => exact fun _ => yields_stuck
  | succ fuel ih =>
      intro r
      rw [readElement]
      refine yields_bind (yields_skipWhitespace hjson5) ?_
      rintro _ r₁ ⟨ws, hws, hr⟩
      refine yields_peek (yields_mono (yields_readValueAt hjson5 ih hdepth) ?_)
      rintro value r' ⟨text, htext, hr₁, hfits⟩
      exact ⟨ws, text, hws, htext, by rw [hr, hr₁], hfits⟩

theorem yields_readValue (hjson5 : cfg.json5 = false) {fuel : Nat} :
    Yields (readValue skipWhitespace platform cfg tail fuel r) (ReadsValue platform cfg 0 r) := by
  have hdepth : DepthFits cfg 0 := .inr (Nat.zero_le _)
  rw [readValue]
  refine yields_bind (yields_skipWhitespace hjson5) ?_
  rintro _ r₁ ⟨ws, hws, hr⟩
  refine yields_peek ?_
  rw [Prog.bind_get]
  split
  · exact yields_failHere _
  · refine yields_mono (yields_readValueAt hjson5 (sound_readElement hjson5) hdepth) ?_
    rintro value r' ⟨text, htext, hr₁, hfits⟩
    exact ⟨ws, text, hws, htext, by rw [hr, hr₁], hfits⟩

theorem yields_failIfRecorded {α : Type} {next : Unit → Prog Reading α} {done : α → Reading → Prop}
    (hnext : Yields (next () r) done) : Yields ((failIfRecorded >>= next) r) done := by
  have hcheck : Yields (failIfRecorded r) fun _ r' => r' = r := by
    rw [failIfRecorded, Prog.bind_get]
    split
    · exact yields_error _
    · exact yields_ok rfl
  refine yields_bind hcheck ?_
  rintro _ _ rfl
  exact hnext

/-- A text that is read without extensions is a text of the grammar within the limits. -/
theorem yields_readText (hjson5 : cfg.json5 = false) (hbom : cfg.stripBom = false) (json : Bytes) :
    Yields (readText skipWhitespace platform cfg 0 { rest := json }) fun value _ =>
      Rfc.Text json value ∧ Fits platform cfg 0 value := by
  have hstart : skipLeadingBom cfg 0 { rest := json } = .ok ((), { rest := json }) := by
    rw [skipLeadingBom, Prog.modify_apply, hbom, if_neg (by simp)]
  rw [readText, Prog.bind_get, Prog.bind_of_ok hstart]
  refine yields_bind (yields_readValue hjson5) ?_
  rintro value r₁ ⟨before, text, hbefore, htext, hjson, hfits⟩
  refine yields_failIfRecorded (yields_bind (yields_skipWhitespace hjson5) ?_)
  rintro _ r₂ ⟨after, hafter, hr₁⟩
  refine yields_failIfRecorded ?_
  rw [Prog.bind_get]
  split
  · rename_i hend
    have hnil : r₂.rest = [] := List.length_eq_zero_iff.mp (Nat.le_zero.mp (of_decide_eq_true hend))
    refine yields_ok ⟨?_, hfits⟩
    rw [hnil, List.append_nil] at hr₁
    rw [show json = before ++ (text ++ after) by rw [← hr₁]; exact hjson]
    exact .mk before text after value hbefore htext hafter
  · exact yields_failHere _

end PjhJson.Reading
