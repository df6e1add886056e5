import PjhJson.GrammarSound
import PjhJson.StringContents

/-! Reading a text twice, without the strict UTF-8 gate and with it. Where the first run succeeds, the
second does the same if the contents of all strings it passes are well-formed, and it stops at the
first violation otherwise. What the strings of a text are is a parameter: the two grammars differ. -/

namespace PjhJson

open Utf8 Grammar

/-- The same parser settings with the gate off or on. -/
def Config.gate (cfg : Config) (strictUtf8 : Bool) : Config := { cfg with strictUtf8 }

/-- Every string and key is as described. -/
inductive Ast.Clean (clean : Bytes → Prop) : Ast → Prop where
  | null : Clean clean .null
  | boolean (value : Bool) : Clean clean (.boolean value)
  | number (token : Bytes) : Clean clean (.number token)
  | string (value : Bytes) : clean value → Clean clean (.string value)
  | array (elements : List Ast) : (∀ value ∈ elements, Clean clean value) →
      Clean clean (.array elements)
  | object (members : List (Bytes × Ast)) : (∀ member ∈ members, clean member.1) →
      (∀ member ∈ members, Clean clean member.2) → Clean clean (.object members)

theorem Ast.Clean.toJson {clean : Bytes → Prop} {value : Ast} (h : value.Clean clean)
    (numberOf : Bytes → Number) : (value.toJson numberOf).All clean := by
  induction h with
  | null => trivial
  | boolean value => trivial
  | number token =>
      rw [Ast.toJson]
      cases numberOf token <;> trivial
  | string value hvalue => exact hvalue
  | array elements _ ih =>
      rw [Ast.toJson_array, Json.all_array]
      exact List.forall_mem_map.mpr ih
  | object members hkeys _ ih =>
      rw [Ast.toJson_object, Json.all_object]
      intro entry hmem
      obtain ⟨member, hmember, rfl⟩ := List.mem_map.mp (mem_lastWins hmem)
      exact ⟨hkeys member hmember, ih member hmember⟩

/-- The failure is the first violation in the first string that has one. -/
def Rejects (strings : List (Nat × Bytes)) (failure : Failure) : Prop :=
  ∃ before left content after code pos, strings = before ++ (left, content) :: after ∧
    (∀ string ∈ before, WellFormed string.2) ∧ Violation content code pos ∧
    failure = { code, left := some (left - pos) }

theorem Rejects.append {strings : List (Nat × Bytes)} {failure : Failure}
    (h : Rejects strings failure) (more : List (Nat × Bytes)) : Rejects (strings ++ more) failure := by
  obtain ⟨before, left, content, after, code, pos, rfl, hrest⟩ := h
  exact ⟨before, left, content, after ++ more, code, pos, by simp, hrest⟩

theorem Rejects.prepend {strings : List (Nat × Bytes)} {failure : Failure}
    (h : Rejects strings failure) {first : List (Nat × Bytes)}
    (hfirst : ∀ string ∈ first, WellFormed string.2) : Rejects (first ++ strings) failure := by
  obtain ⟨before, left, content, after, code, pos, rfl, hbefore, hrest⟩ := h
  refine ⟨first ++ before, left, content, after, code, pos, by simp, ?_, hrest⟩
  rw [List.forall_mem_append]
  exact ⟨hfirst, hbefore⟩

theorem Rejects.not_wellFormed {strings : List (Nat × Bytes)} {failure : Failure}
    (h : Rejects strings failure) : ¬∀ string ∈ strings, WellFormed string.2 := by
  obtain ⟨before, left, content, after, code, pos, rfl, -, hviolation, -⟩ := h
  exact fun hall => hviolation.not_wellFormed (hall (left, content) (by simp))

namespace Reading

variable (spans : Bytes → List (Nat × Bytes)) (ordinary : Bytes → Prop)

/-- What the strict run makes of a successful lenient one. Nothing was recorded before, and the
strings between the two cursors decide, if their contents are ordinary. -/
def Gated {α : Type} (good : α → Prop) (r : Reading) (lenient strict : Res Reading (α × Reading)) :
    Prop :=
  ∀ a r', lenient = .ok (a, r') → r'.failure = none → r.failure = none ∧
    ∃ strings, spans r.rest = strings ++ spans r'.rest ∧ ((∀ string ∈ strings, ordinary string.2) →
      ((∀ string ∈ strings, WellFormed string.2) ∧ good a ∧ strict = .ok (a, r')) ∨
        ∃ failure r'', Rejects strings failure ∧ strict = .error r'' ∧ r''.failure = some failure)

variable {spans ordinary} {clean : Bytes → Prop} {α β : Type} {good : α → Prop} {r : Reading}

theorem gated_error {strict : Res Reading (α × Reading)} (r' : Reading) :
    Gated spans ordinary good r (.error r') strict := fun _ _ h => by cases h

theorem gated_stuck {strict : Res Reading (α × Reading)} : Gated spans ordinary good r .stuck strict :=
  fun _ _ h => by cases h

/-- A step without strings, which does not look at the gate. -/
theorem gated_same {run : Res Reading (α × Reading)} (h : ∀ a r', run = .ok (a, r') →
      r'.failure = none → r.failure = none ∧ spans r.rest = spans r'.rest ∧ good a) :
    Gated spans ordinary good r run run := by
  intro a r' hrun hr'
  obtain ⟨hr, hspans, hgood⟩ := h a r' hrun hr'
  exact ⟨hr, [], hspans, fun _ => .inl ⟨fun _ hmem => absurd hmem List.not_mem_nil, hgood, hrun⟩⟩

theorem gated_ok {a : α} (h : good a) : Gated spans ordinary good r (.ok (a, r)) (.ok (a, r)) := by
  refine gated_same fun a' r' heq hr' => ?_
  cases heq
  exact ⟨hr', rfl, h⟩

theorem gated_mono {good' : α → Prop} {lenient strict : Res Reading (α × Reading)}
    (h : Gated spans ordinary good r lenient strict) (hgood : ∀ a, good a → good' a) :
    Gated spans ordinary good' r lenient strict := by
  intro a r' hrun hr'
  obtain ⟨hr, strings, hspans, hresult⟩ := h a r' hrun hr'
  exact ⟨hr, strings, hspans, fun hordinary =>
    (hresult hordinary).imp_left fun ⟨hall, ha, hstrict⟩ => ⟨hall, hgood a ha, hstrict⟩⟩

/-- The strings of two steps are passed one after the other. -/
theorem gated_bind {good' : β → Prop} {lenient strict : Prog Reading α}
    {next next' : α → Prog Reading β} (h : Gated spans ordinary good r (lenient r) (strict r))
    (hnext : ∀ a r', lenient r = .ok (a, r') →
      Gated spans ordinary (fun b => good a → good' b) r' (next a r') (next' a r')) :
    Gated spans ordinary good' r ((lenient >>= next) r) ((strict >>= next') r) := by
  intro b r'' hrun hr''
  rw [Prog.bind_apply, Res.bind_eq_ok] at hrun
  obtain ⟨⟨a, r'⟩, hlenient, hrun⟩ := hrun
  obtain ⟨hr', strings', hspans', hresult'⟩ := hnext a r' hlenient b r'' hrun hr''
  obtain ⟨hr, strings, hspans, hresult⟩ := h a r' hlenient hr'
  refine ⟨hr, strings ++ strings', by rw [hspans, hspans', List.append_assoc], fun hordinary => ?_⟩
  rw [List.forall_mem_append] at hordinary
  rcases hresult hordinary.1 with ⟨hall, hgood, hstrict⟩ | ⟨failure, stopped, hrejects, hstrict, hfailure⟩
  · rw [Prog.bind_of_ok hstrict]
    rcases hresult' hordinary.2 with ⟨hall', hgood', hstrict'⟩ | ⟨failure, stopped, hrejects, hstrict', hfailure⟩
    · exact .inl ⟨List.forall_mem_append.mpr ⟨hall, hall'⟩, hgood' hgood, hstrict'⟩
    · exact .inr ⟨failure, stopped, hrejects.prepend hall, hstrict', hfailure⟩
  · exact .inr ⟨failure, stopped, hrejects.append _, Prog.bind_of_error hstrict _, hfailure⟩

theorem gated_get {next next' : Reading → Prog Reading α}
    (h : Gated spans ordinary good r (next r r) (next' r r)) :
    Gated spans ordinary good r ((Prog.get >>= next) r) ((Prog.get >>= next') r) := h

theorem gated_peek {next next' : UInt8 → Prog Reading α}
    (h : Gated spans ordinary good r (next r.here r) (next' r.here r)) :
    Gated spans ordinary good r ((peek >>= next) r) ((peek >>= next') r) := h

theorem gated_failHere {code : ErrorCode} {strict : Res Reading (α × Reading)} :
    Gated spans ordinary good r (failHere code r) strict := gated_error _

theorem gated_ite {condition : Prop} [Decidable condition] {yes no yes' no' : Prog Reading α}
    (hyes : condition → Gated spans ordinary good r (yes r) (yes' r))
    (hno : ¬condition → Gated spans ordinary good r (no r) (no' r)) :
    Gated spans ordinary good r ((if condition then yes else no) r)
      ((if condition then yes' else no') r) := by
  split
  · exact hyes ‹_›
  · exact hno ‹_›

/-! ### Containers -/

/-- Bytes that neither begin a string nor a comment. -/
def Structural (c : UInt8) : Prop := c ≠ ascii '"' ∧ c ≠ ascii '\'' ∧ c ≠ ascii '/'

instance (c : UInt8) : Decidable (Structural c) := inferInstanceAs (Decidable (_ ∧ _ ∧ _))

/-- How the strings of a text depend on what a step passes. -/
structure Spans (spans : Bytes → List (Nat × Bytes)) (ordinary clean : Bytes → Prop)
    (platform : Platform) (cfg : Config) (tail : Nat) : Prop where
  skip : ∀ before rest, (∀ c ∈ before, Structural c) → spans (before ++ rest) = spans rest
  space : ∀ r r', skipWhitespace cfg tail r = .ok ((), r') → r'.failure = none →
    r.failure = none ∧ spans r.rest = spans r'.rest
  number : ∀ r value r', readNumber platform cfg tail r = .ok (value, r') → r'.failure = none →
    r.failure = none ∧ spans r.rest = spans r'.rest ∧ Ast.Clean clean value
  key : ∀ r, Gated spans ordinary clean r (readKey (cfg.gate false) tail r) (readKey (cfg.gate true) tail r)
  string : ∀ r, r.here = ascii '"' →
    Gated spans ordinary clean r (readString (cfg.gate false) tail r) (readString (cfg.gate true) tail r)
  single : ∀ r, cfg.json5 = true → r.here = ascii '\'' → Gated spans ordinary clean r
    (readStringJson5 (cfg.gate false) tail (ascii '\'') r)
    (readStringJson5 (cfg.gate true) tail (ascii '\'') r)

section Containers

variable {platform : Platform} {cfg : Config} {tail : Nat}

theorem gated_checkDepth {depth : Nat} : Gated spans ordinary (fun _ => True) r
    (checkDepth (cfg.gate false) depth r) (checkDepth (cfg.gate true) depth r) := by
  rw [checkDepth, checkDepth]
  exact gated_ite (fun _ => gated_failHere) fun _ => gated_ok trivial

theorem state_of_checkDepth {depth : Nat} {result : Unit} {r' : Reading}
    (h : checkDepth cfg depth r = .ok (result, r')) : r' = r := by
  rw [checkDepth] at h
  split at h
  · cases h
  · cases h
    rfl

theorem gated_atByte (c : UInt8) : Gated spans ordinary (fun _ => True) r (atByte tail c r)
    (atByte tail c r) := by
  rw [atByte]
  exact gated_get (gated_ite (fun _ => gated_ok trivial) fun _ => gated_ok trivial)

/-- A container that is closed after a comma is closed by the byte at the cursor. -/
theorem here_of_closedAfterComma {c : UInt8} {r' : Reading}
    (h : closedAfterComma skipWhitespace cfg tail c r = .ok (true, r')) : r'.here = c := by
  rw [closedAfterComma] at h
  split at h
  · rw [Prog.bind_apply, Res.bind_eq_ok] at h
    obtain ⟨⟨_, r₁⟩, -, h⟩ := h
    exact (here_of_atByte h).2
  · cases h

theorem gated_checkDuplicateKey {members : List (Bytes × Ast)} {key : Bytes} :
    Gated spans ordinary (fun _ => True) r (checkDuplicateKey (cfg.gate false) members key r)
      (checkDuplicateKey (cfg.gate true) members key r) := by
  rw [checkDuplicateKey, checkDuplicateKey]
  exact gated_ite (fun _ => gated_error _) fun _ => gated_ok trivial

theorem gated_failIfRecorded : Gated spans ordinary (fun _ => True) r (failIfRecorded r) (failIfRecorded r) := by
  rw [failIfRecorded]
  refine gated_get ?_
  split
  · exact gated_error _
  · exact gated_ok trivial

theorem literalHere_spec {value : Ast} {length : Nat} (h : literalHere r = some (value, length)) :
    (∀ c ∈ r.rest.take length, Structural c) ∧ value.Clean clean := by
  rw [literalHere] at h
  split_ifs at h with htrue hnull hfalse
  · cases h
    rw [htrue]
    exact ⟨by decide +kernel, .boolean true⟩
  · cases h
    rw [hnull]
    exact ⟨by decide +kernel, .null⟩
  · cases h
    rw [hfalse]
    exact ⟨by decide +kernel, .boolean false⟩

variable (hspans : Spans spans ordinary clean platform cfg tail)
include hspans

theorem gated_skipWhitespace : Gated spans ordinary (fun _ => True) r (skipWhitespace (cfg.gate false) tail r)
    (skipWhitespace (cfg.gate true) tail r) := by
  refine gated_same fun _ r' hrun hr' => ?_
  obtain ⟨hr, hsame⟩ := hspans.space r r' hrun hr'
  exact ⟨hr, hsame, trivial⟩

/-- Move over a byte that is there. -/
theorem gated_advance {c : UInt8} (hc : Structural c) (hne : c ≠ 0) (hhere : r.here = c)
    {next next' : Unit → Prog Reading α}
    (h : ∀ r', Gated spans ordinary good r' (next () r') (next' () r')) :
    Gated spans ordinary good r ((advance 1 >>= next) r) ((advance 1 >>= next') r) := by
  have hadvance : Gated spans ordinary (fun _ : Unit => True) r (advance 1 r) (advance 1 r) := by
    refine gated_same fun _ r' hrun hr' => ?_
    cases hrun
    refine ⟨hr', ?_, trivial⟩
    obtain ⟨rest, hrest⟩ : ∃ rest, r.rest = c :: rest := by
      rw [here] at hhere
      cases hcases : r.rest with
      | nil => rw [hcases] at hhere; exact absurd hhere.symm hne
      | cons b rest => rw [hcases] at hhere; exact ⟨rest, by rw [← hhere]; rfl⟩
    change spans r.rest = spans (r.rest.drop 1)
    rw [hrest]
    exact hspans.skip [c] rest (List.forall_mem_singleton.mpr hc)
  exact gated_bind hadvance fun _ r' _ => gated_mono (h r') fun _ hgood _ => hgood

theorem gated_closedAfterComma (c : UInt8) : Gated spans ordinary (fun _ => True) r
    (closedAfterComma skipWhitespace (cfg.gate false) tail c r)
    (closedAfterComma skipWhitespace (cfg.gate true) tail c r) := by
  rw [closedAfterComma, closedAfterComma]
  refine gated_ite (fun _ => ?_) fun _ => gated_ok trivial
  refine gated_bind (gated_skipWhitespace hspans) fun _ r' _ => ?_
  exact gated_mono (gated_atByte c) fun _ _ _ => trivial

theorem gated_elementsLoop {element element' : Prog Reading Ast}
    (helement : ∀ r, Gated spans ordinary (Ast.Clean clean) r (element r) (element' r)) {fuel : Nat}
    {elements : List Ast} :
    Gated spans ordinary
      (fun values => (∀ value ∈ elements, value.Clean clean) → ∀ value ∈ values, Ast.Clean clean value) r
      (elementsLoop skipWhitespace (cfg.gate false) tail element fuel elements r)
      (elementsLoop skipWhitespace (cfg.gate true) tail element' fuel elements r) := by
  induction fuel generalizing r elements with
  | zero => exact gated_stuck
  | succ fuel ih =>
      rw [elementsLoop, elementsLoop]
      refine gated_bind (helement r) fun value r₁ _ => ?_
      refine gated_bind (gated_skipWhitespace hspans) fun _ r₂ _ => ?_
      refine gated_peek ?_
      have hdone : ∀ r', Gated spans ordinary (fun values => True → value.Clean clean →
          (∀ value ∈ elements, value.Clean clean) → ∀ value ∈ values, Ast.Clean clean value) r'
          ((pure (elements ++ [value]) : Prog Reading (List Ast)) r')
          ((pure (elements ++ [value]) : Prog Reading (List Ast)) r') := fun r' =>
        gated_ok fun _ hvalue helements => List.forall_mem_append.mpr
          ⟨helements, List.forall_mem_singleton.mpr hvalue⟩
      refine gated_ite (fun hclose => ?_) fun _ => gated_ite (fun hcomma => ?_) fun _ => gated_failHere
      · exact gated_advance hspans (by decide) (by decide) hclose hdone
      · refine gated_advance hspans (by decide) (by decide) hcomma fun r₃ => ?_
        refine gated_bind (gated_closedAfterComma hspans _) fun closed r₄ hclosed => ?_
        cases closed with
        | true =>
            have hclose := here_of_closedAfterComma hclosed
            refine gated_advance hspans (by decide) (by decide) hclose fun r₅ => ?_
            exact gated_mono (hdone r₅) fun _ h _ => h
        | false =>
            refine gated_mono ih fun values h _ _ hvalue helements => h ?_
            exact List.forall_mem_append.mpr ⟨helements, List.forall_mem_singleton.mpr hvalue⟩

theorem gated_readArray {depth : Nat} {element element' : Nat → Prog Reading Ast}
    (helement : ∀ depth r, Gated spans ordinary (Ast.Clean clean) r (element depth r) (element' depth r))
    (hhere : r.here = ascii '[') :
    Gated spans ordinary (Ast.Clean clean) r (readArray skipWhitespace (cfg.gate false) tail depth element r)
      (readArray skipWhitespace (cfg.gate true) tail depth element' r) := by
  rw [readArray, readArray]
  refine gated_get (gated_bind gated_checkDepth fun _ r₁ hdepth => ?_)
  have hhere' : r₁.here = ascii '[' := by
    rw [state_of_checkDepth hdepth]
    exact hhere
  refine gated_advance hspans (by decide) (by decide) hhere' fun r₂ => ?_
  refine gated_bind (gated_skipWhitespace hspans) fun _ r₃ _ => ?_
  refine gated_bind (gated_atByte (ascii ']')) fun empty r₄ hempty => ?_
  refine gated_ite (fun hyes => ?_) fun _ => ?_
  · have hclose := (here_of_atByte (hyes ▸ hempty)).2
    refine gated_advance hspans (by decide) (by decide) hclose fun r₅ => gated_ok fun _ _ _ => ?_
    exact .array [] fun _ hmem => absurd hmem List.not_mem_nil
  · refine gated_bind (gated_elementsLoop hspans (helement (depth + 1))) fun elements r₅ _ => ?_
    refine gated_ok fun helements _ _ _ => .array elements (helements ?_)
    exact fun _ hmem => absurd hmem List.not_mem_nil

theorem gated_readMember {element element' : Prog Reading Ast}
    (helement : ∀ r, Gated spans ordinary (Ast.Clean clean) r (element r) (element' r)) {members : List (Bytes × Ast)} :
    Gated spans ordinary (fun member => clean member.1 ∧ Ast.Clean clean member.2) r
      (readMember skipWhitespace (cfg.gate false) tail element members r)
      (readMember skipWhitespace (cfg.gate true) tail element' members r) := by
  rw [readMember, readMember]
  refine gated_bind (gated_skipWhitespace hspans) fun _ r₁ _ => ?_
  refine gated_bind (hspans.key r₁) fun key r₂ _ => ?_
  refine gated_bind gated_checkDuplicateKey fun _ r₃ _ => ?_
  refine gated_bind (gated_skipWhitespace hspans) fun _ r₄ _ => ?_
  refine gated_peek (gated_ite (fun _ => gated_failHere) fun hcolon => ?_)
  refine gated_advance hspans (by decide) (by decide) (not_not.mp hcolon) fun r₅ => ?_
  refine gated_bind (helement r₅) fun value r₆ _ => ?_
  exact gated_ok fun hvalue _ _ hkey _ => ⟨hkey, hvalue⟩

theorem gated_membersLoop {element element' : Prog Reading Ast}
    (helement : ∀ r, Gated spans ordinary (Ast.Clean clean) r (element r) (element' r)) {fuel : Nat}
    {members : List (Bytes × Ast)} :
    Gated spans ordinary (fun result => (∀ member ∈ members, clean member.1 ∧ Ast.Clean clean member.2) →
        ∀ member ∈ result, clean member.1 ∧ Ast.Clean clean member.2) r
      (membersLoop skipWhitespace (cfg.gate false) tail element fuel members r)
      (membersLoop skipWhitespace (cfg.gate true) tail element' fuel members r) := by
  induction fuel generalizing r members with
  | zero => exact gated_stuck
  | succ fuel ih =>
      rw [membersLoop, membersLoop]
      refine gated_bind (gated_readMember hspans helement) fun member r₁ _ => ?_
      refine gated_bind (gated_skipWhitespace hspans) fun _ r₂ _ => ?_
      refine gated_get (gated_ite (fun _ => gated_failHere) fun _ => ?_)
      have hdone : ∀ r', Gated spans ordinary (fun result => True → clean member.1 ∧ member.2.Clean clean →
          (∀ member ∈ members, clean member.1 ∧ Ast.Clean clean member.2) →
          ∀ member ∈ result, clean member.1 ∧ Ast.Clean clean member.2) r'
          ((pure (members ++ [member]) : Prog Reading (List (Bytes × Ast))) r')
          ((pure (members ++ [member]) : Prog Reading (List (Bytes × Ast))) r') := fun r' =>
        gated_ok fun _ hmember hmembers => List.forall_mem_append.mpr
          ⟨hmembers, List.forall_mem_singleton.mpr hmember⟩
      refine gated_ite (fun hclose => ?_) fun _ => gated_ite (fun hcomma => ?_) fun _ => gated_failHere
      · exact gated_advance hspans (by decide) (by decide) hclose hdone
      · refine gated_advance hspans (by decide) (by decide) hcomma fun r₃ => ?_
        refine gated_bind (gated_closedAfterComma hspans _) fun closed r₄ hclosed => ?_
        cases closed with
        | true =>
            have hclose := here_of_closedAfterComma hclosed
            refine gated_advance hspans (by decide) (by decide) hclose fun r₅ => ?_
            exact gated_mono (hdone r₅) fun _ h _ => h
        | false =>
            refine gated_mono ih fun result h _ _ hmember hmembers => h ?_
            exact List.forall_mem_append.mpr ⟨hmembers, List.forall_mem_singleton.mpr hmember⟩

theorem gated_readObject {depth : Nat} {element element' : Nat → Prog Reading Ast}
    (helement : ∀ depth r, Gated spans ordinary (Ast.Clean clean) r (element depth r) (element' depth r))
    (hhere : r.here = ascii '{') :
    Gated spans ordinary (Ast.Clean clean) r (readObject skipWhitespace (cfg.gate false) tail depth element r)
      (readObject skipWhitespace (cfg.gate true) tail depth element' r) := by
  rw [readObject, readObject]
  refine gated_get (gated_bind gated_checkDepth fun _ r₁ hdepth => ?_)
  have hhere' : r₁.here = ascii '{' := by
    rw [state_of_checkDepth hdepth]
    exact hhere
  refine gated_advance hspans (by decide) (by decide) hhere' fun r₂ => ?_
  refine gated_bind (gated_skipWhitespace hspans) fun _ r₃ _ => gated_peek ?_
  refine gated_ite (fun hclose => ?_) fun _ => ?_
  · refine gated_advance hspans (by decide) (by decide) hclose fun r₄ => gated_ok fun _ _ => ?_
    exact .object [] (fun _ hmem => absurd hmem List.not_mem_nil) fun _ hmem =>
      absurd hmem List.not_mem_nil
  · refine gated_bind (gated_membersLoop hspans (helement (depth + 1))) fun members r₄ _ => ?_
    refine gated_ok fun hmembers _ _ => ?_
    have hall := hmembers fun _ hmem => absurd hmem List.not_mem_nil
    exact .object members (fun member hmem => (hall member hmem).1) fun member hmem =>
      (hall member hmem).2

/-! ### Values and texts -/

/-- Bytes in front that begin no string are passed. -/
theorem spans_drop {count : Nat} (h : ∀ c ∈ r.rest.take count, Structural c) :
    spans r.rest = spans (r.rest.drop count) := by
  have hskip := hspans.skip (r.rest.take count) (r.rest.drop count) h
  rwa [List.take_append_drop] at hskip

theorem gated_readLiteral : Gated spans ordinary (Ast.Clean clean) r (readLiteral (cfg.gate false) r)
    (readLiteral (cfg.gate true) r) := by
  refine gated_same fun value r' hrun hr' => ?_
  simp only [readLiteral, Prog.bind_get] at hrun
  cases hliteral : literalHere r with
  | none => rw [hliteral] at hrun; cases hrun
  | some result =>
      obtain ⟨value', length⟩ := result
      obtain ⟨hplain, hclean⟩ := literalHere_spec hliteral
      rw [hliteral] at hrun
      simp only [advance, Prog.bind_modify] at hrun
      rw [Prog.bind_apply, peek, Res.ok_bind] at hrun
      split at hrun
      · cases hrun
        exact ⟨hr', spans_drop hspans hplain, hclean⟩
      · cases hrun

theorem gated_readValueAt {depth : Nat} {element element' : Nat → Prog Reading Ast}
    (helement : ∀ depth r, Gated spans ordinary (Ast.Clean clean) r (element depth r) (element' depth r))
    {unexpected : ErrorCode} :
    Gated spans ordinary (Ast.Clean clean) r
      (readValueAt skipWhitespace platform (cfg.gate false) tail depth element unexpected r.here r)
      (readValueAt skipWhitespace platform (cfg.gate true) tail depth element' unexpected r.here r) := by
  have hnumber : Gated spans ordinary (Ast.Clean clean) r (readNumber platform (cfg.gate false) tail r)
      (readNumber platform (cfg.gate true) tail r) :=
    gated_same fun value r' hrun hr' => hspans.number r value r' hrun hr'
  rw [readValueAt, readValueAt]
  refine gated_ite (fun hhere => gated_readObject hspans helement hhere) fun _ => ?_
  refine gated_ite (fun hhere => gated_readArray hspans helement hhere) fun _ => ?_
  refine gated_ite (fun hhere => ?_) fun _ => ?_
  · exact gated_bind (hspans.string r hhere) fun value r' _ => gated_ok fun h => .string value h
  refine gated_ite (fun _ => gated_readLiteral hspans) fun _ => ?_
  refine gated_ite (fun _ => hnumber) fun _ => ?_
  refine gated_ite (fun hsingle => ?_) fun _ => ?_
  · exact gated_bind (hspans.single r hsingle.1 hsingle.2) fun value r' _ =>
      gated_ok fun h => .string value h
  exact gated_ite (fun _ => hnumber) fun _ => gated_failHere

theorem gated_readElement {fuel depth : Nat} :
    Gated spans ordinary (Ast.Clean clean) r (readElement skipWhitespace platform (cfg.gate false) tail fuel depth r)
      (readElement skipWhitespace platform (cfg.gate true) tail fuel depth r) := by
  induction fuel generalizing r depth with
  | zero => exact gated_stuck
  | succ fuel ih =>
      rw [readElement, readElement]
      refine gated_bind (gated_skipWhitespace hspans) fun _ r₁ _ => gated_peek ?_
      exact gated_mono (gated_readValueAt hspans fun _ _ => ih) fun _ h _ => h

theorem gated_readValue {fuel : Nat} :
    Gated spans ordinary (Ast.Clean clean) r (readValue skipWhitespace platform (cfg.gate false) tail fuel r)
      (readValue skipWhitespace platform (cfg.gate true) tail fuel r) := by
  rw [readValue, readValue]
  refine gated_bind (gated_skipWhitespace hspans) fun _ r₁ _ => gated_peek (gated_get ?_)
  refine gated_ite (fun _ => gated_failHere) fun _ => ?_
  exact gated_mono (gated_readValueAt hspans fun _ _ => gated_readElement hspans) fun _ h _ => h

theorem gated_skipLeadingBom : Gated spans ordinary (fun _ => True) r (skipLeadingBom (cfg.gate false) tail r)
    (skipLeadingBom (cfg.gate true) tail r) := by
  refine gated_same fun _ r' hrun hr' => ?_
  rw [skipLeadingBom, Prog.modify_apply, Res.ok.injEq, Prod.mk.injEq] at hrun
  obtain ⟨-, rfl⟩ := hrun
  split at hr'
  · rename_i hbom
    refine ⟨hr', ?_, trivial⟩
    rw [if_pos hbom]
    have htake : r.rest.take 3 = [0xEF, 0xBB, 0xBF] := by
      have hbody := beq_iff_eq.mp hbom.2
      have hlength := congrArg List.length hbody
      rw [List.length_take, length_body, List.length_cons, List.length_cons,
        List.length_singleton] at hlength
      rw [body, List.take_take] at hbody
      rwa [show min 3 (r.rest.length - tail) = 3 by omega] at hbody
    exact spans_drop hspans (by rw [htake]; decide +kernel)
  · rename_i hbom
    refine ⟨hr', ?_, trivial⟩
    rw [if_neg hbom]

theorem gated_readText :
    Gated spans ordinary (Ast.Clean clean) r (readText skipWhitespace platform (cfg.gate false) tail r)
      (readText skipWhitespace platform (cfg.gate true) tail r) := by
  rw [readText, readText]
  refine gated_get (gated_bind (gated_skipLeadingBom hspans) fun _ r₁ _ => ?_)
  refine gated_bind (gated_readValue hspans) fun value r₂ _ => ?_
  refine gated_bind gated_failIfRecorded fun _ r₃ _ => ?_
  refine gated_bind (gated_skipWhitespace hspans) fun _ r₄ _ => ?_
  refine gated_bind gated_failIfRecorded fun _ r₅ _ => gated_get ?_
  exact gated_ite (fun _ => gated_ok fun _ _ _ hvalue _ => hvalue) fun _ => gated_failHere

end Containers

end Reading

end PjhJson
