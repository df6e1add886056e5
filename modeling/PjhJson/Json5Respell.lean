import PjhJson.Json5Complete

/-! Other tokens for a value. A token may be replaced by another one of its kind, and a name by a
string: the tokens are still those of a value, of the same one where the new tokens denote the same. -/

namespace PjhJson.Json5

open Grammar

variable {platform : Platform} {cfg cfg' : Config}

/-! ### Replaced tokens -/

/-- The tokens that `R` replaces may stand where the old ones do, under the settings `cfg'`. Only
strings and names are replaced, and where `exact` holds by tokens that denote the same. -/
structure Respells (exact : Prop) (cfg cfg' : Config) (R : Token → Token → Prop) : Prop where
  punctuator : ∀ {token : Token} {c : UInt8}, R token (.punctuator c) → token = .punctuator c
  word : ∀ {token : Token} {spelling : Bytes}, R token (.word spelling) → token = .word spelling
  number : ∀ {token : Token} {spelling : Bytes}, R token (.number spelling) → token = .number spelling
  string : ∀ {token : Token} {quote : UInt8} {content value : Bytes}, R token (.string quote content) →
    StringToken cfg quote content value → ∃ quote' content' value', token = .string quote' content' ∧
      StringToken cfg' quote' content' value' ∧ (exact → value' = value)
  name : ∀ {token : Token} {spelling : Bytes} {chars : List Char}, R token (.name spelling) →
    IdentifierName spelling chars → MemberName cfg' token (utf8Bytes chars)

/-- A value, some values or some members for others: they are nested as deep, and they are the same
where `exact` holds. -/
structure Stands {α : Type} (nesting : α → Nat) (exact : Prop) (value value' : α) : Prop where
  nesting : nesting value' = nesting value
  same : exact → value' = value

theorem stands_refl {α : Type} (nesting : α → Nat) (exact : Prop) (value : α) :
    Stands nesting exact value value := ⟨rfl, fun _ => rfl⟩

variable {exact : Prop} {R : Token → Token → Prop}

theorem forall₂_append {tokens first second : List Token}
    (h : List.Forall₂ R tokens (first ++ second)) :
    ∃ first' second', tokens = first' ++ second' ∧ List.Forall₂ R first' first ∧
      List.Forall₂ R second' second :=
  ⟨_, _, (List.take_append_drop _ _).symm, List.forall₂_take_append _ _ _ h,
    List.forall₂_drop_append _ _ _ h⟩

theorem forall₂_singleton {tokens : List Token} {token : Token}
    (h : List.Forall₂ R tokens [token]) : ∃ token', tokens = [token'] ∧ R token' token := by
  obtain ⟨token', rest, htoken, hrest, rfl⟩ := List.forall₂_cons_right_iff.mp h
  obtain rfl := List.forall₂_nil_right_iff.mp hrest
  exact ⟨token', rfl, htoken⟩

section Respells

variable (hR : Respells exact cfg cfg' R)
include hR

theorem Respells.cons_punctuator {tokens more : List Token} {c : UInt8}
    (h : List.Forall₂ R tokens (.punctuator c :: more)) :
    ∃ more', tokens = .punctuator c :: more' ∧ List.Forall₂ R more' more := by
  obtain ⟨token, rest, htoken, hrest, rfl⟩ := List.forall₂_cons_right_iff.mp h
  rw [hR.punctuator htoken]
  exact ⟨rest, rfl, hrest⟩

theorem Respells.trailingComma {tokens comma : List Token} (hcomma : TrailingComma comma)
    (h : List.Forall₂ R tokens comma) : TrailingComma tokens := by
  rcases hcomma with rfl | rfl
  · exact .inl (List.forall₂_nil_right_iff.mp h)
  · obtain ⟨rest, rfl, hrest⟩ := hR.cons_punctuator h
    rw [List.forall₂_nil_right_iff.mp hrest]
    exact .inr rfl

/-- The brackets around what a container holds are kept. -/
theorem Respells.close {tokens more : List Token} {c c' : UInt8}
    (h : List.Forall₂ R tokens (.punctuator c :: (more ++ [.punctuator c']))) :
    ∃ more', tokens = .punctuator c :: (more' ++ [.punctuator c']) ∧ List.Forall₂ R more' more := by
  obtain ⟨rest, rfl, hrest⟩ := hR.cons_punctuator h
  obtain ⟨more', last, rfl, hmore, hlast⟩ := forall₂_append hrest
  obtain ⟨behind, rfl, hbehind⟩ := hR.cons_punctuator hlast
  rw [List.forall₂_nil_right_iff.mp hbehind]
  exact ⟨more', rfl, hmore⟩

/-- A member name, and what follows the colon behind it. -/
theorem Respells.cons_name {tokens more : List Token} {name : Token} {key : Bytes}
    (hname : MemberName cfg name key)
    (h : List.Forall₂ R tokens (name :: .punctuator (ascii ':') :: more)) :
    ∃ name' key' more', tokens = name' :: .punctuator (ascii ':') :: more' ∧
      MemberName cfg' name' key' ∧ (exact → key' = key) ∧ List.Forall₂ R more' more := by
  obtain ⟨name', rest, hname', hrest, rfl⟩ := List.forall₂_cons_right_iff.mp h
  obtain ⟨more', rfl, hmore⟩ := hR.cons_punctuator hrest
  cases hname with
  | name spelling chars hchars =>
      exact ⟨name', _, more', rfl, hR.name hname' hchars, fun _ => rfl, hmore⟩
  | string quote content value hstring =>
      obtain ⟨quote', content', value', rfl, hstring', hsame⟩ := hR.string hname' hstring
      exact ⟨_, value', more', rfl, .string quote' content' value' hstring', hsame, hmore⟩

theorem Respells.word_value {tokens : List Token} {spelling : Bytes} {value : Ast}
    (hvalue : Value platform cfg' [.word spelling] value)
    (h : List.Forall₂ R tokens [.word spelling]) :
    ∃ value', Value platform cfg' tokens value' ∧ Stands Ast.nesting exact value value' := by
  obtain ⟨token, rfl, htoken⟩ := forall₂_singleton h
  rw [hR.word htoken]
  exact ⟨value, hvalue, stands_refl _ _ _⟩

end Respells

/-! ### Values -/

/-- The replaced tokens are tokens of a value: by induction on the derivation. -/
theorem Value.respell (hR : Respells exact cfg cfg' R) {tokens tokens' : List Token} {value : Ast}
    (h : Value platform cfg tokens value) (htokens : List.Forall₂ R tokens' tokens) :
    ∃ value', Value platform cfg' tokens' value' ∧ Stands Ast.nesting exact value value' := by
  revert tokens'
  refine @Value.rec platform cfg
    (fun tokens value _ => ∀ {tokens'}, List.Forall₂ R tokens' tokens →
      ∃ value', Value platform cfg' tokens' value' ∧ Stands Ast.nesting exact value value')
    (fun tokens values _ => ∀ {tokens'}, List.Forall₂ R tokens' tokens →
      ∃ values', Elements platform cfg' tokens' values' ∧
        Stands Ast.nestingElements exact values values')
    (fun tokens members _ => ∀ {tokens'}, List.Forall₂ R tokens' tokens →
      ∃ members', Members platform cfg' tokens' members' ∧
        Stands Ast.nestingMembers exact members members')
    ?null ?boolTrue ?boolFalse ?number ?string ?emptyArray ?array ?emptyObject ?object
    ?lastElement ?moreElements ?lastMember ?moreMembers tokens value h
  case null => exact hR.word_value .null
  case boolTrue => exact hR.word_value .boolTrue
  case boolFalse => exact hR.word_value .boolFalse
  case number =>
      intro token hnumber tokens' h
      obtain ⟨token', rfl, htoken⟩ := forall₂_singleton h
      rw [hR.number htoken]
      exact ⟨_, .number token hnumber, stands_refl _ _ _⟩
  case string =>
      intro quote content value hstring tokens' h
      obtain ⟨token, rfl, htoken⟩ := forall₂_singleton h
      obtain ⟨quote', content', value', rfl, hstring', hsame⟩ := hR.string htoken hstring
      exact ⟨_, .string quote' content' value' hstring', by simp only [Ast.nesting],
        fun hexact => by rw [hsame hexact]⟩
  case emptyArray =>
      intro tokens' h
      obtain ⟨more, rfl, hmore⟩ := @Respells.close cfg cfg' exact R hR tokens' [] _ _ h
      rw [List.forall₂_nil_right_iff.mp hmore]
      exact ⟨_, .emptyArray, stands_refl _ _ _⟩
  case array =>
      intro tokens elements _ ih tokens' h
      obtain ⟨more, rfl, hmore⟩ := hR.close h
      obtain ⟨elements', helements, hnesting, hsame⟩ := ih hmore
      exact ⟨_, .array more elements' helements, by rw [Ast.nesting, Ast.nesting, hnesting],
        fun hexact => by rw [hsame hexact]⟩
  case emptyObject =>
      intro tokens' h
      obtain ⟨more, rfl, hmore⟩ := @Respells.close cfg cfg' exact R hR tokens' [] _ _ h
      rw [List.forall₂_nil_right_iff.mp hmore]
      exact ⟨_, .emptyObject, stands_refl _ _ _⟩
  case object =>
      intro tokens members _ ih tokens' h
      obtain ⟨more, rfl, hmore⟩ := hR.close h
      obtain ⟨members', hmembers, hnesting, hsame⟩ := ih hmore
      exact ⟨_, .object more members' hmembers, by rw [Ast.nesting, Ast.nesting, hnesting],
        fun hexact => by rw [hsame hexact]⟩
  case lastElement =>
      intro tokens comma value _ hcomma ih tokens' h
      obtain ⟨first, last, rfl, hfirst, hlast⟩ := forall₂_append h
      obtain ⟨value', hvalue, hnesting, hsame⟩ := ih hfirst
      exact ⟨_, .last first last value' hvalue (hR.trailingComma hcomma hlast),
        by simp only [Ast.nestingElements, hnesting],
        fun hexact => by rw [hsame hexact]⟩
  case moreElements =>
      intro tokens rest value values _ _ ih ihrest tokens' h
      obtain ⟨first, second, rfl, hfirst, hsecond⟩ := forall₂_append h
      obtain ⟨more, rfl, hmore⟩ := hR.cons_punctuator hsecond
      obtain ⟨value', hvalue, hnesting, hsame⟩ := ih hfirst
      obtain ⟨values', hvalues, hnestings, hsames⟩ := ihrest hmore
      exact ⟨_, .more first more value' values' hvalue hvalues,
        by rw [Ast.nestingElements, Ast.nestingElements, hnesting, hnestings],
        fun hexact => by rw [hsame hexact, hsames hexact]⟩
  case lastMember =>
      intro name tokens comma key value hname _ hcomma ih tokens' h
      obtain ⟨name', key', more, rfl, hname', hkey, hmore⟩ := hR.cons_name hname h
      obtain ⟨first, last, rfl, hfirst, hlast⟩ := forall₂_append hmore
      obtain ⟨value', hvalue, hnesting, hsame⟩ := ih hfirst
      exact ⟨_, .last name' first last key' value' hname' hvalue (hR.trailingComma hcomma hlast),
        by simp only [Ast.nestingMembers, hnesting],
        fun hexact => by rw [hsame hexact, hkey hexact]⟩
  case moreMembers =>
      intro name tokens rest key value members hname _ _ ih ihrest tokens' h
      obtain ⟨name', key', more, rfl, hname', hkey, hmore⟩ := hR.cons_name hname h
      obtain ⟨first, second, rfl, hfirst, hsecond⟩ := forall₂_append hmore
      obtain ⟨last, rfl, hlast⟩ := hR.cons_punctuator hsecond
      obtain ⟨value', hvalue, hnesting, hsame⟩ := ih hfirst
      obtain ⟨members', hmembers, hnestings, hsames⟩ := ihrest hlast
      exact ⟨_, .more name' first last key' value' members' hname' hvalue hmembers,
        by rw [Ast.nestingMembers, Ast.nestingMembers, hnesting, hnestings],
        fun hexact => by rw [hsame hexact, hkey hexact, hsames hexact]⟩

/-- With tokens that denote the same the value is the same. -/
theorem Value.respell_same (hR : Respells True cfg cfg' R) {tokens tokens' : List Token} {value : Ast}
    (h : Value platform cfg tokens value) (htokens : List.Forall₂ R tokens' tokens) :
    Value platform cfg' tokens' value := by
  obtain ⟨value', hvalue, -, hsame⟩ := h.respell hR htokens
  rwa [hsame trivial] at hvalue

theorem StringToken.config (h : cfg'.strictUtf8 = cfg.strictUtf8) {quote : UInt8}
    {content value : Bytes} (hstring : StringToken cfg quote content value) :
    StringToken cfg' quote content value := by
  obtain ⟨hquote, marks, hcontent, hpasses⟩ := hstring
  refine ⟨hquote, marks, hcontent, fun hutf8 => hpasses ?_⟩
  rw [← h, hutf8]

/-- No other setting than the strict UTF-8 gate has a say in the grammar. -/
theorem Value.config {tokens : List Token} {value : Ast} (hvalue : Value platform cfg tokens value)
    (cfg' : Config) (h : cfg'.strictUtf8 = cfg.strictUtf8) : Value platform cfg' tokens value := by
  have hrespells : Respells True cfg cfg' (fun token' token => token' = token) :=
    { punctuator := fun h => h
      word := fun h => h
      number := fun h => h
      string := fun htoken hstring => ⟨_, _, _, htoken, hstring.config h, fun _ => rfl⟩
      name := fun htoken hname => htoken ▸ .name _ _ hname }
  exact hvalue.respell_same hrespells (List.forall₂_eq_eq_eq ▸ rfl)

/-- One token is replaced. -/
theorem forall₂_one {before after : List Token} {token token' : Token} :
    List.Forall₂ (fun new old => new = old ∨ new = token' ∧ old = token)
      (before ++ token' :: after) (before ++ token :: after) := by
  have hkept : ∀ tokens : List Token,
      List.Forall₂ (fun new old => new = old ∨ new = token' ∧ old = token) tokens tokens :=
    fun tokens => List.forall₂_same.mpr fun _ _ => .inl rfl
  exact List.rel_append (hkept before) (.cons (.inr ⟨rfl, rfl⟩) (hkept after))

end PjhJson.Json5
