import PjhJson.Json5Names
import PjhJson.StringContents

/-! Layouts of tokens. Every token that a value may have begins with a byte or a character that no
trivia begins with, so the trivia in front of a token are found again. -/

namespace PjhJson.Json5

open Grammar Scanner

variable {platform : Platform} {cfg : Config}

/-! ### The start of a token -/

/-- A token that is not mistaken for trivia. -/
structure Opens (token : Token) : Prop where
  text : token.text ≠ []
  start : ∀ rest, TokenStart (token.text ++ rest)

/-- The bytes that no trivia begins with. -/
def isTokenByte (c : UInt8) : Bool := c ≤ 0x7F && !isJson5WhitespaceAscii c && c != ascii '/'

theorem tokenStart_cons {c : UInt8} (h : isTokenByte c = true) (rest : Bytes) :
    TokenStart (c :: rest) := by
  simp only [isTokenByte, Bool.and_eq_true, decide_eq_true_eq, Bool.not_eq_true', bne_iff_ne] at h
  obtain ⟨⟨hle, hspace⟩, hslash⟩ := h
  have hascii : c < 0x80 := by
    rw [UInt8.lt_iff_toNat_lt]
    exact Nat.lt_succ_of_le (UInt8.le_iff_toNat_le.mp hle)
  refine ⟨stops_cons.mpr hspace, ?_, ?_, ?_⟩
  · rw [skipUnicodeWhitespace, if_pos hascii]
  · intro h
    exact hslash (List.cons.inj h).1
  · intro h
    exact hslash (List.cons.inj h).1

theorem opens_cons {token : Token} {c : UInt8} {more : Bytes} (htext : token.text = c :: more)
    (hc : isTokenByte c = true) : Opens token where
  text := by
    rw [htext]
    exact List.cons_ne_nil _ _
  start rest := by
    rw [htext]
    exact tokenStart_cons hc _

/-- The first token of a value or of a member: it does not close anything. -/
structure Leads (token : Token) : Prop extends Opens token where
  closes : ∀ c, token.text.head? = some c → c ≠ ascii ']' ∧ c ≠ ascii '\x7d'

theorem leads_cons {token : Token} {c : UInt8} {more : Bytes} (htext : token.text = c :: more)
    (hc : isTokenByte c = true) (hclose : c ≠ ascii ']' ∧ c ≠ ascii '\x7d') : Leads token where
  toOpens := opens_cons htext hc
  closes b hb := by
    rw [htext] at hb
    rwa [← Option.some.inj hb]

theorem Quote.leads {quote : UInt8} (h : Quote quote) (content : Bytes) :
    Leads (.string quote content) := by
  have hbounds : isTokenByte quote = true ∧ quote ≠ ascii ']' ∧ quote ≠ ascii '\x7d' := by
    rcases h with rfl | rfl <;> decide
  exact leads_cons rfl hbounds.1 hbounds.2

theorem isTokenByte_number {c : UInt8} (h : isNumberStart c = true) : isTokenByte c = true := by
  simp only [isNumberStart, Bool.or_eq_true, beq_iff_eq] at h
  rcases h with ((((h | rfl) | rfl) | rfl) | rfl) | rfl
  · have hle : c ≤ 0x7F := UInt8.le_trans ((isDigit_iff c).mp h).2 (by decide)
    have hspace : isJson5WhitespaceAscii c = false := by
      by_contra hne
      rw [Bool.not_eq_false] at hne
      simp only [isJson5WhitespaceAscii, isWhitespace, Bool.or_eq_true, beq_iff_eq] at hne
      rcases hne with ((((rfl | rfl) | rfl) | rfl) | rfl) | rfl
      all_goals exact absurd h (by decide)
    have hslash : c ≠ ascii '/' := by
      rintro rfl
      exact absurd h (by decide)
    rw [isTokenByte, decide_eq_true hle, hspace, bne_iff_ne.mpr hslash]
    rfl
  all_goals decide

theorem NumberToken.leads {token : Bytes} (h : NumberToken platform token) : Leads (.number token) := by
  obtain ⟨c, more, htoken, hc⟩ := numberToken_start h
  refine leads_cons htoken (isTokenByte_number hc) ⟨?_, ?_⟩
  · rintro rfl
    exact absurd hc (by decide)
  · rintro rfl
    exact absurd hc (by decide)

/-- No character of an identifier begins like trivia. -/
theorem tokenStart_char {c : Char} (hpart : Unicode.isIdentifierContinue c.toNat = true)
    (rest : Bytes) : TokenStart (String.utf8EncodeChar c ++ rest) := by
  have hspace : ¬WhiteSpace c.toNat := fun h =>
    Bool.false_ne_true ((whiteSpace_ends h).2.symm.trans hpart)
  by_cases hle : c.toNat ≤ 0x7F
  · have hnat := @Unicode.toNat_toUInt8 c.toNat (by omega)
    rw [encode_ascii hle]
    refine tokenStart_cons ?_ rest
    have hbyte : c.toNat.toUInt8 ≤ 0x7F := by
      rw [UInt8.le_iff_toNat_le, hnat]
      exact hle
    have hascii : isJson5WhitespaceAscii c.toNat.toUInt8 = false := by
      by_contra hne
      refine hspace (whiteSpace_iff.mp ?_)
      rw [isJson5Whitespace, if_pos hle]
      exact Bool.not_eq_false _ ▸ hne
    have hslash : c.toNat.toUInt8 ≠ ascii '/' := by
      intro hslash
      rw [← hnat, hslash] at hpart
      exact absurd hpart (by decide)
    rw [isTokenByte, decide_eq_true hbyte, hascii, bne_iff_ne.mpr hslash]
    rfl
  · obtain ⟨lead, conts, hencode, hlead⟩ := encode_lead (Nat.lt_of_not_le hle)
    have hne : ∀ b : UInt8, b ≤ 0x7F → lead ≠ b := by
      rintro b hb rfl
      exact absurd (UInt8.le_trans hlead hb) (by decide)
    refine ⟨?_, ?_, ?_, ?_⟩
    · rw [hencode]
      refine stops_cons.mpr ?_
      by_contra hspace
      exact hne lead (isJson5WhitespaceAscii_lt (Bool.not_eq_false _ ▸ hspace)) rfl
    · rw [Option.eq_none_iff_forall_ne_some]
      intro more hmore
      obtain ⟨c', -, hspace', heq⟩ := skipUnicodeWhitespace_iff.mp hmore
      have hdecode := Unicode.decodeUtf8_encode c rest
      rw [heq, Unicode.decodeUtf8_encode] at hdecode
      exact hspace ((Prod.mk.inj (Option.some.inj hdecode)).1 ▸ hspace')
    · rw [hencode]
      intro h
      exact hne (ascii '/') (by decide) (List.cons.inj h).1
    · rw [hencode]
      intro h
      exact hne (ascii '/') (by decide) (List.cons.inj h).1

/-- An identifier goes on with a byte from 0x80 on or with one of its ASCII bytes. -/
theorem head_char {c : Char} (hpart : Unicode.isIdentifierContinue c.toNat = true) {rest : Bytes}
    {b : UInt8} (hb : (String.utf8EncodeChar c ++ rest).head? = some b) (hle : b ≤ 0x7F) :
    Grammar.isIdentifierContinue b = true := by
  by_cases hascii : c.toNat ≤ 0x7F
  · rw [encode_ascii hascii] at hb
    rw [Unicode.isIdentifierContinue, if_pos hascii] at hpart
    rwa [← Option.some.inj hb]
  · obtain ⟨lead, conts, hencode, hlead⟩ := encode_lead (Nat.lt_of_not_le hascii)
    rw [hencode] at hb
    rw [Option.some.inj hb] at hlead
    exact absurd (UInt8.le_trans hlead hle) (by decide)

/-- The first byte of an identifier. -/
theorem IdentifierName.head {text : Bytes} {chars : List Char} (h : IdentifierName text chars)
    {b : UInt8} (hb : text.head? = some b) :
    b = ascii '\\' ∨ (b ≤ 0x7F → Grammar.isIdentifierContinue b = true) := by
  obtain ⟨spelling, rest, c, chars, hunit, hstart, -⟩ := h
  cases hunit with
  | escaped _ _ h =>
      obtain ⟨digits, rfl⟩ := h.start
      exact .inl (Option.some.inj hb).symm
  | raw c => exact .inr (head_char (start_continues hstart) hb)

theorem IdentifierName.leads {text : Bytes} {chars : List Char} (h : IdentifierName text chars) :
    Leads (.name text) := by
  have hhead := fun b => @IdentifierName.head _ _ h b
  obtain ⟨spelling, rest, c, chars, hunit, hstart, -⟩ := h
  cases hunit with
  | escaped _ _ h =>
      obtain ⟨digits, rfl⟩ := h.start
      exact leads_cons rfl (by decide) (by decide)
  | raw c =>
      have hpos := (IdentifierUnit.raw c).length_pos
      refine ⟨⟨?_, fun more => ?_⟩, fun b hb => ⟨?_, ?_⟩⟩
      · intro hnil
        rw [Token.text, List.append_eq_nil_iff] at hnil
        rw [hnil.1] at hpos
        exact absurd hpos (by decide)
      · rw [Token.text, List.append_assoc]
        exact tokenStart_char (start_continues hstart) _
      · rintro rfl
        exact absurd (hhead _ hb) (by decide)
      · rintro rfl
        exact absurd (hhead _ hb) (by decide)

theorem MemberName.leads {token : Token} {key : Bytes} (h : MemberName cfg token key) :
    Leads token := by
  cases h with
  | name spelling chars h => exact h.leads
  | string quote content value h => exact Quote.leads h.1 content

/-! ### The start of a list of tokens -/

/-- The tokens begin with one that is not mistaken for trivia. -/
def Begins (tokens : List Token) : Prop := ∃ first more, tokens = first :: more ∧ Opens first

theorem begins_cons {token : Token} {tokens : List Token} (h : Opens token) :
    Begins (token :: tokens) := ⟨token, tokens, rfl, h⟩

theorem opens_punctuator {c : UInt8} (hc : isTokenByte c = true) : Opens (.punctuator c) :=
  opens_cons rfl hc

/-- The tokens begin with the first one of a value or of a member. -/
def Leading (tokens : List Token) : Prop := ∃ first more, tokens = first :: more ∧ Leads first

theorem leading_cons {token : Token} {tokens : List Token} (h : Leads token) :
    Leading (token :: tokens) := ⟨token, tokens, rfl, h⟩

theorem Leading.append {tokens : List Token} (h : Leading tokens) (more : List Token) :
    Leading (tokens ++ more) := by
  obtain ⟨first, rest, rfl, hleads⟩ := h
  exact ⟨first, rest ++ more, rfl, hleads⟩

theorem Leading.begins {tokens : List Token} (h : Leading tokens) : Begins tokens := by
  obtain ⟨first, rest, rfl, hleads⟩ := h
  exact begins_cons hleads.toOpens

theorem leads_punctuator {c : UInt8} (hc : isTokenByte c = true)
    (hclose : c ≠ ascii ']' ∧ c ≠ ascii '\x7d') : Leads (.punctuator c) := leads_cons rfl hc hclose

theorem TrailingComma.text_ne_nil {tokens : List Token} (h : TrailingComma tokens) :
    ∀ token ∈ tokens, token.text ≠ [] := by
  rcases h with rfl | rfl
  · exact nofun
  · exact List.forall_mem_singleton.mpr (List.cons_ne_nil _ _)

theorem Value.leading {tokens : List Token} {value : Ast} (h : Value platform cfg tokens value) :
    Leading tokens := by
  cases h with
  | null => exact leading_cons (leads_cons rfl (by decide) (by decide))
  | boolTrue => exact leading_cons (leads_cons rfl (by decide) (by decide))
  | boolFalse => exact leading_cons (leads_cons rfl (by decide) (by decide))
  | number token h => exact leading_cons h.leads
  | string quote content value h => exact leading_cons (Quote.leads h.1 content)
  | emptyArray => exact leading_cons (leads_punctuator (by decide) (by decide))
  | array tokens elements _ => exact leading_cons (leads_punctuator (by decide) (by decide))
  | emptyObject => exact leading_cons (leads_punctuator (by decide) (by decide))
  | object tokens members _ => exact leading_cons (leads_punctuator (by decide) (by decide))

theorem Elements.leading {tokens : List Token} {values : List Ast}
    (h : Elements platform cfg tokens values) : Leading tokens := by
  cases h with
  | last tokens comma value hvalue _ => exact hvalue.leading.append comma
  | more tokens rest value values hvalue _ => exact hvalue.leading.append _

theorem Members.leading {tokens : List Token} {members : List (Bytes × Ast)}
    (h : Members platform cfg tokens members) : Leading tokens := by
  cases h with
  | last name tokens comma key value hname _ _ => exact leading_cons hname.leads
  | more name tokens rest key value members hname _ _ => exact leading_cons hname.leads

mutual

/-- No token of a value is empty. -/
theorem Value.text_ne_nil {tokens : List Token} {value : Ast} :
    Value platform cfg tokens value → ∀ token ∈ tokens, token.text ≠ []
  | .null => by decide
  | .boolTrue => by decide
  | .boolFalse => by decide
  | .number _ h => by simpa using h.leads.text
  | .string _ content _ h => by simpa using (Quote.leads h.1 content).text
  | .emptyArray => by decide
  | .array _ _ h => by
      have hall := h.text_ne_nil
      simp only [List.forall_mem_cons, List.forall_mem_append]
      exact ⟨List.cons_ne_nil _ _, hall, List.cons_ne_nil _ _, nofun⟩
  | .emptyObject => by decide
  | .object _ _ h => by
      have hall := h.text_ne_nil
      simp only [List.forall_mem_cons, List.forall_mem_append]
      exact ⟨List.cons_ne_nil _ _, hall, List.cons_ne_nil _ _, nofun⟩

theorem Elements.text_ne_nil {tokens : List Token} {values : List Ast} :
    Elements platform cfg tokens values → ∀ token ∈ tokens, token.text ≠ []
  | .last _ _ _ h hcomma => by
      have hall := h.text_ne_nil
      rw [List.forall_mem_append]
      exact ⟨hall, hcomma.text_ne_nil⟩
  | .more _ _ _ _ h hrest => by
      have hall := h.text_ne_nil
      have hmore := hrest.text_ne_nil
      simp only [List.forall_mem_cons, List.forall_mem_append]
      exact ⟨hall, List.cons_ne_nil _ _, hmore⟩

theorem Members.text_ne_nil {tokens : List Token} {members : List (Bytes × Ast)} :
    Members platform cfg tokens members → ∀ token ∈ tokens, token.text ≠ []
  | .last _ _ _ _ _ hname h hcomma => by
      have hall := h.text_ne_nil
      simp only [List.forall_mem_cons, List.forall_mem_append]
      exact ⟨hname.leads.text, List.cons_ne_nil _ _, hall, hcomma.text_ne_nil⟩
  | .more _ _ _ _ _ _ hname h hrest => by
      have hall := h.text_ne_nil
      have hmore := hrest.text_ne_nil
      simp only [List.forall_mem_cons, List.forall_mem_append]
      exact ⟨hname.leads.text, List.cons_ne_nil _ _, hall, List.cons_ne_nil _ _, hmore⟩

end

/-! ### Layouts -/

theorem lays_token (token : Token) (rest : Bytes) : Lays [token] (token.text ++ rest) rest :=
  .cons token [] [] rest rest .nil (.nil rest)

theorem Lays.append {first second : List Token} {text middle rest : Bytes}
    (h : Lays first text middle) (h' : Lays second middle rest) : Lays (first ++ second) text rest := by
  induction h with
  | nil => exact h'
  | cons token tokens ws text rest hws _ ih => exact .cons token _ ws _ _ hws (ih h')

theorem utf8Bom_encode : String.utf8EncodeChar '\uFEFF' = [0xEF, 0xBB, 0xBF] := by decide

theorem trivia_bom : Trivia [0xEF, 0xBB, 0xBF] := by
  have htrivium : Trivium [0xEF, 0xBB, 0xBF] :=
    utf8Bom_encode ▸ .whiteSpace '\uFEFF' (.inl (by decide))
  exact .cons _ [] htrivium .nil

/-- A byte order mark in front of a token is white space in front of it. -/
theorem lays_bom {tokens : List Token} (hbegins : Begins tokens) {text rest : Bytes}
    (h : Lays tokens ([0xEF, 0xBB, 0xBF] ++ text) rest) : Lays tokens text rest := by
  obtain ⟨first, more, rfl, hopens⟩ := hbegins
  rw [← utf8Bom_encode] at h
  generalize hp : String.utf8EncodeChar '\uFEFF' ++ text = p at h
  cases h with
  | cons _ _ ws behind rest hws h =>
      cases hws with
      | nil =>
          have hnone := (hopens.start behind).unicode
          have hsome : skipUnicodeWhitespace (first.text ++ behind) = some text :=
            skipUnicodeWhitespace_iff.mpr ⟨'\uFEFF', by decide, .inl (by decide), hp.symm⟩
          rw [hnone] at hsome
          cases hsome
      | cons trivium ws htrivium hws =>
          rw [List.append_assoc] at hp
          cases htrivium with
          | lineComment body terminator _ _ => cases hp
          | blockComment body _ => cases hp
          | whiteSpace c hc =>
              have hdecode := Unicode.decodeUtf8_encode '\uFEFF' text
              rw [hp, Unicode.decodeUtf8_encode] at hdecode
              have hlength := (Prod.mk.inj (Option.some.inj hdecode)).2
              rw [(List.append_inj hp hlength.symm).2]
              exact .cons first more ws behind rest hws h

/-! ### Texts that break off in a comment -/

/-- What stands in front of a token: trivia or, where `torn` allows it, trivia and a comment without an
end that leaves nothing but the last byte of the text. -/
inductive Gap (torn : Prop) : Bytes → Bytes → Prop where
  | trivia (ws text : Bytes) : Trivia ws → Gap torn ws text
  | comment (ws body : Bytes) (c : UInt8) : torn → Trivia ws →
      ¬[ascii '*', ascii '/'] <:+: body ++ [c] →
      Gap torn (ws ++ ascii '/' :: ascii '*' :: body) [c]

/-- The text begins with these tokens, each behind a gap of its own, and goes on with `rest`. -/
inductive Reaches (torn : Prop) : List Token → Bytes → Bytes → Prop where
  | nil (rest : Bytes) : Reaches torn [] rest rest
  | cons (token : Token) (tokens : List Token) (ws text rest : Bytes) :
      Gap torn ws (token.text ++ text) → Reaches torn tokens text rest →
      Reaches torn (token :: tokens) (ws ++ (token.text ++ text)) rest

variable {torn : Prop}

theorem Gap.behind {ws ws' text : Bytes} (hws : Trivia ws) (h : Gap torn ws' text) :
    Gap torn (ws ++ ws') text := by
  cases h with
  | trivia _ _ hws' => exact .trivia _ _ (trivia_append hws hws')
  | comment more body c htorn hmore hbody =>
      rw [← List.append_assoc]
      exact .comment _ body c htorn (trivia_append hws hmore) hbody

theorem reaches_token (token : Token) (rest : Bytes) :
    Reaches torn [token] (token.text ++ rest) rest :=
  .cons token [] [] rest rest (.trivia _ _ .nil) (.nil rest)

theorem Reaches.append {first second : List Token} {text middle rest : Bytes}
    (h : Reaches torn first text middle) (h' : Reaches torn second middle rest) :
    Reaches torn (first ++ second) text rest := by
  induction h with
  | nil => exact h'
  | cons token tokens ws text rest hws _ ih => exact .cons token _ ws _ _ hws (ih h')

theorem Reaches.ne_nil {tokens : List Token} {text rest : Bytes} (h : Reaches torn tokens text rest)
    (hbegins : Begins tokens) : text ≠ [] := by
  obtain ⟨first, more, rfl, hopens⟩ := hbegins
  cases h with
  | cons _ _ ws text rest hws h => simp [hopens.text]

/-- What is skipped in front of a token is a gap. -/
theorem Skips.reaches {tokens : List Token} {p text rest : Bytes} (h : Skips p text)
    (hreaches : Reaches torn tokens text rest) (hbegins : Begins tokens) :
    Reaches torn tokens p rest := by
  rcases h with ⟨ws, hws, rfl⟩ | ⟨hnil, -⟩
  · obtain ⟨first, more, rfl, -⟩ := hbegins
    cases hreaches with
    | cons _ _ ws' text rest hws' h =>
        rw [← List.append_assoc]
        exact .cons first more _ text rest (hws'.behind hws) h
  · exact absurd hnil (hreaches.ne_nil hbegins)

theorem Torn.reaches {tokens : List Token} {p text rest : Bytes} (htorn : torn) (h : Torn p text)
    (hreaches : Reaches torn tokens text rest) (hbegins : Begins tokens) :
    Reaches torn tokens p rest := by
  obtain ⟨ws, body, hws, rfl, hbody, hle⟩ := h
  have hne := hreaches.ne_nil hbegins
  obtain ⟨first, more, rfl, hopens⟩ := hbegins
  obtain ⟨b, others, hfirst⟩ := List.exists_cons_of_ne_nil hopens.text
  cases hreaches with
  | cons _ _ ws' text rest hws' h =>
      rw [hfirst] at hbody hle ⊢
      simp only [List.length_append, List.length_cons] at hle
      obtain rfl : ws' = [] := List.length_eq_zero_iff.mp (by omega)
      obtain rfl : others = [] := List.length_eq_zero_iff.mp (by omega)
      obtain rfl : text = [] := List.length_eq_zero_iff.mp (by omega)
      have hgap : Gap torn (ws ++ ascii '/' :: ascii '*' :: body) (first.text ++ []) := by
        rw [hfirst]
        exact .comment ws body b htorn hws hbody
      have hall := Reaches.cons first more _ [] rest hgap h
      rw [hfirst] at hall
      simpa using hall

theorem Gap.whole {ws text : Bytes} (h : Gap False ws text) : Trivia ws := by
  cases h with
  | trivia _ _ hws => exact hws
  | comment _ _ _ hfalse => exact hfalse.elim

/-- Without such a comment the tokens are laid out with trivia. -/
theorem reaches_false {tokens : List Token} {text rest : Bytes} (h : Reaches False tokens text rest) :
    Lays tokens text rest := by
  induction h with
  | nil rest => exact .nil rest
  | cons token tokens ws text rest hws _ ih => exact .cons token tokens ws text rest hws.whole ih

/-- A comment without an end is in front of the last token, and this token is the last byte. -/
structure BreaksOff (tokens : List Token) (last : Token) (text rest : Bytes) : Prop where
  nothing : rest = []
  layout : ∃ c middle, last.text = [c] ∧ Lays tokens text middle ∧ Torn middle [c]

theorem Reaches.of_nil {tokens : List Token} {rest : Bytes} (h : Reaches torn tokens [] rest)
    (hopens : ∀ token ∈ tokens, token.text ≠ []) : tokens = [] ∧ rest = [] := by
  generalize hp : ([] : Bytes) = p at h
  cases h with
  | nil => exact ⟨rfl, rfl⟩
  | cons token tokens ws text rest _ _ =>
      have hnil := (List.append_eq_nil_iff.mp hp.symm).2
      exact absurd (List.append_eq_nil_iff.mp hnil).1 (hopens token List.mem_cons_self)

theorem Reaches.cases {tokens : List Token} {text rest : Bytes} (h : Reaches torn tokens text rest)
    (hopens : ∀ token ∈ tokens, token.text ≠ []) :
    Lays tokens text rest ∨ ∃ first last, tokens = first ++ [last] ∧ BreaksOff first last text rest := by
  induction h with
  | nil rest => exact .inl (.nil rest)
  | cons token tokens ws text rest hws hreaches ih =>
      rw [List.forall_mem_cons] at hopens
      obtain ⟨behind, hbehind⟩ : ∃ behind, token.text ++ text = behind := ⟨_, rfl⟩
      rw [hbehind] at hws
      cases hws with
      | trivia _ _ hws =>
          rcases ih hopens.2 with hlays | ⟨first, last, rfl, hnil, c, middle, hlast, hlays, htorn⟩
          · exact .inl (.cons token tokens ws text rest hws hlays)
          · exact .inr ⟨token :: first, last, rfl, hnil, c, middle, hlast,
              .cons token first ws text middle hws hlays, htorn⟩
      | comment ws body c _ hws hbody =>
          obtain ⟨b, others, htoken⟩ := List.exists_cons_of_ne_nil hopens.1
          rw [htoken, List.cons_append] at hbehind
          obtain ⟨rfl, hnil⟩ := List.cons.inj hbehind
          obtain ⟨rfl, rfl⟩ := List.append_eq_nil_iff.mp hnil
          obtain ⟨rfl, rfl⟩ := hreaches.of_nil hopens.2
          exact .inr ⟨[], token, rfl, rfl, b, _, htoken, .nil _, ws, body, hws,
            by simp [htoken], hbody, Nat.le_refl _⟩

theorem Lays.split {first second : List Token} {text rest : Bytes}
    (h : Lays (first ++ second) text rest) :
    ∃ middle, Lays first text middle ∧ Lays second middle rest := by
  induction first generalizing text with
  | nil => exact ⟨text, .nil text, h⟩
  | cons token first ih =>
      cases h with
      | cons _ _ ws text rest hws h =>
          obtain ⟨middle, hfirst, hsecond⟩ := ih h
          exact ⟨middle, .cons token first ws text middle hws hfirst, hsecond⟩

theorem Lays.length_le {tokens : List Token} {text rest : Bytes} (h : Lays tokens text rest) :
    rest.length ≤ text.length := by
  induction h with
  | nil => exact Nat.le_refl _
  | cons token tokens ws text rest _ _ ih =>
      rw [List.length_append, List.length_append]
      omega

/-! ### What follows a token -/

/-- What follows goes on neither with a number nor with an identifier. -/
def Ended (rest : Bytes) : Prop := NumberEnds rest ∧ NameEnds rest

theorem ended_nil : Ended [] := ⟨stops_nil _, nameEnds_nil⟩

theorem ended_cons {c : UInt8} (hle : c ≤ 0x7F) (hne : c ≠ ascii '\\')
    (hnumber : isNumberByte c = false) (hname : Grammar.isIdentifierContinue c = false) (rest : Bytes) :
    Ended (c :: rest) := ⟨stops_cons.mpr hnumber, nameEnds_ascii hle hne hname rest⟩

theorem isNumberByte_le {c : UInt8} (h : isNumberByte c = true) : c ≤ 0x7F := by
  simp only [isNumberByte, Bool.or_eq_true, beq_iff_eq] at h
  rcases h with ((((h | rfl) | rfl) | rfl) | rfl) | rfl
  · obtain ⟨v, hv⟩ := Option.isSome_iff_exists.mp h
    exact (hexValue_iff.mp hv).ascii.1
  all_goals decide

theorem ended_trivium {first : Bytes} (h : Trivium first) (rest : Bytes) : Ended (first ++ rest) := by
  cases h with
  | lineComment body terminator _ _ =>
      exact ended_cons (by decide) (by decide) (by decide) (by decide) _
  | blockComment body _ => exact ended_cons (by decide) (by decide) (by decide) (by decide) _
  | whiteSpace c hc =>
      obtain ⟨hne, hpart⟩ := whiteSpace_ends hc
      refine ⟨?_, nameEnds_char hne hpart rest⟩
      by_cases hle : c.toNat ≤ 0x7F
      · have hspace : isJson5WhitespaceAscii c.toNat.toUInt8 = true := by
          have hwhole := whiteSpace_iff.mpr hc
          rwa [isJson5Whitespace, if_pos hle] at hwhole
        simp only [isJson5WhitespaceAscii, isWhitespace, Bool.or_eq_true, beq_iff_eq] at hspace
        rw [encode_ascii hle]
        refine stops_cons.mpr ?_
        rcases hspace with ((((h | h) | h) | h) | h) | h
        all_goals rw [h]; decide
      · obtain ⟨lead, conts, hencode, hlead⟩ := encode_lead (Nat.lt_of_not_le hle)
        rw [hencode]
        refine stops_cons.mpr ?_
        by_contra hnumber
        exact absurd (UInt8.le_trans hlead (isNumberByte_le (Bool.not_eq_false _ ▸ hnumber)))
          (by decide)

theorem ended_trivia {ws rest : Bytes} (hws : Trivia ws) (hrest : Ended rest) : Ended (ws ++ rest) := by
  cases hws with
  | nil => exact hrest
  | cons first more hfirst _ =>
      rw [List.append_assoc]
      exact ended_trivium hfirst _

theorem ended_last {rest : Bytes} (h : LastTrivia rest) : Ended rest := by
  cases h with
  | closed _ hws =>
      have hended := ended_trivia hws ended_nil
      rwa [List.append_nil] at hended
  | comment ws body hws _ =>
      exact ended_trivia hws (ended_cons (by decide) (by decide) (by decide) (by decide) _)

/-- The punctuators that may follow a value or a key. -/
def Follows (c : UInt8) : Prop :=
  c = ascii ',' ∨ c = ascii ':' ∨ c = ascii ']' ∨ c = ascii '\x7d'

theorem ended_lays {c : UInt8} (hc : Follows c) {tokens : List Token} {text rest : Bytes}
    (h : Lays (.punctuator c :: tokens) text rest) : Ended text := by
  cases h with
  | cons _ _ ws text rest hws _ =>
      refine ended_trivia hws ?_
      rcases hc with rfl | rfl | rfl | rfl
      all_goals exact ended_cons (by decide) (by decide) (by decide) (by decide) _

end PjhJson.Json5
