import PjhJson.ConstJson
import PjhJson.ContractCopy

/-! The compile-time validator of `validate.hpp`, which builds no tree, and `ConstJson::parse`. It has a scanner of
its own for strings and for containers; what it accepts is the grammar that the parser reads. -/

namespace PjhJson

open Grammar Scanner

namespace Validate

/-- `skip_whitespace`. -/
def skipWhitespace (p : Bytes) : Bytes := p.dropWhile isWhitespace

def scanHexDigits : Nat → Nat → Bytes → Option (Nat × Bytes)
  | 0, cp, p => some (cp, p)
  | _ + 1, _, [] => none
  | n + 1, cp, c :: p => do
    let d ← hexValue c
    scanHexDigits n ((cp <<< 4) ||| d) p

/-- `scan_hex4`. -/
def scanHex4 (p : Bytes) : Option (Nat × Bytes) := if p.length < 4 then none else scanHexDigits 4 0 p

/-- The rest of a `\u` escape behind its digits: a high surrogate asks for the low one. -/
def scanSurrogates (cp : Nat) (q : Bytes) : Option Bytes :=
  if isHighSurrogate cp then
    if q.length < 6 ∨ q.take 2 ≠ [ascii '\\', ascii 'u'] then none
    else do
      let (cp2, q) ← scanHex4 (q.drop 2)
      if isLowSurrogate cp2 then some q else none
  else if isLowSurrogate cp then none
  else some q

/-- An escape of `scan_string`, behind its backslash. -/
def scanEscape : Bytes → Option Bytes
  | [] => none
  | esc :: q =>
    if esc = ascii 'u' then do
      let (cp, q) ← scanHex4 q
      scanSurrogates cp q
    else if isShortEscape esc then some q
    else none

def scanStringLoop : Nat → Bytes → Option Bytes
  | 0, _ => none
  | _ + 1, [] => none
  | fuel + 1, c :: p =>
    if c = ascii '"' then some p
    else if c = ascii '\\' then do
      let p ← scanEscape p
      scanStringLoop fuel p
    else if c < 0x20 then none
    else scanStringLoop fuel p

/-- `scan_string`. -/
def scanString (p : Bytes) : Option Bytes := scanStringLoop p.length p.tail

/-- `validate_number`. -/
def validateNumber (p : Bytes) : Option Bytes :=
  match scanNumber p with
  | .ok (_, p) => some p
  | .error _ => none

/-- The loop of `array` and of `object`; `afterComma` is what the loop skips before its next round. -/
def itemsLoop (close : Char) (item : Bytes → Option Bytes) (afterComma : Bytes → Bytes) : Nat → Bytes → Option Bytes
  | 0, _ => none
  | fuel + 1, p => do
    let p ← item p
    match skipWhitespace p with
    | [] => none
    | c :: p =>
      if c = ascii close then some p
      else if c ≠ ascii ',' then none
      else itemsLoop close item afterComma fuel (afterComma p)

/-- From the byte behind the opening bracket on. -/
def container (close : Char) (item : Bytes → Option Bytes) (afterComma : Bytes → Bytes) (p : Bytes) :
    Option Bytes :=
  let q := skipWhitespace p
  if startsWith close q then some q.tail else itemsLoop close item afterComma (p.length + 1) q

def array (value : Bytes → Option Bytes) (p : Bytes) : Option Bytes := container ']' value skipWhitespace p.tail

/-- A key, a colon and a value. -/
def member (value : Bytes → Option Bytes) (p : Bytes) : Option Bytes :=
  let p := skipWhitespace p
  if startsWith '"' p then do
    let p ← scanString p
    let p := skipWhitespace p
    if startsWith ':' p then value p.tail else none
  else none

def object (value : Bytes → Option Bytes) (p : Bytes) : Option Bytes := container '}' (member value) id p.tail

/-- The dispatch of `value` by its first byte. -/
def valueAt (value : Bytes → Option Bytes) : Bytes → Option Bytes
  | [] => none
  | c :: p =>
    if c = ascii 't' then matchLiteral (c :: p) kTrue
    else if c = ascii 'f' then matchLiteral (c :: p) kFalse
    else if c = ascii 'n' then matchLiteral (c :: p) kNull
    else if c = ascii '"' then scanString (c :: p)
    else if c = ascii '[' then array value (c :: p)
    else if c = ascii '{' then object value (c :: p)
    else validateNumber (c :: p)

/-- `value`. Every level of nesting takes a byte. -/
def value : Nat → Bytes → Option Bytes
  | 0, _ => none
  | fuel + 1, p => valueAt (value fuel) (skipWhitespace p)

end Validate

/-- `ConstJson::parse`: the `valid` flag of its result. -/
def ConstJson.parse (json : Bytes) : Bool :=
  match Validate.value (json.length + 1) json with
  | none => false
  | some p => (Validate.skipWhitespace p).isEmpty

namespace Validate

/-! ### Tokens -/

theorem scanHexDigits_eq_some {n cp value : Nat} {p rest : Bytes} :
    scanHexDigits n cp p = some (value, rest) ↔ Reading.readHexDigits n cp p = .ok (value, rest) := by
  induction n generalizing cp p with
  | zero => simp [scanHexDigits, Reading.readHexDigits]
  | succ n ih =>
      cases p with
      | nil => simp [scanHexDigits, Reading.readHexDigits]
      | cons c p =>
          rw [scanHexDigits, Reading.readHexDigits]
          cases hexValue c with
          | none => simp
          | some d => exact ih

theorem length_codeUnit {digits : Bytes} {value : Nat} (h : Rfc.CodeUnit digits value) : digits.length = 4 := by
  cases h
  rfl

theorem scanHex4_iff {p rest : Bytes} {value : Nat} :
    scanHex4 p = some (value, rest) ↔ ∃ digits, Rfc.CodeUnit digits value ∧ p = digits ++ rest := by
  rw [← readHexDigits_iff, ← scanHexDigits_eq_some, scanHex4]
  split
  · rename_i hshort
    simp only [reduceCtorEq, false_iff]
    intro hscan
    obtain ⟨digits, hdigits, rfl⟩ := readHexDigits_iff.mp (scanHexDigits_eq_some.mp hscan)
    rw [List.length_append, length_codeUnit hdigits] at hshort
    omega
  · rfl

theorem scanSurrogates_high {cp : Nat} (hhigh : isHighSurrogate cp = true) {q rest : Bytes} :
    scanSurrogates cp q = some rest ↔ q.take 2 = [ascii '\\', ascii 'u'] ∧
      ∃ digits low, Rfc.CodeUnit digits low ∧ q.drop 2 = digits ++ rest ∧ isLowSurrogate low = true := by
  rw [scanSurrogates, if_pos hhigh]
  constructor
  · intro h
    split at h
    · cases h
    rename_i hstart
    obtain ⟨⟨low, q'⟩, hhex, hscan⟩ := Option.bind_eq_some_iff.mp h
    obtain ⟨digits, hdigits, hq⟩ := scanHex4_iff.mp hhex
    simp only at hscan
    split at hscan
    · rename_i hlow
      obtain rfl := Option.some.inj hscan
      exact ⟨not_not.mp (not_or.mp hstart).2, digits, low, hdigits, hq, hlow⟩
    · cases hscan
  · rintro ⟨htake, digits, low, hdigits, hq, hlow⟩
    have hlength : ¬q.length < 6 := by
      have hdrop := congrArg List.length hq
      rw [List.length_drop, List.length_append, length_codeUnit hdigits] at hdrop
      omega
    rw [if_neg (not_or.mpr ⟨hlength, not_not.mpr htake⟩), scanHex4_iff.mpr ⟨digits, hdigits, hq⟩]
    exact if_pos hlow

/-- A pair of surrogates stands for a character. -/
theorem exists_surrogatePair {high low : Nat} (hhigh : isHighSurrogate high = true) (hlow : isLowSurrogate low = true) :
    ∃ value : Char, value.toNat = 0x10000 + (high - 0xD800) * 0x400 + (low - 0xDC00) := by
  rw [isHighSurrogate_iff] at hhigh
  rw [isLowSurrogate_iff] at hlow
  apply exists_char
  · omega
  · simp only [isHighSurrogate, Bool.and_eq_false_iff, decide_eq_false_iff_not]
    omega
  · simp only [isLowSurrogate, Bool.and_eq_false_iff, decide_eq_false_iff_not]
    omega

/-- The validator asks for the same surrogates as the parser, which builds their code point. -/
theorem scanSurrogates_iff {cp : Nat} (hcp : cp < 0x10000) {q rest : Bytes} :
    scanSurrogates cp q = some rest ↔ ∃ written, Reading.readCodeUnit cp q = .ok (written, rest) := by
  by_cases hhigh : isHighSurrogate cp = true
  · rw [scanSurrogates_high hhigh]
    unfold Reading.readCodeUnit
    simp only [if_pos hhigh]
    constructor
    · rintro ⟨htake, digits, low, hdigits, hq, hlow⟩
      obtain ⟨value, hvalue⟩ := exists_surrogatePair hhigh hlow
      rw [isLowSurrogate_iff] at hlow
      refine ⟨String.utf8EncodeChar value, ?_⟩
      rw [if_pos htake]
      exact (readLowSurrogate_iff hhigh).mpr ⟨digits, low, value, hdigits, hq, hlow.1, hlow.2, hvalue, rfl⟩
    · rintro ⟨written, h⟩
      split at h
      · rename_i htake
        obtain ⟨digits, low, value, hdigits, hq, hlow, hlow', -, -⟩ := (readLowSurrogate_iff hhigh).mp h
        exact ⟨htake, digits, low, hdigits, hq, isLowSurrogate_iff.mpr ⟨hlow, hlow'⟩⟩
      · cases h
  · unfold scanSurrogates Reading.readCodeUnit
    simp only [if_neg hhigh]
    by_cases hlow : isLowSurrogate cp = true
    · simp [hlow]
    · obtain ⟨value, rfl⟩ := @exists_char cp (by omega) (Bool.not_eq_true _ ▸ hhigh) (Bool.not_eq_true _ ▸ hlow)
      simp [hlow, readEncoded_toNat]

theorem readEscape_unicode {digits : Bytes} {cp : Nat} (h : Rfc.CodeUnit digits cp) (q : Bytes) :
    Reading.readEscape (ascii '\\' :: ascii 'u' :: (digits ++ q)) = Reading.readCodeUnit cp q := by
  rw [Reading.readEscape, List.tail_cons]
  simp only
  rw [if_neg (by decide), if_neg (by decide), readHexDigits_iff.mpr ⟨digits, h, rfl⟩, Res.ok_bind]

theorem scanEscape_sound {p rest : Bytes} (h : scanEscape p = some rest) :
    ∃ spelling written, Rfc.Character (ascii '\\' :: spelling) written ∧ p = spelling ++ rest := by
  cases p with
  | nil => cases h
  | cons esc q =>
      rw [scanEscape] at h
      split_ifs at h with hu hshort
      · obtain ⟨⟨cp, q'⟩, hhex, hscan⟩ := Option.bind_eq_some_iff.mp h
        obtain ⟨digits, hdigits, rfl⟩ := scanHex4_iff.mp hhex
        obtain ⟨written, hunit⟩ := (scanSurrogates_iff hdigits.lt).mp hscan
        rw [← readEscape_unicode hdigits] at hunit
        obtain ⟨spelling, hcharacter, hp⟩ := readEscape_iff.mp hunit
        exact ⟨spelling, written, hcharacter, by rw [hu, hp]⟩
      · obtain rfl := Option.some.inj h
        exact ⟨[esc], _, .short esc _ (shortEscapeValue_iff.mp ⟨bne_iff_ne.mp hshort, rfl⟩), rfl⟩

theorem scanEscape_unicode {digits q written rest : Bytes} {cp : Nat} (h : Rfc.CodeUnit digits cp)
    (hread : Reading.readEscape (ascii '\\' :: ascii 'u' :: (digits ++ q)) = .ok (written, rest)) :
    scanEscape (ascii 'u' :: (digits ++ q)) = some rest := by
  rw [readEscape_unicode h] at hread
  rw [scanEscape, if_pos rfl, scanHex4_iff.mpr ⟨digits, h, rfl⟩]
  exact (scanSurrogates_iff h.lt).mpr ⟨written, hread⟩

theorem scanEscape_append {spelling written : Bytes} (h : Rfc.Character (ascii '\\' :: spelling) written)
    (rest : Bytes) : scanEscape (spelling ++ rest) = some rest := by
  have hread := readEscape_iff.mpr ⟨spelling, h, (rfl : spelling ++ rest = _)⟩
  obtain ⟨whole, hwhole⟩ : ∃ whole, whole = ascii '\\' :: spelling := ⟨_, rfl⟩
  rw [← hwhole] at h
  cases h with
  | unescaped c _ _ hbackslash => exact absurd (List.cons.inj hwhole).1 hbackslash
  | short c value h =>
      obtain ⟨hne, rfl⟩ := shortEscapeValue_iff.mpr h
      obtain rfl := (List.cons.inj hwhole).2
      have hshort : isShortEscape c = true := bne_iff_ne.mpr hne
      have hu : c ≠ ascii 'u' := by
        rintro rfl
        exact hne (by decide)
      rw [List.singleton_append, scanEscape, if_neg hu, if_pos hshort]
  | unicode digits value hdigits =>
      obtain rfl := (List.cons.inj hwhole).2
      exact scanEscape_unicode hdigits hread
  | pair digits digits' high low value hdigits hdigits' hle hle' hlow hlow' hvalue =>
      obtain rfl := (List.cons.inj hwhole).2
      rw [List.cons_append, List.append_assoc] at hread ⊢
      exact scanEscape_unicode hdigits hread

theorem scanStringLoop_sound {fuel : Nat} {p rest : Bytes} (h : scanStringLoop fuel p = some rest) :
    ∃ content value, Rfc.Characters content value ∧ p = content ++ ascii '"' :: rest := by
  induction fuel generalizing p with
  | zero => cases h
  | succ fuel ih =>
      cases p with
      | nil => cases h
      | cons c p =>
          rw [scanStringLoop] at h
          split_ifs at h with hquote hbackslash hcontrol
          · obtain rfl := Option.some.inj h
            exact ⟨[], [], .nil, by rw [hquote, List.nil_append]⟩
          · obtain ⟨p', hescape, hloop⟩ := Option.bind_eq_some_iff.mp h
            obtain ⟨spelling, written, hcharacter, rfl⟩ := scanEscape_sound hescape
            obtain ⟨content, value, hcontent, rfl⟩ := ih hloop
            refine ⟨_, _, .cons _ _ _ _ hcharacter hcontent, ?_⟩
            rw [hbackslash, List.cons_append, List.cons_append, List.append_assoc]
          · obtain ⟨content, value, hcontent, rfl⟩ := ih h
            exact ⟨_, _, .cons [c] [c] _ _ (.unescaped c (UInt8.not_lt.mp hcontrol) hquote hbackslash) hcontent, rfl⟩

theorem scanStringLoop_append {content value : Bytes} (h : Rfc.Characters content value) {fuel : Nat}
    (hfuel : content.length < fuel) (rest : Bytes) :
    scanStringLoop fuel (content ++ ascii '"' :: rest) = some rest := by
  induction h generalizing fuel with
  | nil =>
      obtain ⟨fuel, rfl⟩ : ∃ f, fuel = f + 1 := ⟨fuel - 1, by omega⟩
      rw [List.nil_append, scanStringLoop, if_pos rfl]
  | cons spelling value content values hcharacter hcontent ih =>
      obtain ⟨fuel, rfl⟩ : ∃ f, fuel = f + 1 := ⟨fuel - 1, by omega⟩
      have hpos := hcharacter.length_pos
      rw [List.length_append] at hfuel
      have hrest := @ih fuel (by omega)
      obtain ⟨c, rfl, rfl, hstop⟩ | ⟨more, rfl⟩ := Reading.character_cases hcharacter
      · simp only [Reading.isStringStop, Bool.or_eq_false_iff, beq_eq_false_iff_ne, decide_eq_false_iff_not] at hstop
        rw [List.append_assoc, List.singleton_append, scanStringLoop, if_neg hstop.1.1, if_neg hstop.1.2,
          if_neg hstop.2, hrest]
      · rw [List.append_assoc, List.cons_append, scanStringLoop, if_neg (by decide), if_pos rfl,
          scanEscape_append hcharacter]
        exact hrest

theorem bracketed_append (first last : UInt8) (text rest : Bytes) :
    first :: (text ++ [last]) ++ rest = first :: (text ++ last :: rest) := by
  rw [List.cons_append, List.append_assoc, List.singleton_append]

theorem scanString_sound {p rest : Bytes} (h : scanString (ascii '"' :: p) = some rest) :
    ∃ token value, Rfc.StringToken token value ∧ ascii '"' :: p = token ++ rest := by
  rw [scanString, List.tail_cons] at h
  obtain ⟨content, value, hcontent, rfl⟩ := scanStringLoop_sound h
  exact ⟨_, value, .mk content value hcontent, (bracketed_append _ _ _ _).symm⟩

theorem scanString_append {token value : Bytes} (h : Rfc.StringToken token value) (rest : Bytes) :
    scanString (token ++ rest) = some rest := by
  obtain ⟨content, value, hcontent⟩ := h
  rw [scanString, List.cons_append, List.tail_cons, List.append_assoc, List.singleton_append]
  apply scanStringLoop_append hcontent
  simp only [List.length_cons, List.length_append]
  omega

theorem validateNumber_sound {p rest : Bytes} (h : validateNumber p = some rest) :
    ∃ token, Rfc.Number token ∧ p = token ++ rest := by
  unfold validateNumber at h
  split at h
  · rename_i scan rest' hscan
    obtain rfl := Option.some.inj h
    obtain ⟨parts, rfl, -⟩ := scanNumber_ok hscan
    exact ⟨_, ⟨parts, rfl⟩, rfl⟩
  · cases h

theorem validateNumber_append {token rest : Bytes} (h : Rfc.Number token) (hfollow : Reading.Follow rest) :
    validateNumber (token ++ rest) = some rest := by
  obtain ⟨parts, rfl⟩ := h
  rw [validateNumber, scanNumber_append parts (Reading.ends_of_follow parts hfollow)]

theorem matchLiteral_append (lit rest : Bytes) : matchLiteral (lit ++ rest) lit = some rest :=
  matchLiteral_eq_some.mpr rfl

theorem skipWhitespace_split (p : Bytes) : ∃ ws, Rfc.Whitespace ws ∧ p = ws ++ skipWhitespace p :=
  ⟨_, Reading.whitespace_takeWhile p, List.takeWhile_append_dropWhile.symm⟩

theorem skipWhitespace_append {ws rest : Bytes} (hws : Rfc.Whitespace ws) (h : Stops isWhitespace rest) :
    skipWhitespace (ws ++ rest) = rest :=
  dropWhile_run (fun c hmem => Reading.isWhitespace_iff.mpr (hws c hmem)) h

theorem exists_cons_of_startsWith {c : Char} {p : Bytes} (h : startsWith c p = true) :
    p = ascii c :: p.tail := by
  rw [startsWith_iff] at h
  exact List.eq_cons_of_mem_head? h

/-! ### What is accepted -/

/-- A validator of the items of a container accepts these items only. -/
def Accepts {α : Type} (item : Bytes → Option Bytes) (Item : Bytes → α → Prop) : Prop :=
  ∀ p rest, item p = some rest → ∃ text a, Item text a ∧ p = text ++ rest

/-- `Many` is a list of items between commas, with whitespace before and behind each. -/
structure Listed {α : Type} (Item : Bytes → α → Prop) (Many : Bytes → List α → Prop) : Prop where
  space {ws text : Bytes} {more : List α} : Rfc.Whitespace ws → Many text more → Many (ws ++ text) more
  one {text after : Bytes} {a : α} : Item text a → Rfc.Whitespace after → Many (text ++ after) [a]
  more {text after rest : Bytes} {a : α} {more : List α} : Item text a → Rfc.Whitespace after → Many rest more →
    Many (text ++ (after ++ ascii ',' :: rest)) (a :: more)

section Containers

variable {α : Type} {close : Char} {item : Bytes → Option Bytes} {afterComma : Bytes → Bytes}
  {Item : Bytes → α → Prop} {Many : Bytes → List α → Prop}

theorem itemsLoop_sound (hmany : Listed Item Many) (hitem : Accepts item Item)
    (hskip : ∀ p, ∃ ws, Rfc.Whitespace ws ∧ p = ws ++ afterComma p) {fuel : Nat} {p rest : Bytes}
    (h : itemsLoop close item afterComma fuel p = some rest) :
    ∃ text more, Many text more ∧ p = text ++ ascii close :: rest := by
  induction fuel generalizing p with
  | zero => cases h
  | succ fuel ih =>
      rw [itemsLoop] at h
      obtain ⟨p₁, hp₁, hloop⟩ := Option.bind_eq_some_iff.mp h
      obtain ⟨text, a, htext, rfl⟩ := hitem p p₁ hp₁
      obtain ⟨after, hafter, hsplit⟩ := skipWhitespace_split p₁
      split at hloop
      · cases hloop
      rename_i c p₂ hbehind
      rw [hbehind] at hsplit
      split_ifs at hloop with hclose hcomma
      · obtain rfl := Option.some.inj hloop
        exact ⟨_, [a], hmany.one htext hafter, by rw [hsplit, hclose, List.append_assoc]⟩
      · obtain ⟨ws, hws, hp₂⟩ := hskip p₂
        obtain ⟨text', more, hrest, hnext⟩ := ih hloop
        refine ⟨_, a :: more, hmany.more htext hafter (hmany.space hws hrest), ?_⟩
        rw [hsplit, not_not.mp hcomma, hp₂, hnext]
        simp only [List.append_assoc, List.cons_append]

theorem container_sound (hmany : Listed Item Many) (hitem : Accepts item Item)
    (hskip : ∀ p, ∃ ws, Rfc.Whitespace ws ∧ p = ws ++ afterComma p) {p rest : Bytes}
    (h : container close item afterComma p = some rest) :
    (∃ ws, Rfc.Whitespace ws ∧ p = ws ++ ascii close :: rest) ∨
      ∃ text more, Many text more ∧ p = text ++ ascii close :: rest := by
  obtain ⟨ws, hws, hsplit⟩ := skipWhitespace_split p
  rw [container] at h
  split at h
  · rename_i hclose
    rw [← Option.some.inj h]
    refine .inl ⟨ws, hws, ?_⟩
    rw [← exists_cons_of_startsWith hclose]
    exact hsplit
  · obtain ⟨text, more, hall, hp⟩ := itemsLoop_sound hmany hitem hskip h
    refine .inr ⟨ws ++ text, more, hmany.space hws hall, ?_⟩
    rw [hsplit, hp, List.append_assoc]

end Containers

/-- A value behind whitespace. -/
def SpacedValue (text : Bytes) (value : Ast) : Prop :=
  ∃ before shown, Rfc.Whitespace before ∧ Rfc.Value shown value ∧ text = before ++ shown

def SpacedMember (text : Bytes) (entry : Bytes × Ast) : Prop :=
  ∃ first token second shown, Rfc.Whitespace first ∧ Rfc.StringToken token entry.1 ∧ Rfc.Whitespace second ∧
    SpacedValue shown entry.2 ∧ text = first ++ (token ++ (second ++ ascii ':' :: shown))

theorem listed_elements : Listed SpacedValue Rfc.Elements where
  space := Reading.elements_append
  one := by
    rintro _ after value ⟨before, shown, hbefore, hshown, rfl⟩ hafter
    rw [List.append_assoc]
    exact .one _ _ _ _ hbefore hshown hafter
  more := by
    rintro _ after rest value more ⟨before, shown, hbefore, hshown, rfl⟩ hafter hrest
    rw [List.append_assoc]
    exact .more _ _ _ _ _ _ hbefore hshown hafter hrest

theorem listed_members : Listed SpacedMember Rfc.Members where
  space := Reading.members_append
  one := by
    rintro _ after ⟨key, value⟩ ⟨first, token, second, _, hfirst, htoken, hsecond,
      ⟨before, shown, hbefore, hshown, rfl⟩, rfl⟩ hafter
    simp only [List.append_assoc, List.cons_append]
    exact .one _ _ _ _ _ _ _ _ hfirst htoken hsecond hbefore hshown hafter
  more := by
    rintro _ after rest ⟨key, value⟩ more ⟨first, token, second, _, hfirst, htoken, hsecond,
      ⟨before, shown, hbefore, hshown, rfl⟩, rfl⟩ hafter hrest
    simp only [List.append_assoc, List.cons_append]
    exact .more _ _ _ _ _ _ _ _ _ _ hfirst htoken hsecond hbefore hshown hafter hrest

section Values

variable {element : Bytes → Option Bytes}

theorem accepts_member (helement : Accepts element SpacedValue) : Accepts (member element) SpacedMember := by
  intro p rest h
  obtain ⟨first, hfirst, hp⟩ := skipWhitespace_split p
  rw [member] at h
  simp only at h
  split at h
  · rename_i hquote
    obtain ⟨p₁, hstring, hcolon⟩ := Option.bind_eq_some_iff.mp h
    rw [exists_cons_of_startsWith hquote] at hstring hp
    obtain ⟨token, key, htoken, hsplit⟩ := scanString_sound hstring
    obtain ⟨second, hsecond, hp₁⟩ := skipWhitespace_split p₁
    split at hcolon
    · rename_i hstart
      rw [exists_cons_of_startsWith hstart] at hp₁
      obtain ⟨shown, value, hshown, htail⟩ := helement _ _ hcolon
      refine ⟨_, (key, value), ⟨first, token, second, shown, hfirst, htoken, hsecond, hshown, rfl⟩, ?_⟩
      rw [hp, hsplit, hp₁, htail]
      simp only [List.append_assoc, List.cons_append]
    · cases hcolon
  · cases h

theorem array_sound (helement : Accepts element SpacedValue) {p rest : Bytes}
    (h : array element (ascii '[' :: p) = some rest) :
    ∃ text value, Rfc.Value text value ∧ ascii '[' :: p = text ++ rest := by
  obtain ⟨ws, hws, hp⟩ | ⟨text, elements, htext, hp⟩ :=
    container_sound listed_elements helement skipWhitespace_split h
  · refine ⟨_, _, .emptyArray ws hws, ?_⟩
    rw [List.tail_cons] at hp
    rw [hp, bracketed_append]
  · refine ⟨_, _, .array text elements htext, ?_⟩
    rw [List.tail_cons] at hp
    rw [hp, bracketed_append]

theorem object_sound (helement : Accepts element SpacedValue) {p rest : Bytes}
    (h : object element (ascii '{' :: p) = some rest) :
    ∃ text value, Rfc.Value text value ∧ ascii '{' :: p = text ++ rest := by
  have hskip : ∀ p : Bytes, ∃ ws, Rfc.Whitespace ws ∧ p = ws ++ id p := fun p => ⟨[], List.forall_mem_nil _, rfl⟩
  obtain ⟨ws, hws, hp⟩ | ⟨text, members, htext, hp⟩ :=
    container_sound listed_members (accepts_member helement) hskip h
  · refine ⟨_, _, .emptyObject ws hws, ?_⟩
    rw [List.tail_cons] at hp
    rw [hp, bracketed_append]
  · refine ⟨_, _, .object text members htext, ?_⟩
    rw [List.tail_cons] at hp
    rw [hp, bracketed_append]

theorem valueAt_sound (helement : Accepts element SpacedValue) {p rest : Bytes}
    (h : valueAt element p = some rest) : ∃ text value, Rfc.Value text value ∧ p = text ++ rest := by
  cases p with
  | nil => cases h
  | cons c p =>
      rw [valueAt] at h
      split_ifs at h with htrue hfalse hnull hstring harray hobject
      · exact ⟨_, _, .boolTrue, matchLiteral_eq_some.mp h⟩
      · exact ⟨_, _, .boolFalse, matchLiteral_eq_some.mp h⟩
      · exact ⟨_, _, .null, matchLiteral_eq_some.mp h⟩
      · subst hstring
        obtain ⟨token, value, htoken, hp⟩ := scanString_sound h
        exact ⟨_, _, .string token value htoken, hp⟩
      · subst harray
        exact array_sound helement h
      · subst hobject
        exact object_sound helement h
      · obtain ⟨token, htoken, hp⟩ := validateNumber_sound h
        exact ⟨_, _, .number token htoken, hp⟩

end Values

theorem accepts_value (fuel : Nat) : Accepts (value fuel) SpacedValue := by
  induction fuel with
  | zero =>
      intro p rest h
      cases h
  | succ fuel ih =>
      intro p rest h
      obtain ⟨before, hbefore, hp⟩ := skipWhitespace_split p
      obtain ⟨text, value, htext, hshown⟩ := valueAt_sound ih h
      refine ⟨_, value, ⟨before, text, hbefore, htext, rfl⟩, ?_⟩
      rw [hp, hshown, List.append_assoc]

/-! ### What is not refused -/

/-- The text is validated wherever a value may stand. -/
def Passes (text : Bytes) : Prop :=
  ∀ {fuel : Nat} {before rest : Bytes}, Rfc.Whitespace before → text.length < fuel → Reading.Follow rest →
    value fuel (before ++ (text ++ rest)) = some rest

def PassesElements (text : Bytes) : Prop :=
  ∀ {fuel count : Nat} {rest : Bytes}, text.length < fuel → text.length < count →
    itemsLoop ']' (value fuel) skipWhitespace count (text ++ ascii ']' :: rest) = some rest

def PassesMembers (text : Bytes) : Prop :=
  ∀ {fuel count : Nat} {rest : Bytes}, text.length < fuel → text.length < count →
    itemsLoop '}' (member (value fuel)) id count (text ++ ascii '}' :: rest) = some rest

theorem passes_of_valueAt {text : Bytes} {ast : Ast} (htext : Rfc.Value text ast)
    (h : ∀ {fuel : Nat} {rest : Bytes}, text.length ≤ fuel → Reading.Follow rest →
      valueAt (value fuel) (text ++ rest) = some rest) : Passes text := by
  intro fuel before rest hbefore hfuel hfollow
  obtain ⟨fuel, rfl⟩ : ∃ f, fuel = f + 1 := ⟨fuel - 1, by omega⟩
  rw [value, skipWhitespace_append hbefore (Reading.stops_value htext rest)]
  exact h (Nat.lt_succ_iff.mp hfuel) hfollow

theorem passes_number {token : Bytes} (htoken : Rfc.Number token) : Passes token := by
  refine passes_of_valueAt (.number token htoken) fun {fuel rest} _ hfollow => ?_
  obtain ⟨c, more, hc, hstart⟩ : ∃ c more, token ++ rest = c :: more ∧ (c = ascii '-' ∨ isDigit c = true) := by
    obtain ⟨parts, rfl⟩ := htoken
    exact Reading.number_start parts rest
  have hne : ∀ b, ¬(b = ascii '-' ∨ isDigit b = true) → c ≠ b := fun b hb heq => hb (heq ▸ hstart)
  rw [hc, valueAt, if_neg (hne _ (by decide)), if_neg (hne _ (by decide)), if_neg (hne _ (by decide)),
    if_neg (hne _ (by decide)), if_neg (hne _ (by decide)), if_neg (hne _ (by decide)), ← hc]
  exact validateNumber_append htoken hfollow

theorem passes_string {token text : Bytes} (htoken : Rfc.StringToken token text) : Passes token := by
  refine passes_of_valueAt (.string token text htoken) fun {fuel rest} _ _ => ?_
  have hscan := scanString_append htoken rest
  cases htoken
  exact hscan

/-- A closing bracket or a comma behind an item. -/
theorem itemsLoop_step {close : Char} {item : Bytes → Option Bytes} {afterComma : Bytes → Bytes}
    {text after rest : Bytes} {c : UInt8} (hitem : item (text ++ (after ++ c :: rest)) = some (after ++ c :: rest))
    (hafter : Rfc.Whitespace after) (hc : isWhitespace c = false) (count : Nat) :
    itemsLoop close item afterComma (count + 1) (text ++ (after ++ c :: rest)) =
      if c = ascii close then some rest
      else if c ≠ ascii ',' then none
      else itemsLoop close item afterComma count (afterComma rest) := by
  rw [itemsLoop, hitem]
  simp only [Option.bind_eq_bind, Option.bind_some, skipWhitespace_append hafter (stops_cons.mpr hc)]

/-- An item skips the whitespace before it. -/
theorem itemsLoop_skipWhitespace {close : Char} {item : Bytes → Option Bytes} {afterComma : Bytes → Bytes}
    (hitem : ∀ p, item (skipWhitespace p) = item p) (count : Nat) (p : Bytes) :
    itemsLoop close item afterComma count (skipWhitespace p) = itemsLoop close item afterComma count p := by
  cases count with
  | zero => rfl
  | succ count => rw [itemsLoop, itemsLoop, hitem]

theorem value_skipWhitespace (fuel : Nat) (p : Bytes) : value fuel (skipWhitespace p) = value fuel p := by
  cases fuel with
  | zero => rfl
  | succ fuel => rw [value, value, skipWhitespace, skipWhitespace, List.dropWhile_idempotent]

theorem member_skipWhitespace (element : Bytes → Option Bytes) (p : Bytes) :
    member element (skipWhitespace p) = member element p := by
  rw [member, member, skipWhitespace, skipWhitespace, List.dropWhile_idempotent]

theorem container_empty {close : Char} {item : Bytes → Option Bytes} {afterComma : Bytes → Bytes} {ws rest : Bytes}
    (hws : Rfc.Whitespace ws) (hc : isWhitespace (ascii close) = false) :
    container close item afterComma (ws ++ ascii close :: rest) = some rest := by
  rw [container, skipWhitespace_append hws (stops_cons.mpr hc)]
  exact if_pos (startsWith_iff.mpr rfl)

theorem container_items {close : Char} {item : Bytes → Option Bytes} {afterComma : Bytes → Bytes} {p more : Bytes}
    {c : UInt8} (hitem : ∀ p, item (skipWhitespace p) = item p) (hp : p.dropWhile isWhitespace = c :: more)
    (hc : c ≠ ascii close) :
    container close item afterComma p =
      itemsLoop close item afterComma (p.length + 1) p := by
  have hstart : startsWith close (skipWhitespace p) ≠ true := by
    rw [skipWhitespace, hp]
    intro h
    exact hc (Option.some.inj (startsWith_iff.mp h))
  rw [container, if_neg hstart, itemsLoop_skipWhitespace hitem]

theorem passes_emptyArray {ws : Bytes} (hws : Rfc.Whitespace ws) : Passes (ascii '[' :: (ws ++ [ascii ']'])) := by
  refine passes_of_valueAt (.emptyArray ws hws) fun {fuel rest} _ _ => ?_
  rw [bracketed_append]
  exact container_empty hws (by decide)

theorem passes_emptyObject {ws : Bytes} (hws : Rfc.Whitespace ws) : Passes (ascii '{' :: (ws ++ [ascii '}'])) := by
  refine passes_of_valueAt (.emptyObject ws hws) fun {fuel rest} _ _ => ?_
  rw [bracketed_append]
  exact container_empty hws (by decide)

theorem passes_array {text : Bytes} {elements : List Ast} (htext : Rfc.Elements text elements)
    (hpasses : PassesElements text) : Passes (ascii '[' :: (text ++ [ascii ']'])) := by
  refine passes_of_valueAt (.array text elements htext) fun {fuel rest} hfuel _ => ?_
  simp only [List.length_cons, List.length_append] at hfuel
  obtain ⟨c, more, hstart, hc⟩ := Reading.elements_start htext (ascii ']' :: rest)
  rw [bracketed_append]
  calc array (value fuel) (ascii '[' :: (text ++ ascii ']' :: rest))
      = itemsLoop ']' (value fuel) skipWhitespace ((text ++ ascii ']' :: rest).length + 1)
          (text ++ ascii ']' :: rest) :=
        container_items (value_skipWhitespace fuel) hstart hc
    _ = some rest := hpasses (by omega) (by rw [List.length_append]; omega)

theorem passes_object {text : Bytes} {members : List (Bytes × Ast)} (htext : Rfc.Members text members)
    (hpasses : PassesMembers text) : Passes (ascii '{' :: (text ++ [ascii '}'])) := by
  refine passes_of_valueAt (.object text members htext) fun {fuel rest} hfuel _ => ?_
  simp only [List.length_cons, List.length_append] at hfuel
  obtain ⟨more, hstart⟩ := Reading.members_start htext (ascii '}' :: rest)
  rw [bracketed_append]
  calc object (value fuel) (ascii '{' :: (text ++ ascii '}' :: rest))
      = itemsLoop '}' (member (value fuel)) id ((text ++ ascii '}' :: rest).length + 1)
          (text ++ ascii '}' :: rest) :=
        container_items (member_skipWhitespace (value fuel)) hstart (by decide)
    _ = some rest := hpasses (by omega) (by rw [List.length_append]; omega)

/-- A value and what stands behind it, up to the byte that ends the round. -/
theorem value_append {before text after rest : Bytes} {c : UInt8} (hpasses : Passes text)
    (hbefore : Rfc.Whitespace before) (hafter : Rfc.Whitespace after)
    (hc : c = ascii ',' ∨ c = ascii ']' ∨ c = ascii '}') {fuel : Nat} (hfuel : text.length < fuel) :
    value fuel (before ++ (text ++ (after ++ c :: rest))) = some (after ++ c :: rest) :=
  hpasses hbefore hfuel (Reading.follow_whitespace hafter (Reading.follow_cons.mpr (.inr hc)))

theorem passesElements_one {before text after : Bytes} (hbefore : Rfc.Whitespace before) (hafter : Rfc.Whitespace after)
    (hpasses : Passes text) : PassesElements (before ++ (text ++ after)) := by
  intro fuel count rest hfuel hcount
  obtain ⟨count, rfl⟩ : ∃ n, count = n + 1 := ⟨count - 1, by omega⟩
  simp only [List.length_append] at hfuel
  have hitem := @value_append before text after rest (ascii ']') hpasses hbefore hafter (.inr (.inl rfl)) fuel
    (by omega)
  rw [← List.append_assoc before] at hitem
  rw [List.append_assoc, List.append_assoc, ← List.append_assoc before, itemsLoop_step hitem hafter (by decide),
    if_pos rfl]

theorem passesElements_more {before text after rest : Bytes} (hbefore : Rfc.Whitespace before)
    (hafter : Rfc.Whitespace after) (hpasses : Passes text) (hrest : PassesElements rest) :
    PassesElements (before ++ (text ++ (after ++ ascii ',' :: rest))) := by
  intro fuel count behind hfuel hcount
  obtain ⟨count, rfl⟩ : ∃ n, count = n + 1 := ⟨count - 1, by omega⟩
  simp only [List.length_append, List.length_cons] at hfuel hcount
  have hitem := @value_append before text after (rest ++ ascii ']' :: behind) (ascii ',') hpasses hbefore hafter
    (.inl rfl) fuel (by omega)
  rw [← List.append_assoc before] at hitem
  rw [List.append_assoc, List.append_assoc, List.append_assoc, List.cons_append, ← List.append_assoc before,
    itemsLoop_step hitem hafter (by decide), if_neg (by decide), if_neg (not_not.mpr rfl),
    itemsLoop_skipWhitespace (value_skipWhitespace fuel)]
  exact hrest (by omega) (by omega)

theorem member_append {first token second before text after rest key : Bytes} {c : UInt8}
    (hfirst : Rfc.Whitespace first) (htoken : Rfc.StringToken token key) (hsecond : Rfc.Whitespace second)
    (hbefore : Rfc.Whitespace before)
    (hafter : Rfc.Whitespace after) (hpasses : Passes text) (hc : c = ascii ',' ∨ c = ascii ']' ∨ c = ascii '}')
    {fuel : Nat} (hfuel : text.length < fuel) :
    member (value fuel) (first ++ (token ++ (second ++ ascii ':' :: (before ++ text))) ++ (after ++ c :: rest)) =
      some (after ++ c :: rest) := by
  obtain ⟨shown, hshown⟩ : ∃ shown, shown = second ++ ascii ':' :: (before ++ (text ++ (after ++ c :: rest))) :=
    ⟨_, rfl⟩
  have hstart : Stops isWhitespace (token ++ shown) ∧ startsWith '"' (token ++ shown) = true := by
    cases htoken
    exact ⟨stops_cons.mpr (by decide), startsWith_iff.mpr rfl⟩
  have htext : first ++ (token ++ (second ++ ascii ':' :: (before ++ text))) ++ (after ++ c :: rest) =
      first ++ (token ++ shown) := by
    simp only [hshown, List.append_assoc, List.cons_append]
  have hcolon : skipWhitespace shown = ascii ':' :: (before ++ (text ++ (after ++ c :: rest))) := by
    rw [hshown]
    exact skipWhitespace_append hsecond (stops_cons.mpr (by decide))
  rw [htext, member, skipWhitespace_append hfirst hstart.1, if_pos hstart.2, scanString_append htoken]
  simp only [Option.bind_eq_bind, Option.bind_some, hcolon]
  rw [if_pos (startsWith_iff.mpr rfl), List.tail_cons]
  exact value_append hpasses hbefore hafter hc hfuel

theorem passesMembers_one {first token second before text after key : Bytes} (hfirst : Rfc.Whitespace first)
    (htoken : Rfc.StringToken token key) (hsecond : Rfc.Whitespace second) (hbefore : Rfc.Whitespace before)
    (hafter : Rfc.Whitespace after) (hpasses : Passes text) :
    PassesMembers (first ++ (token ++ (second ++ ascii ':' :: (before ++ (text ++ after))))) := by
  intro fuel count rest hfuel hcount
  obtain ⟨count, rfl⟩ : ∃ n, count = n + 1 := ⟨count - 1, by omega⟩
  simp only [List.length_append, List.length_cons] at hfuel
  have hitem := @member_append first token second before text after rest key (ascii '}') hfirst htoken hsecond hbefore
    hafter hpasses (.inr (.inr rfl)) fuel (by omega)
  have htext : first ++ (token ++ (second ++ ascii ':' :: (before ++ (text ++ after)))) ++ ascii '}' :: rest =
      first ++ (token ++ (second ++ ascii ':' :: (before ++ text))) ++ (after ++ ascii '}' :: rest) := by
    simp only [List.append_assoc, List.cons_append]
  rw [htext, itemsLoop_step hitem hafter (by decide), if_pos rfl]

theorem passesMembers_more {first token second before text after rest key : Bytes} (hfirst : Rfc.Whitespace first)
    (htoken : Rfc.StringToken token key) (hsecond : Rfc.Whitespace second) (hbefore : Rfc.Whitespace before)
    (hafter : Rfc.Whitespace after) (hpasses : Passes text) (hrest : PassesMembers rest) :
    PassesMembers
      (first ++ (token ++ (second ++ ascii ':' :: (before ++ (text ++ (after ++ ascii ',' :: rest)))))) := by
  intro fuel count behind hfuel hcount
  obtain ⟨count, rfl⟩ : ∃ n, count = n + 1 := ⟨count - 1, by omega⟩
  simp only [List.length_append, List.length_cons] at hfuel hcount
  have hitem := @member_append first token second before text after (rest ++ ascii '}' :: behind) key (ascii ',')
    hfirst htoken hsecond hbefore hafter hpasses (.inl rfl) fuel (by omega)
  have htext : first ++ (token ++ (second ++ ascii ':' :: (before ++ (text ++ (after ++ ascii ',' :: rest))))) ++
      ascii '}' :: behind =
      first ++ (token ++ (second ++ ascii ':' :: (before ++ text))) ++
        (after ++ ascii ',' :: (rest ++ ascii '}' :: behind)) := by
    simp only [List.append_assoc, List.cons_append]
  rw [htext, itemsLoop_step hitem hafter (by decide), if_neg (by decide), if_neg (not_not.mpr rfl)]
  exact hrest (by omega) (by omega)

/-- Every value of the grammar passes, by induction on its derivation. -/
theorem passes_value {text : Bytes} {ast : Ast} (h : Rfc.Value text ast) : Passes text :=
  @Rfc.Value.rec (fun text _ _ => Passes text) (fun text _ _ => PassesElements text)
    (fun text _ _ => PassesMembers text)
    (passes_of_valueAt .null fun _ _ => matchLiteral_append kNull _)
    (passes_of_valueAt .boolTrue fun _ _ => matchLiteral_append kTrue _)
    (passes_of_valueAt .boolFalse fun _ _ => matchLiteral_append kFalse _)
    (fun _ htoken => passes_number htoken)
    (fun _ _ htoken => passes_string htoken)
    (fun _ hws => passes_emptyArray hws)
    (fun _ _ helements hpasses => passes_array helements hpasses)
    (fun _ hws => passes_emptyObject hws)
    (fun _ _ hmembers hpasses => passes_object hmembers hpasses)
    (fun _ _ _ _ hbefore _ hafter hpasses => passesElements_one hbefore hafter hpasses)
    (fun _ _ _ _ _ _ hbefore _ hafter _ hpasses hrest => passesElements_more hbefore hafter hpasses hrest)
    (fun _ _ _ _ _ _ _ _ hfirst htoken hsecond hbefore _ hafter hpasses =>
      passesMembers_one hfirst htoken hsecond hbefore hafter hpasses)
    (fun _ _ _ _ _ _ _ _ _ _ hfirst htoken hsecond hbefore _ hafter _ hpasses hrest =>
      passesMembers_more hfirst htoken hsecond hbefore hafter hpasses hrest)
    text ast h

end Validate

/-! ### A text has one tree -/

theorem number_of_mem_numbers {text : Bytes} {value : Ast} (h : Rfc.Value text value) :
    ∀ token ∈ value.numbers, Rfc.Number token := by
  refine @Rfc.Value.rec (fun _ value _ => ∀ token ∈ value.numbers, Rfc.Number token)
    (fun _ values _ => ∀ token ∈ Ast.numbersElements values, Rfc.Number token)
    (fun _ members _ => ∀ token ∈ Ast.numbersMembers members, Rfc.Number token)
    ?null ?boolTrue ?boolFalse ?number ?string ?emptyArray ?array ?emptyObject ?object
    ?oneElement ?moreElements ?oneMember ?moreMembers text value h
  case null | boolTrue | boolFalse | string => simp [Ast.numbers]
  case number => simp [Ast.numbers]
  case emptyArray => simp [Ast.numbers, Ast.numbersElements]
  case emptyObject => simp [Ast.numbers, Ast.numbersMembers]
  case array => exact fun _ _ _ ih => ih
  case object => exact fun _ _ _ ih => ih
  case oneElement =>
      intro _ _ _ value _ _ _ ih
      rw [Ast.numbersElements, Ast.numbersElements, List.append_nil]
      exact ih
  case moreElements =>
      intro _ _ _ _ value values _ _ _ _ ih ihrest
      rw [Ast.numbersElements]
      exact List.forall_mem_append.mpr ⟨ih, ihrest⟩
  case oneMember =>
      intro _ _ _ _ _ _ key value _ _ _ _ _ _ ih
      rw [Ast.numbersMembers, Ast.numbersMembers, List.append_nil]
      exact ih
  case moreMembers =>
      intro _ _ _ _ _ _ _ key value members _ _ _ _ _ _ _ ih ihrest
      rw [Ast.numbersMembers]
      exact List.forall_mem_append.mpr ⟨ih, ihrest⟩

/-- No number is out of range on this platform. -/
theorem accepted_half {token : Bytes} (h : Rfc.Number token) : Reading.Accepted halfPlatform token := by
  obtain ⟨parts, rfl⟩ := h
  refine Reading.accepted_iff.mpr ⟨parts, rfl, ?_⟩
  rw [Rfc.NumberParts.value]
  split
  · rfl
  · have hread : (halfPlatform.fromChars parts.text).ec = .none ∧
        (halfPlatform.fromChars parts.text).ptr = parts.text.length := ⟨rfl, rfl⟩
    simp only [if_pos hread, Option.isSome_some]

theorem text_unique {json : Bytes} {ast ast' : Ast} (h : Rfc.Text json ast) (h' : Rfc.Text json ast') : ast = ast' := by
  have hread : ∀ {ast : Ast}, Rfc.Text json ast →
      ∃ r, Reading.readText Reading.skipWhitespace halfPlatform { maxDepth := 0 } 0 { rest := json } =
        .ok (ast, r) := by
    intro ast htext
    refine (Reading.readText_iff (plain_default 0)).mpr ⟨htext, .inl rfl, fun token hmem => ?_⟩
    obtain ⟨_, _, _, _, -, hvalue, -⟩ := htext
    exact accepted_half (number_of_mem_numbers hvalue token hmem)
  obtain ⟨r, hr⟩ := hread h
  obtain ⟨r', hr'⟩ := hread h'
  exact (Prod.mk.inj (Res.ok.inj (hr.symm.trans hr'))).1

/-! ### `ConstJson::parse` -/

namespace ConstJson

open Validate

theorem parse_iff_text {json : Bytes} : parse json = true ↔ ∃ ast, Rfc.Text json ast := by
  rw [parse]
  constructor
  · intro h
    split at h
    · cases h
    rename_i p hvalue
    obtain ⟨_, ast, ⟨before, text, hbefore, htext, rfl⟩, hjson⟩ := accepts_value _ _ _ hvalue
    obtain ⟨after, hafter, hp⟩ := skipWhitespace_split p
    rw [List.isEmpty_iff.mp h, List.append_nil] at hp
    rw [hjson, hp, List.append_assoc]
    exact ⟨ast, .mk before text after ast hbefore htext hafter⟩
  · rintro ⟨_, before, text, after, ast, hbefore, htext, hafter⟩
    have hfollow : Reading.Follow (after ++ []) := Reading.follow_whitespace hafter (stops_nil _)
    have hskip := skipWhitespace_append hafter (stops_nil _)
    rw [List.append_nil] at hfollow hskip
    rw [passes_value htext hbefore (by simp only [List.length_append]; omega) hfollow]
    exact List.isEmpty_iff.mpr hskip

/-- What is valid at compile time has one tree. At run time the parser also asks for its two limits, and for numbers
in range. -/
theorem parse_iff_parseCopy (json : Bytes) :
    (parse json = true ↔ ∃! ast, Rfc.Text json ast) ∧
    ∀ (platform : Platform) (limit : Nat),
      (∃ document, parseCopy platform { maxDepth := limit } json = .ok document) ↔
        parse json = true ∧ paddedFits json.length = true ∧ ∀ ast, Rfc.Text json ast →
          (limit = 0 ∨ ast.nesting ≤ limit) ∧ ∀ token ∈ ast.numbers, Reading.Accepted platform token := by
  have hunique : parse json = true ↔ ∃! ast, Rfc.Text json ast :=
    parse_iff_text.trans ⟨fun ⟨ast, hast⟩ => ⟨ast, hast, fun _ h => text_unique h hast⟩, ExistsUnique.exists⟩
  refine ⟨hunique, fun platform limit => ?_⟩
  have hdepth : ∀ ast : Ast, Reading.DepthFits { maxDepth := limit } (0 + ast.nesting) ↔
      limit = 0 ∨ ast.nesting ≤ limit := fun ast => by
    rw [Reading.DepthFits, Nat.zero_add]
  constructor
  · rintro ⟨document, hparse⟩
    have hfits := paddedFits_of_parseCopy hparse
    obtain ⟨value, r, hread, -⟩ := (parseCopy_eq_ok hfits).mp ⟨document, hparse, rfl⟩
    obtain ⟨htext, hnesting, hnumbers⟩ := (Reading.readText_iff (plain_default limit)).mp ⟨r, hread⟩
    refine ⟨parse_iff_text.mpr ⟨value, htext⟩, hfits, fun ast hast => ?_⟩
    obtain rfl := text_unique hast htext
    exact ⟨(hdepth ast).mp hnesting, hnumbers⟩
  · rintro ⟨hvalid, hfits, hlimits⟩
    obtain ⟨ast, hast⟩ := parse_iff_text.mp hvalid
    obtain ⟨hnesting, hnumbers⟩ := hlimits ast hast
    obtain ⟨r, hread⟩ := (Reading.readText_iff (plain_default limit)).mpr ⟨hast, (hdepth ast).mpr hnesting, hnumbers⟩
    obtain ⟨document, hparse, -⟩ := (parseCopy_eq_ok hfits).mpr ⟨ast, r, hread, rfl⟩
    exact ⟨document, hparse⟩

-- out of range at run time, but a number
example : parse (asciiBytes "[1e400]") = true := by decide

end ConstJson

end PjhJson
