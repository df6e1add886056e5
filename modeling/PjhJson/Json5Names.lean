import PjhJson.Json5Numbers

/-! Identifier keys are read as the grammar has them: the longest run of characters that an identifier
may have, raw or escaped. -/

namespace PjhJson.Json5

open Grammar Prog Reading Scanner

variable {r : Reading}

/-! ### Escapes -/

theorem readHex4_iff {p rest : Bytes} {value : Nat} :
    readHex4 p = some (value, rest) ↔ ∃ digits, Rfc.CodeUnit digits value ∧ p = digits ++ rest := by
  constructor
  · intro h
    match p with
    | [] => cases h
    | [_] => cases h
    | [_, _] => cases h
    | [_, _, _] => cases h
    | a :: b :: c :: d :: more =>
      rw [readHex4] at h
      simp only [Option.bind_eq_bind, Option.bind_eq_some_iff] at h
      obtain ⟨va, ha, vb, hb, vc, hc, vd, hd, heq⟩ := h
      have hdigits := Rfc.CodeUnit.mk a b c d va vb vc vd (hexValue_iff.mp ha) (hexValue_iff.mp hb)
        (hexValue_iff.mp hc) (hexValue_iff.mp hd)
      obtain ⟨rfl, rfl⟩ := Prod.mk.inj (Option.some.inj heq)
      refine ⟨[a, b, c, d], ?_, rfl⟩
      rw [or_eq_add _ (hexValue_iff.mp hb).lt, or_eq_add _ (hexValue_iff.mp hc).lt,
        or_eq_add _ (hexValue_iff.mp hd).lt]
      exact hdigits
  · rintro ⟨_, ⟨a, b, c, d, va, vb, vc, vd, ha, hb, hc, hd⟩, rfl⟩
    rw [← or_eq_add _ hb.lt, ← or_eq_add _ hc.lt, ← or_eq_add _ hd.lt]
    show readHex4 (a :: b :: c :: d :: rest) = _
    rw [readHex4, hexValue_iff.mpr ha, hexValue_iff.mpr hb, hexValue_iff.mpr hc, hexValue_iff.mpr hd]
    rfl

theorem decodeIdentifierEscape_iff {p rest : Bytes} {cp : Nat} :
    decodeIdentifierEscape p = some (cp, rest) ↔
      ∃ spelling value, UnicodeEscape spelling value ∧ p = spelling ++ rest ∧ cp = value.toNat := by
  rw [decodeIdentifierEscape]
  constructor
  · intro h
    split at h
    · cases h
    rename_i hstart
    obtain ⟨⟨cu, q⟩, hfirst, h⟩ := Option.bind_eq_some_iff.mp h
    have hp : p = ascii '\\' :: ascii 'u' :: p.drop 2 := by
      conv_lhs => rw [← List.take_append_drop 2 p, not_not.mp hstart]
      rfl
    obtain ⟨digits, hdigits, hmore⟩ := readHex4_iff.mp hfirst
    simp only at h
    split at h
    · rename_i hhigh
      split at h
      · cases h
      rename_i hsecond
      obtain ⟨⟨cl, q'⟩, hlast, h⟩ := Option.bind_eq_some_iff.mp h
      have hq : q = ascii '\\' :: ascii 'u' :: q.drop 2 := by
        conv_lhs => rw [← List.take_append_drop 2 q, not_not.mp hsecond]
        rfl
      obtain ⟨digits', hdigits', hmore'⟩ := readHex4_iff.mp hlast
      simp only at h
      split at h
      · rename_i hlow
        obtain ⟨rfl, rfl⟩ := Prod.mk.inj (Option.some.inj h)
        rw [isHighSurrogate_iff] at hhigh
        rw [isLowSurrogate_iff] at hlow
        have hpair := @surrogatePair_eq cu _ hlow.2
        obtain ⟨value, hvalue⟩ := @exists_char (surrogatePair cu cl) (by omega)
          (by simp only [isHighSurrogate, Bool.and_eq_false_iff, decide_eq_false_iff_not]; omega)
          (by simp only [isLowSurrogate, Bool.and_eq_false_iff, decide_eq_false_iff_not]; omega)
        refine ⟨_, value, .pair digits digits' cu cl value hdigits hdigits' hhigh.1 hhigh.2 hlow.1
          hlow.2 (hvalue.trans hpair), ?_, hvalue.symm⟩
        rw [hp, hmore, hq, hmore']
        simp
      · cases h
    rename_i hhigh
    split at h
    · cases h
    · rename_i hlow
      obtain ⟨rfl, rfl⟩ := Prod.mk.inj (Option.some.inj h)
      have hlt := hdigits.lt
      obtain ⟨value, rfl⟩ := @exists_char cu (by omega) (Bool.not_eq_true _ ▸ hhigh)
        (Bool.not_eq_true _ ▸ hlow)
      exact ⟨_, value, .unit digits value hdigits, by rw [hp, hmore]; rfl, rfl⟩
  · rintro ⟨spelling, value, hescape, rfl, rfl⟩
    cases hescape with
    | unit digits value hdigits =>
        obtain ⟨hhigh, hlow⟩ := toNat_not_surrogate value
        rw [if_neg (by simp)]
        refine Option.bind_eq_some_iff.mpr ⟨_, readHex4_iff.mpr ⟨digits, hdigits, rfl⟩, ?_⟩
        simp only
        rw [hhigh, hlow, if_neg Bool.false_ne_true, if_neg Bool.false_ne_true]
    | pair digits digits' high low value hdigits hdigits' hle hle' hlow hlow' hvalue =>
        rw [if_neg (by simp)]
        refine Option.bind_eq_some_iff.mpr
          ⟨(high, ascii '\\' :: ascii 'u' :: (digits' ++ rest)),
            readHex4_iff.mpr ⟨digits, hdigits, by simp⟩, ?_⟩
        simp only
        rw [if_pos (isHighSurrogate_iff.mpr ⟨hle, hle'⟩), if_neg (by simp)]
        refine Option.bind_eq_some_iff.mpr ⟨(low, rest), readHex4_iff.mpr ⟨digits', hdigits', rfl⟩, ?_⟩
        simp only
        rw [if_pos (isLowSurrogate_iff.mpr ⟨hlow, hlow'⟩), surrogatePair_eq hlow', ← hvalue]

/-! ### Characters -/

theorem identifierUnit_sound {text rest : Bytes} {cp : Nat} {written : Option Bytes}
    (h : identifierUnit text = some (cp, written, rest)) :
    ∃ spelling c, IdentifierUnit spelling c ∧ text = spelling ++ rest ∧ cp = c.toNat ∧
      written = some (String.utf8EncodeChar c) := by
  rw [identifierUnit] at h
  split at h
  · obtain ⟨⟨cp', rest'⟩, hdecode, heq⟩ := Option.map_eq_some_iff.mp h
    obtain ⟨spelling, value, hescape, htext, rfl⟩ := decodeIdentifierEscape_iff.mp hdecode
    simp only [Prod.mk.injEq] at heq
    obtain ⟨rfl, rfl, rfl⟩ := heq
    exact ⟨spelling, value, .escaped spelling value hescape, htext, rfl, encodeUtf8_toNat value⟩
  · obtain ⟨⟨cp', length⟩, hdecode, heq⟩ := Option.map_eq_some_iff.mp h
    obtain ⟨c, rfl, rfl, rest', rfl⟩ := Unicode.decodeUtf8_sound hdecode
    simp only [List.take_left, List.drop_left, Prod.mk.injEq] at heq
    obtain ⟨rfl, rfl, rfl⟩ := heq
    exact ⟨_, c, .raw c, rfl, rfl, rfl⟩

/-- A raw backslash begins an escape. -/
theorem identifierUnit_raw {c : Char} (hc : c.toNat ≠ 0x5C) (rest : Bytes) :
    identifierUnit (String.utf8EncodeChar c ++ rest) =
      some (c.toNat, some (String.utf8EncodeChar c), rest) := by
  have hhead : (String.utf8EncodeChar c ++ rest).head? ≠ some (ascii '\\') := by
    intro hhead
    by_cases hle : c.toNat ≤ 0x7F
    · rw [encode_ascii hle] at hhead
      have hnat := congrArg UInt8.toNat (Option.some.inj hhead)
      rw [Unicode.toNat_toUInt8 (by omega)] at hnat
      exact hc hnat
    · obtain ⟨lead, conts, hencode, hlead⟩ := encode_lead (Nat.lt_of_not_le hle)
      rw [hencode] at hhead
      rw [Option.some.inj hhead] at hlead
      exact absurd hlead (by decide)
  rw [identifierUnit, if_neg hhead, Unicode.decodeUtf8_encode]
  simp

theorem identifierUnit_escaped {spelling : Bytes} {c : Char} (h : UnicodeEscape spelling c)
    (rest : Bytes) :
    identifierUnit (spelling ++ rest) = some (c.toNat, some (String.utf8EncodeChar c), rest) := by
  have hhead : (spelling ++ rest).head? = some (ascii '\\') := by
    obtain ⟨digits, rfl⟩ := h.start
    rfl
  rw [identifierUnit, if_pos hhead, decodeIdentifierEscape_iff.mpr ⟨spelling, c, h, rfl, rfl⟩,
    Option.map_some]
  simp only [encodeUtf8_toNat]

theorem start_continues {cp : Nat} (h : Unicode.isIdentifierStart cp = true) :
    Unicode.isIdentifierContinue cp = true := by
  rw [Unicode.isIdentifierStart] at h
  rw [Unicode.isIdentifierContinue]
  split at h
  · rename_i hle
    rw [if_pos hle, Grammar.isIdentifierContinue, h, Bool.true_or]
  · rename_i hle
    rw [if_neg hle, h]
    rfl

theorem identifierUnit_append {spelling : Bytes} {c : Char} (h : IdentifierUnit spelling c)
    (hpart : Unicode.isIdentifierContinue c.toNat = true) (rest : Bytes) :
    identifierUnit (spelling ++ rest) = some (c.toNat, some (String.utf8EncodeChar c), rest) := by
  cases h with
  | raw c =>
      refine identifierUnit_raw ?_ rest
      intro hbackslash
      rw [hbackslash] at hpart
      exact absurd hpart (by decide)
  | escaped _ _ h => exact identifierUnit_escaped h rest

theorem IdentifierUnit.length_pos {spelling : Bytes} {c : Char} (h : IdentifierUnit spelling c) :
    0 < spelling.length := by
  cases h with
  | raw c =>
      rw [Unicode.utf8EncodeChar_cases]
      split_ifs <;> exact Nat.succ_pos _
  | escaped _ _ h =>
      obtain ⟨digits, rfl⟩ := h.start
      exact Nat.succ_pos _

/-! ### The loop -/

/-- What follows an identifier. -/
def NameEnds (rest : Bytes) : Prop :=
  ∀ cp written more, identifierUnit rest = some (cp, written, more) →
    Unicode.isIdentifierContinue cp = false

theorem utf8Bytes_cons (c : Char) (chars : List Char) :
    utf8Bytes (c :: chars) = String.utf8EncodeChar c ++ utf8Bytes chars := List.flatMap_cons

/-- The characters that the loop takes: the first one, and the others. -/
def IdentifierClass (first : Bool) (cp : Nat) : Prop :=
  (if first then Unicode.isIdentifierStart cp else Unicode.isIdentifierContinue cp) = true

/-- What the loop takes in one go. -/
inductive IdentifierRun (first : Bool) : Bytes → List Char → Prop where
  | nil : IdentifierRun first [] []
  | cons (spelling rest : Bytes) (c : Char) (chars : List Char) : IdentifierUnit spelling c →
      IdentifierClass first c.toNat → IdentifierParts rest chars →
      IdentifierRun first (spelling ++ rest) (c :: chars)

theorem identifierRun_parts {text : Bytes} {chars : List Char} :
    IdentifierRun false text chars ↔ IdentifierParts text chars := by
  constructor
  · intro h
    cases h with
    | nil => exact .nil
    | cons spelling rest c chars hunit hclass hrest => exact .cons _ _ _ _ hunit hclass hrest
  · intro h
    cases h with
    | nil => exact .nil
    | cons spelling rest c chars hunit hclass hrest => exact .cons _ _ _ _ hunit hclass hrest

/-- One character of the loop. -/
theorem identifierLoop_unit {fuel : Nat} {first : Bool} {decoded rest : Bytes} {c : Char}
    (h : identifierUnit r.rest = some (c.toNat, some (String.utf8EncodeChar c), rest))
    (hclass : IdentifierClass first c.toNat) :
    identifierLoop 0 (fuel + 1) first decoded r =
      identifierLoop 0 fuel false (decoded ++ String.utf8EncodeChar c)
        ⟨r.rest.drop (r.rest.length - rest.length), r.failure⟩ := by
  rw [identifierLoop, Prog.bind_get, body_zero, h]
  simp only
  rw [hclass, if_neg (by decide), advanceTo, Prog.bind_modify, body_zero]

/-- The end of the loop. -/
theorem identifierLoop_stop {fuel : Nat} {first : Bool} {decoded : Bytes}
    (h : ∀ cp written more, identifierUnit r.rest = some (cp, written, more) →
      ¬IdentifierClass first cp) :
    identifierLoop 0 (fuel + 1) first decoded r = .ok (decoded, r) := by
  rw [identifierLoop, Prog.bind_get, body_zero]
  cases hunit : identifierUnit r.rest with
  | none => rfl
  | some result =>
      obtain ⟨cp, written, more⟩ := result
      have hclass := h cp written more hunit
      rw [IdentifierClass, Bool.not_eq_true] at hclass
      simp only
      rw [hclass, if_pos (by decide)]
      rfl

theorem yields_identifierLoop {fuel : Nat} {first : Bool} {decoded : Bytes} :
    Yields (identifierLoop 0 fuel first decoded r) fun key r' =>
      ∃ text chars, IdentifierRun first text chars ∧ key = decoded ++ utf8Bytes chars ∧
        r.rest = text ++ r'.rest := by
  induction fuel generalizing first decoded r with
  | zero => exact yields_stuck
  | succ fuel ih =>
      by_cases hstop : ∀ cp written more, identifierUnit r.rest = some (cp, written, more) →
          ¬IdentifierClass first cp
      · rw [identifierLoop_stop hstop]
        exact yields_ok ⟨[], [], .nil, (List.append_nil _).symm, rfl⟩
      · push Not at hstop
        obtain ⟨cp, written, more, hunit, hclass⟩ := hstop
        obtain ⟨spelling, c, hspelling, hrest, rfl, rfl⟩ := identifierUnit_sound hunit
        rw [identifierLoop_unit hunit hclass]
        refine yields_mono ih ?_
        rintro key r' ⟨text, chars, htext, rfl, hr'⟩
        have hdrop : r.rest.drop (r.rest.length - more.length) = more := by
          rw [hrest, List.length_append, Nat.add_sub_cancel, List.drop_left]
        simp only [hdrop] at hr'
        refine ⟨spelling ++ text, c :: chars,
          .cons _ _ _ _ hspelling hclass (identifierRun_parts.mp htext), ?_, ?_⟩
        · rw [utf8Bytes_cons, List.append_assoc]
        · rw [hrest, hr', List.append_assoc]

theorem class_continues {first : Bool} {cp : Nat} (h : IdentifierClass first cp) :
    Unicode.isIdentifierContinue cp = true := by
  cases first with
  | false => exact h
  | true => exact start_continues h

theorem identifierLoop_step {spelling more : Bytes} {c : Char} {first : Bool}
    (h : IdentifierUnit spelling c) (hclass : IdentifierClass first c.toNat) (fuel : Nat)
    (decoded : Bytes) (failure : Option Failure) :
    identifierLoop 0 (fuel + 1) first decoded ⟨spelling ++ more, failure⟩ =
      identifierLoop 0 fuel false (decoded ++ String.utf8EncodeChar c) ⟨more, failure⟩ := by
  have hunit := identifierUnit_append h (class_continues hclass) more
  rw [@identifierLoop_unit ⟨spelling ++ more, failure⟩ fuel first decoded more c hunit hclass]
  simp only [List.length_append, Nat.add_sub_cancel, List.drop_left]

theorem identifierLoop_parts {text rest : Bytes} {chars : List Char} (h : IdentifierParts text chars)
    (hrest : NameEnds rest) {fuel : Nat} (hfuel : text.length < fuel) (decoded : Bytes)
    (failure : Option Failure) :
    identifierLoop 0 fuel false decoded ⟨text ++ rest, failure⟩ =
      .ok (decoded ++ utf8Bytes chars, ⟨rest, failure⟩) := by
  induction h generalizing fuel decoded with
  | nil =>
      obtain ⟨fuel, rfl⟩ : ∃ f, fuel = f + 1 := ⟨fuel - 1, by omega⟩
      have hstop := @identifierLoop_stop ⟨rest, failure⟩ fuel false decoded
        fun cp written more hunit hclass =>
          Bool.false_ne_true ((hrest cp written more hunit).symm.trans hclass)
      rw [List.nil_append, hstop, utf8Bytes, List.flatMap_nil, List.append_nil]
  | cons spelling text c chars hspelling hclass _ ih =>
      obtain ⟨fuel, rfl⟩ : ∃ f, fuel = f + 1 := ⟨fuel - 1, by omega⟩
      have hpos := hspelling.length_pos
      rw [List.length_append] at hfuel
      have hclass' : IdentifierClass false c.toNat := hclass
      rw [List.append_assoc, identifierLoop_step hspelling hclass', ih (by omega), utf8Bytes_cons,
        List.append_assoc]

/-- An identifier key, from its first character on. -/
theorem yields_readIdentifierKey :
    Yields (readIdentifierKey 0 r) fun key r' =>
      ∃ text chars, IdentifierName text chars ∧ key = utf8Bytes chars ∧ r.rest = text ++ r'.rest := by
  rw [readIdentifierKey, Prog.bind_get]
  refine yields_bind yields_identifierLoop ?_
  rintro key r₁ ⟨text, chars, htext, rfl, hr⟩
  rw [Prog.bind_get]
  split
  · exact yields_failHere _
  rename_i hmoved
  refine yields_ok ⟨text, chars, ?_, List.nil_append _, hr⟩
  cases htext with
  | nil => exact absurd (by rw [hr]; rfl) hmoved
  | cons spelling rest c chars hunit hclass hrest => exact .mk _ _ _ _ hunit hclass hrest

theorem readIdentifierKey_append {text rest : Bytes} {chars : List Char}
    (h : IdentifierName text chars) (hrest : NameEnds rest) (failure : Option Failure) :
    readIdentifierKey 0 ⟨text ++ rest, failure⟩ = .ok (utf8Bytes chars, ⟨rest, failure⟩) := by
  obtain ⟨spelling, more, c, chars, hunit, hstart, hmore⟩ := h
  have hpos := hunit.length_pos
  have hclass : IdentifierClass true c.toNat := hstart
  have hloop : identifierLoop 0 ((spelling ++ more ++ rest).length + 1) true []
      ⟨spelling ++ more ++ rest, failure⟩ = .ok (utf8Bytes (c :: chars), ⟨rest, failure⟩) := by
    rw [List.append_assoc, identifierLoop_step hunit hclass, identifierLoop_parts hmore hrest,
      utf8Bytes_cons]
    · rfl
    · simp only [List.length_append]
      omega
  rw [readIdentifierKey, Prog.bind_get, Prog.bind_of_ok hloop, Prog.bind_get, if_neg]
  · rfl
  · simp only [List.length_append]
    omega

/-! ### What ends an identifier -/

theorem nameEnds_nil : NameEnds [] := by
  intro cp written more h
  cases h

theorem nameEnds_char {c : Char} (hne : c.toNat ≠ 0x5C)
    (hpart : Unicode.isIdentifierContinue c.toNat = false) (rest : Bytes) :
    NameEnds (String.utf8EncodeChar c ++ rest) := by
  intro cp written more h
  rw [identifierUnit_raw hne] at h
  obtain ⟨rfl, -⟩ := Prod.mk.inj (Option.some.inj h)
  exact hpart

/-- No white space is part of an identifier. -/
theorem whiteSpace_ends {cp : Nat} (h : WhiteSpace cp) :
    cp ≠ 0x5C ∧ Unicode.isIdentifierContinue cp = false := by
  have hlisted : ∀ cp ∈ [0x09, 0x0A, 0x0B, 0x0C, 0x0D, 0x20, 0xA0, 0x1680, 0x2028, 0x2029, 0x202F,
      0x205F, 0x3000, 0xFEFF] ++ (List.range 11).map (0x2000 + ·),
      cp ≠ 0x5C ∧ Unicode.isIdentifierContinue cp = false := by
    decide +kernel
  refine hlisted cp (List.mem_append.mpr (h.imp_right fun h => ?_))
  exact List.mem_map.mpr ⟨cp - 0x2000, List.mem_range.mpr (by omega), by omega⟩

theorem nameEnds_ascii {c : UInt8} (hle : c ≤ 0x7F) (hne : c ≠ ascii '\\')
    (hpart : Grammar.isIdentifierContinue c = false) (rest : Bytes) : NameEnds (c :: rest) := by
  have hnat := UInt8.le_iff_toNat_le.mp hle
  obtain ⟨value, hvalue, hencode⟩ := Unicode.encoding_one hnat
  have hends := @nameEnds_char value (fun h => hne (UInt8.toNat_inj.mp (hvalue.trans h))) (by
    rw [Unicode.isIdentifierContinue, if_pos (by rw [← hvalue]; exact hnat), ← hvalue,
      Unicode.toUInt8_eq rfl]
    exact hpart) rest
  rwa [hencode] at hends

end PjhJson.Json5
