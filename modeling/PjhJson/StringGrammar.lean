import PjhJson.Reading
import PjhJson.Rfc

/-! The escapes and the contents of strings are read as the grammar of RFC 8259 has them. -/

namespace PjhJson

open Grammar

/-! ### Hex digits -/

theorem or_eq_add {v : Nat} (code : Nat) (hv : v < 16) : (code <<< 4) ||| v = code * 16 + v := by
  rw [Nat.shiftLeft_eq, Nat.mul_comm]
  exact (Nat.two_pow_add_eq_or_of_lt (i := 4) hv code).symm

theorem hexValue_iff {c : UInt8} {v : Nat} : hexValue c = some v ↔ Rfc.HexDigit c v := by
  rw [hexValue]
  constructor
  · intro h
    split_ifs at h with hdigit hlower hupper
    · obtain rfl := Option.some.inj h
      exact .digit c hdigit.1 hdigit.2
    · obtain rfl := Option.some.inj h
      exact .lower c hlower.1 hlower.2
    · obtain rfl := Option.some.inj h
      exact .upper c hupper.1 hupper.2
  · intro h
    cases h with
    | digit h h' => rw [if_pos ⟨h, h'⟩]
    | upper h h' =>
        rw [if_neg, if_neg, if_pos ⟨h, h'⟩]
        · rintro ⟨hle, -⟩
          exact absurd (UInt8.le_trans hle h') (show ¬ascii 'a' ≤ 0x46 by decide)
        · rintro ⟨-, hle⟩
          exact absurd (UInt8.le_trans h hle) (show ¬(0x41 : UInt8) ≤ ascii '9' by decide)
    | lower h h' =>
        rw [if_neg, if_pos ⟨h, h'⟩]
        rintro ⟨-, hle⟩
        exact absurd (UInt8.le_trans h hle) (show ¬(0x61 : UInt8) ≤ ascii '9' by decide)

theorem Rfc.HexDigit.lt {c : UInt8} {v : Nat} (h : Rfc.HexDigit c v) : v < 16 := by
  cases h with
  | digit h h' => have := UInt8.le_iff_toNat_le.mp h'; simp at this; omega
  | upper h h' => have := UInt8.le_iff_toNat_le.mp h'; simp at this; omega
  | lower h h' => have := UInt8.le_iff_toNat_le.mp h'; simp at this; omega

theorem Rfc.HexDigit.plain {c : UInt8} {v : Nat} (h : Rfc.HexDigit c v) : 0x20 ≤ c := by
  cases h with
  | digit h h' => exact UInt8.le_trans (show (0x20 : UInt8) ≤ 0x30 by decide) h
  | upper h h' => exact UInt8.le_trans (show (0x20 : UInt8) ≤ 0x41 by decide) h
  | lower h h' => exact UInt8.le_trans (show (0x20 : UInt8) ≤ 0x61 by decide) h

theorem readHexDigits_succ {n code value : Nat} {text rest : Bytes} :
    Reading.readHexDigits (n + 1) code text = .ok (value, rest) ↔
      ∃ c v more, Rfc.HexDigit c v ∧ text = c :: more ∧
        Reading.readHexDigits n (code * 16 + v) more = .ok (value, rest) := by
  cases text with
  | nil => simp [Reading.readHexDigits]
  | cons c more =>
      rw [Reading.readHexDigits]
      cases hv : hexValue c with
      | none =>
          simp only [reduceCtorEq, List.cons.injEq, false_iff]
          rintro ⟨c', v, more', hdigit, ⟨rfl, rfl⟩, -⟩
          rw [hexValue_iff.mpr hdigit] at hv
          cases hv
      | some v =>
          have hdigit := hexValue_iff.mp hv
          simp only [or_eq_add code hdigit.lt]
          constructor
          · exact fun h => ⟨c, v, more, hdigit, rfl, h⟩
          · rintro ⟨c', v', more', hdigit', heq, h⟩
            obtain ⟨rfl, rfl⟩ := List.cons.inj heq
            obtain rfl : v = v' := by
              have := hexValue_iff.mpr hdigit'
              rw [hv] at this
              exact Option.some.inj this
            exact h

/-- Four hex digits are read as a code unit. -/
theorem readHexDigits_iff {text rest : Bytes} {value : Nat} :
    Reading.readHexDigits 4 0 text = .ok (value, rest) ↔
      ∃ digits, Rfc.CodeUnit digits value ∧ text = digits ++ rest := by
  constructor
  · intro h
    obtain ⟨a, va, _, ha, rfl, h₁⟩ := readHexDigits_succ.mp h
    obtain ⟨b, vb, _, hb, rfl, h₂⟩ := readHexDigits_succ.mp h₁
    obtain ⟨c, vc, _, hc, rfl, h₃⟩ := readHexDigits_succ.mp h₂
    obtain ⟨d, vd, _, hd, rfl, h₄⟩ := readHexDigits_succ.mp h₃
    obtain ⟨rfl, rfl⟩ := Prod.mk.inj (Res.ok.inj h₄)
    refine ⟨[a, b, c, d], ?_, rfl⟩
    rw [Nat.zero_mul, Nat.zero_add]
    exact .mk a b c d va vb vc vd ha hb hc hd
  · rintro ⟨_, ⟨a, b, c, d, va, vb, vc, vd, ha, hb, hc, hd⟩, rfl⟩
    refine readHexDigits_succ.mpr ⟨a, va, _, ha, rfl, ?_⟩
    refine readHexDigits_succ.mpr ⟨b, vb, _, hb, rfl, ?_⟩
    refine readHexDigits_succ.mpr ⟨c, vc, _, hc, rfl, ?_⟩
    refine readHexDigits_succ.mpr ⟨d, vd, _, hd, rfl, ?_⟩
    rw [Nat.zero_mul, Nat.zero_add]
    rfl

theorem Rfc.CodeUnit.lt {digits : Bytes} {value : Nat} (h : Rfc.CodeUnit digits value) :
    value < 0x10000 := by
  obtain ⟨a, b, c, d, va, vb, vc, vd, ha, hb, hc, hd⟩ := h
  have := ha.lt
  have := hb.lt
  have := hc.lt
  have := hd.lt
  omega

theorem Rfc.CodeUnit.plain {digits : Bytes} {value : Nat} (h : Rfc.CodeUnit digits value) :
    ∀ c ∈ digits, 0x20 ≤ c := by
  obtain ⟨a, b, c, d, va, vb, vc, vd, ha, hb, hc, hd⟩ := h
  simp only [List.mem_cons, List.not_mem_nil, or_false]
  rintro _ (rfl | rfl | rfl | rfl)
  · exact ha.plain
  · exact hb.plain
  · exact hc.plain
  · exact hd.plain

/-! ### Code points -/

/-- A continuation or lead byte is the sum of its tag and its payload. -/
theorem tag_or (tag x : Nat) (k : Nat) (htag : 2 ^ k ∣ tag) :
    tag ||| (x &&& (2 ^ k - 1)) = x % 2 ^ k + tag := by
  obtain ⟨q, rfl⟩ := htag
  rw [Nat.and_two_pow_sub_one_eq_mod, Nat.add_comm]
  exact (Nat.two_pow_add_eq_or_of_lt (Nat.mod_lt _ (Nat.two_pow_pos k)) q).symm

/-- A Unicode scalar value is encoded as Lean encodes it. -/
theorem encodeUtf8_toNat (value : Char) :
    encodeUtf8 value.toNat = some (String.utf8EncodeChar value) := by
  have hlt : value.toNat ≤ 0x10FFFF := by
    have := value.valid
    rcases this with h | ⟨_, h⟩
    · have h' : value.toNat < 0xD800 := h
      omega
    · have h' : value.toNat < 0x110000 := h
      omega
  have h1F := fun x => tag_or 0xC0 x 5 (by decide)
  have h3F := fun x => tag_or 0x80 x 6 (by decide)
  have h0F := fun x => tag_or 0xE0 x 4 (by decide)
  have h07 := fun x => tag_or 0xF0 x 3 (by decide)
  simp only [Nat.reducePow, Nat.reduceSub] at h1F h3F h0F h07
  have hval : value.val.toNat = value.toNat := rfl
  simp only [encodeUtf8, String.utf8EncodeChar, hval, h1F, h3F, h0F, h07,
    Nat.shiftRight_eq_div_pow]
  split_ifs
  · rfl
  · rfl
  · rfl
  · rfl

theorem Char.isValidCharNat_of {cp : Nat} (hle : cp ≤ 0x10FFFF)
    (hhigh : isHighSurrogate cp = false) (hlow : isLowSurrogate cp = false) :
    cp.isValidChar := by
  simp only [isHighSurrogate, isLowSurrogate, Bool.and_eq_false_iff, decide_eq_false_iff_not] at *
  simp only [Nat.isValidChar]
  omega

theorem toNat_not_surrogate (value : Char) :
    isHighSurrogate value.toNat = false ∧ isLowSurrogate value.toNat = false := by
  have hvalid : value.toNat.isValidChar := value.valid
  simp only [Nat.isValidChar] at hvalid
  simp only [isHighSurrogate, isLowSurrogate, Bool.and_eq_false_iff, decide_eq_false_iff_not]
  omega

theorem exists_char {cp : Nat} (hle : cp ≤ 0x10FFFF) (hhigh : isHighSurrogate cp = false)
    (hlow : isLowSurrogate cp = false) : ∃ value : Char, value.toNat = cp := by
  have hvalid := Char.isValidCharNat_of hle hhigh hlow
  exact ⟨Char.ofNatAux cp hvalid, rfl⟩

theorem readEncoded_toNat (value : Char) (text : Bytes) :
    Reading.readEncoded value.toNat text = .ok (String.utf8EncodeChar value, text) := by
  rw [Reading.readEncoded, encodeUtf8_toNat]

/-! ### Escapes -/

theorem isHighSurrogate_iff {cp : Nat} : isHighSurrogate cp = true ↔ 0xD800 ≤ cp ∧ cp ≤ 0xDBFF := by
  simp [isHighSurrogate]

theorem isLowSurrogate_iff {cp : Nat} : isLowSurrogate cp = true ↔ 0xDC00 ≤ cp ∧ cp ≤ 0xDFFF := by
  simp [isLowSurrogate]

theorem surrogatePair_eq {high low : Nat} (hlow : low ≤ 0xDFFF) :
    surrogatePair high low = 0x10000 + (high - 0xD800) * 0x400 + (low - 0xDC00) := by
  have hor := Nat.two_pow_add_eq_or_of_lt (i := 10) (b := low - 0xDC00) (by omega) (high - 0xD800)
  rw [surrogatePair, Nat.shiftLeft_eq, Nat.mul_comm, ← hor]
  omega

theorem shortEscapeValue_iff {c value : UInt8} :
    shortEscapeValue c ≠ 0 ∧ shortEscapeValue c = value ↔ Rfc.ShortEscape c value := by
  constructor
  · rintro ⟨hne, rfl⟩
    rw [shortEscapeValue] at hne ⊢
    split_ifs at hne ⊢ with h₁ h₂ h₃ h₄ h₅ h₆ h₇ h₈
    · rw [h₁]; exact .quote
    · rw [h₂]; exact .backslash
    · rw [h₃]; exact .slash
    · rw [h₄]; exact .backspace
    · rw [h₅]; exact .formFeed
    · rw [h₆]; exact .lineFeed
    · rw [h₇]; exact .carriageReturn
    · rw [h₈]; exact .tab
    · exact absurd rfl hne
  · intro h
    cases h <;> decide

theorem Rfc.ShortEscape.plain {c value : UInt8} (h : Rfc.ShortEscape c value) : 0x20 ≤ c := by
  cases h <;> decide

/-- The rest of a pair of surrogates. -/
theorem readLowSurrogate_iff {high : Nat} {text written rest : Bytes}
    (hhigh : isHighSurrogate high = true) :
    Reading.readLowSurrogate high text = .ok (written, rest) ↔
      ∃ digits low, ∃ value : Char, Rfc.CodeUnit digits low ∧ text = digits ++ rest ∧
        0xDC00 ≤ low ∧ low ≤ 0xDFFF ∧
        value.toNat = 0x10000 + (high - 0xD800) * 0x400 + (low - 0xDC00) ∧
        written = String.utf8EncodeChar value := by
  rw [isHighSurrogate_iff] at hhigh
  rw [Reading.readLowSurrogate, Res.bind_eq_ok]
  constructor
  · rintro ⟨⟨low, more⟩, hhex, h⟩
    obtain ⟨digits, hunit, rfl⟩ := readHexDigits_iff.mp hhex
    simp only at h
    split_ifs at h with hlow
    rw [isLowSurrogate_iff] at hlow
    have hpair := @surrogatePair_eq high _ hlow.2
    obtain ⟨value, hvalue⟩ := @exists_char (surrogatePair high low) (by omega)
      (by simp only [isHighSurrogate, Bool.and_eq_false_iff, decide_eq_false_iff_not]; omega)
      (by simp only [isLowSurrogate, Bool.and_eq_false_iff, decide_eq_false_iff_not]; omega)
    rw [← hvalue, readEncoded_toNat] at h
    obtain ⟨rfl, rfl⟩ := Prod.mk.inj (Res.ok.inj h)
    exact ⟨digits, low, value, hunit, rfl, hlow.1, hlow.2, hvalue.trans hpair, rfl⟩
  · rintro ⟨digits, low, value, hunit, rfl, hlow, hlow', hvalue, rfl⟩
    refine ⟨(low, rest), readHexDigits_iff.mpr ⟨digits, hunit, rfl⟩, ?_⟩
    simp only [isLowSurrogate_iff.mpr ⟨hlow, hlow'⟩, if_true]
    rw [surrogatePair_eq hlow', ← hvalue, readEncoded_toNat]

/-- An escape is a character of the grammar that a backslash starts. -/
theorem readEscape_iff {text written rest : Bytes} :
    Reading.readEscape (ascii '\\' :: text) = .ok (written, rest) ↔
      ∃ spelling, Rfc.Character (ascii '\\' :: spelling) written ∧ text = spelling ++ rest := by
  rw [Reading.readEscape, List.tail_cons]
  constructor
  · intro h
    cases text with
    | nil => cases h
    | cons c text =>
        simp only at h
        split_ifs at h with hshort hu
        · obtain ⟨rfl, rfl⟩ := Prod.mk.inj (Res.ok.inj h)
          exact ⟨[c], .short c _ (shortEscapeValue_iff.mp ⟨hshort, rfl⟩), rfl⟩
        · obtain ⟨⟨cp, more⟩, hhex, hunit⟩ := Res.bind_eq_ok.mp h
          obtain ⟨digits, hdigits, rfl⟩ := readHexDigits_iff.mp hhex
          rw [Reading.readCodeUnit] at hunit
          rw [not_not.mp hu]
          split_ifs at hunit with hhigh hpair hlow
          · obtain ⟨digits', low, value, hlow, hmore, hle, hle', hvalue, rfl⟩ :=
              (readLowSurrogate_iff hhigh).mp hunit
            rw [isHighSurrogate_iff] at hhigh
            refine ⟨ascii 'u' :: (digits ++ ascii '\\' :: ascii 'u' :: digits'),
              .pair digits digits' cp low value hdigits hlow hhigh.1 hhigh.2 hle hle' hvalue, ?_⟩
            have hsplit := (List.take_append_drop 2 more).symm
            rw [hpair, hmore] at hsplit
            simp [hsplit]
          · have hlt := hdigits.lt
            obtain ⟨value, rfl⟩ := @exists_char cp (by omega) (Bool.not_eq_true _ ▸ hhigh)
              (Bool.not_eq_true _ ▸ hlow)
            rw [readEncoded_toNat] at hunit
            obtain ⟨rfl, rfl⟩ := Prod.mk.inj (Res.ok.inj hunit)
            exact ⟨ascii 'u' :: digits, .unicode digits value hdigits, rfl⟩
  · rintro ⟨spelling, hcharacter, rfl⟩
    obtain ⟨whole, hwhole⟩ : ∃ whole, whole = ascii '\\' :: spelling := ⟨_, rfl⟩
    rw [← hwhole] at hcharacter
    cases hcharacter with
    | unescaped c _ _ hbackslash => exact absurd (List.cons.inj hwhole).1 hbackslash
    | short c value h =>
        obtain ⟨hne, rfl⟩ := shortEscapeValue_iff.mpr h
        obtain rfl := (List.cons.inj hwhole).2
        rw [List.singleton_append]
        exact if_pos hne
    | unicode digits value hdigits =>
        obtain rfl := (List.cons.inj hwhole).2
        obtain ⟨hhigh, hlow⟩ := toNat_not_surrogate value
        simp only [List.cons_append]
        rw [if_neg (by decide), if_neg (by decide),
          readHexDigits_iff.mpr ⟨digits, hdigits, rfl⟩, Res.ok_bind, Reading.readCodeUnit, hhigh,
          hlow, if_neg (by decide), if_neg (by decide), readEncoded_toNat]
    | pair digits digits' high low value hdigits hdigits' hle hle' hlow hlow' hvalue =>
        obtain rfl := (List.cons.inj hwhole).2
        have hhigh := isHighSurrogate_iff.mpr ⟨hle, hle'⟩
        simp only [List.cons_append, List.append_assoc]
        rw [if_neg (by decide), if_neg (by decide),
          readHexDigits_iff.mpr ⟨digits, hdigits, rfl⟩, Res.ok_bind, Reading.readCodeUnit,
          if_pos hhigh, if_pos (by simp)]
        exact (readLowSurrogate_iff hhigh).mpr
          ⟨digits', low, value, hdigits', rfl, hlow, hlow', hvalue, rfl⟩

/-- No character of a string is spelled with a control byte. -/
theorem Rfc.Character.plain {spelling written : Bytes} (h : Rfc.Character spelling written) :
    ∀ c ∈ spelling, 0x20 ≤ c := by
  cases h with
  | unescaped c hplain => simpa using hplain
  | short c value h =>
      simp only [List.mem_cons, List.not_mem_nil, or_false]
      rintro _ (rfl | rfl)
      · decide
      · exact h.plain
  | unicode digits value hdigits =>
      simp only [List.mem_cons]
      rintro c (rfl | rfl | hmem)
      · decide
      · decide
      · exact hdigits.plain c hmem
  | pair digits digits' high low value hdigits hdigits' =>
      simp only [List.mem_cons, List.mem_append]
      rintro c (rfl | rfl | hmem | rfl | rfl | hmem)
      · decide
      · decide
      · exact hdigits.plain c hmem
      · decide
      · decide
      · exact hdigits'.plain c hmem

theorem Rfc.Character.length_pos {spelling written : Bytes} (h : Rfc.Character spelling written) :
    0 < spelling.length := by
  cases h <;> exact Nat.succ_pos _

end PjhJson
