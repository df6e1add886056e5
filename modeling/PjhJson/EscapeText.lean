import PjhJson.Reading

/-! Escapes. With NUL behind the text, the unbounded decoder reads what the text has, and no escape
is shorter than the bytes it decodes to, which is what lets a string be decoded in place. -/

namespace PjhJson

open Grammar

/-- An escape decoder applied to a text with more bytes behind it. -/
def appendEscape (more : Bytes) : Res EscapeError (Bytes × Bytes) → Res EscapeError (Bytes × Bytes)
  | .ok (written, rest) => .ok (written, rest ++ more)
  | .error (code, anchor) => .error (code, anchor.map (· ++ more))
  | .stuck => .stuck

/-- The NUL bytes behind a text. -/
theorem exists_nul {zeros : Bytes} (h : zeros ≠ [] ∧ ∀ c ∈ zeros, c = 0) :
    ∃ rest, zeros = 0 :: rest := by
  cases zeros with
  | nil => exact absurd rfl h.1
  | cons c rest =>
      obtain rfl := h.2 c List.mem_cons_self
      exact ⟨rest, rfl⟩

section NulBehind

variable {zeros : Bytes} (hzeros : zeros ≠ [] ∧ ∀ c ∈ zeros, c = 0)

include hzeros

theorem parseHexDigits_append (n code : Nat) (text : Bytes) :
    parseHexDigits n code (text ++ zeros) = match Reading.readHexDigits n code text with
      | .ok (value, rest) => .ok (value, rest ++ zeros)
      | .error (code, anchor) => .error (code, anchor.map (· ++ zeros))
      | .stuck => .stuck := by
  induction n generalizing code text with
  | zero => rfl
  | succ n ih =>
      cases text with
      | nil =>
          obtain ⟨rest, rfl⟩ := exists_nul hzeros
          rfl
      | cons c text =>
          rw [List.cons_append, parseHexDigits, Reading.readHexDigits]
          cases hexValue c with
          | none => rfl
          | some v => exact ih _ _

theorem handleLowSurrogate_append (high : Nat) (text : Bytes) :
    handleLowSurrogate high (text ++ zeros) =
      appendEscape zeros (Reading.readLowSurrogate high text) := by
  rw [handleLowSurrogate, Reading.readLowSurrogate, parseHex4, parseHexDigits_append hzeros]
  cases Reading.readHexDigits 4 0 text with
  | error failure => rfl
  | stuck => rfl
  | ok result =>
      simp only [Res.ok_bind]
      split
      · rw [encodeEscape, Reading.readEncoded]
        cases encodeUtf8 (surrogatePair high result.1) <;> rfl
      · rfl

theorem handleCodeUnit_append (cp : Nat) (text : Bytes) :
    handleCodeUnit cp (text ++ zeros) = appendEscape zeros (Reading.readCodeUnit cp text) := by
  obtain ⟨more, hmore⟩ := exists_nul hzeros
  rw [handleCodeUnit.eq_def, Reading.readCodeUnit]
  by_cases hhigh : isHighSurrogate cp = true
  · rw [if_pos hhigh, if_pos hhigh]
    match text with
    | [] =>
      rw [hmore]
      rfl
    | [a] =>
      rw [hmore, List.cons_append, List.nil_append, if_neg (by simp)]
      by_cases ha : a = ascii '\\'
      · simp only [if_pos ha]
        rfl
      · simp only [if_neg ha]
        rfl
    | a :: b :: rest =>
      simp only [List.cons_append, List.take_succ_cons, List.take_zero, List.cons.injEq, and_true,
        List.drop_succ_cons, List.drop_zero]
      by_cases ha : a = ascii '\\'
      · by_cases hb : b = ascii 'u'
        · simp only [if_pos ha, if_pos hb, if_pos (And.intro ha hb)]
          exact handleLowSurrogate_append hzeros cp rest
        · simp only [if_pos ha, if_neg hb, if_neg fun h : a = ascii '\\' ∧ b = ascii 'u' => hb h.2]
          rfl
      · simp only [if_neg ha, if_neg fun h : a = ascii '\\' ∧ b = ascii 'u' => ha h.1]
        rfl
  · rw [if_neg hhigh, if_neg hhigh]
    split
    · rfl
    · rw [encodeEscape, Reading.readEncoded]
      cases encodeUtf8 cp <;> rfl

/-- With NUL behind the text, `handle_escape` reads what the text has. -/
theorem handleEscape_append (c : UInt8) (text : Bytes) :
    handleEscape (c :: text ++ zeros) = appendEscape zeros (Reading.readEscape (c :: text)) := by
  rw [handleEscape, Reading.readEscape, List.cons_append, List.tail_cons, List.tail_cons]
  cases text with
  | nil =>
      obtain ⟨more, rfl⟩ := exists_nul hzeros
      rfl
  | cons e rest =>
      simp only [List.cons_append]
      split
      · rfl
      · split
        · rfl
        · rw [parseHex4, parseHexDigits_append hzeros]
          cases Reading.readHexDigits 4 0 rest with
          | error failure => rfl
          | stuck => rfl
          | ok result => exact handleCodeUnit_append hzeros _ _

end NulBehind

/-! ### No escape is shorter than what it decodes to -/

theorem length_encodeUtf8 {cp : Nat} {written : Bytes} (h : encodeUtf8 cp = some written) :
    written.length ≤ 4 := by
  rw [encodeUtf8] at h
  split_ifs at h <;> cases h <;> simp

theorem length_readHexDigits {n code value : Nat} {text rest : Bytes}
    (h : Reading.readHexDigits n code text = .ok (value, rest)) : rest.length + n = text.length := by
  induction n generalizing code text with
  | zero =>
      obtain ⟨-, rfl⟩ := Prod.mk.inj (Res.ok.inj h)
      rfl
  | succ n ih =>
      cases text with
      | nil => cases h
      | cons c text =>
          rw [Reading.readHexDigits] at h
          cases hv : hexValue c with
          | none => rw [hv] at h; cases h
          | some v =>
              rw [hv] at h
              have := ih h
              rw [List.length_cons]
              omega

theorem length_readEncoded {cp : Nat} {text written rest : Bytes}
    (h : Reading.readEncoded cp text = .ok (written, rest)) :
    written.length ≤ 4 ∧ rest = text := by
  rw [Reading.readEncoded] at h
  cases hencode : encodeUtf8 cp with
  | none => rw [hencode] at h; cases h
  | some bytes =>
      rw [hencode] at h
      obtain ⟨rfl, rfl⟩ := Prod.mk.inj (Res.ok.inj h)
      exact ⟨length_encodeUtf8 hencode, rfl⟩

theorem length_readCodeUnit {cp : Nat} {text written rest : Bytes}
    (h : Reading.readCodeUnit cp text = .ok (written, rest)) :
    written.length ≤ 4 ∧ rest.length ≤ text.length := by
  rw [Reading.readCodeUnit] at h
  split_ifs at h with hhigh hpair hlow
  · rw [Reading.readLowSurrogate, Res.bind_eq_ok] at h
    obtain ⟨⟨low, more⟩, hhex, h⟩ := h
    have hlength := length_readHexDigits hhex
    rw [List.length_drop] at hlength
    simp only at h
    split_ifs at h with hlow
    obtain ⟨hwritten, rfl⟩ := length_readEncoded h
    exact ⟨hwritten, by omega⟩
  · obtain ⟨hwritten, rfl⟩ := length_readEncoded h
    exact ⟨hwritten, Nat.le_refl _⟩

theorem length_readEscape {text written rest : Bytes}
    (h : Reading.readEscape text = .ok (written, rest)) :
    written.length + rest.length ≤ text.length ∧ rest.length < text.length := by
  rw [Reading.readEscape] at h
  cases text with
  | nil => cases h
  | cons b text =>
      cases text with
      | nil => cases h
      | cons c text =>
          simp only [List.tail_cons, List.length_cons] at h ⊢
          split_ifs at h with hshort hu
          · obtain ⟨rfl, rfl⟩ := Prod.mk.inj (Res.ok.inj h)
            simp only [List.length_singleton]
            omega
          · rw [Res.bind_eq_ok] at h
            obtain ⟨⟨cp, more⟩, hhex, h⟩ := h
            have hlength := length_readHexDigits hhex
            obtain ⟨hwritten, hrest⟩ := length_readCodeUnit h
            simp only at hrest
            omega

theorem length_readHexDigitsBounded {n code value : Nat} {text rest : Bytes}
    (h : readHexDigitsBounded n code text = .ok (value, rest)) : rest.length + n = text.length := by
  induction n generalizing code text with
  | zero =>
      obtain ⟨-, rfl⟩ := Prod.mk.inj (Res.ok.inj h)
      rfl
  | succ n ih =>
      cases text with
      | nil => cases h
      | cons c text =>
          rw [readHexDigitsBounded] at h
          cases hv : hexValue c with
          | none => rw [hv] at h; cases h
          | some v =>
              rw [hv] at h
              have := ih h
              rw [List.length_cons]
              omega

theorem length_encodeEscape {cp : Nat} {text written rest : Bytes}
    (h : encodeEscape cp text = .ok (written, rest)) : written.length ≤ 4 ∧ rest = text :=
  length_readEncoded h

theorem length_handleCodeUnitBounded {cp : Nat} {text written rest : Bytes}
    (h : handleCodeUnitBounded cp text = .ok (written, rest)) :
    written.length ≤ 4 ∧ rest.length ≤ text.length := by
  rw [handleCodeUnitBounded] at h
  split_ifs at h with hhigh hpair hlow
  · rw [handleLowSurrogateBounded, Res.bind_eq_ok] at h
    obtain ⟨⟨low, more⟩, hhex, h⟩ := h
    have hlength := length_readHexDigitsBounded hhex
    rw [List.length_drop] at hlength
    simp only at h
    split_ifs at h with hlow
    obtain ⟨hwritten, rfl⟩ := length_encodeEscape h
    exact ⟨hwritten, by omega⟩
  · obtain ⟨hwritten, rfl⟩ := length_encodeEscape h
    exact ⟨hwritten, Nat.le_refl _⟩

theorem length_handleHexByte {text written rest : Bytes}
    (h : handleHexByte text = .ok (written, rest)) : written.length + rest.length ≤ text.length := by
  match text with
  | [] => cases h
  | [a] => cases h
  | hi :: lo :: text =>
    rw [handleHexByte] at h
    cases hhi : hexValue hi with
    | none => rw [hhi] at h; cases h
    | some v =>
        cases hlo : hexValue lo with
        | none => rw [hhi, hlo] at h; cases h
        | some v' =>
            rw [hhi, hlo] at h
            obtain ⟨rfl, rfl⟩ := Prod.mk.inj (Res.ok.inj h)
            simp only [List.length_cons, List.length_nil]
            omega

theorem length_handleEscapeJson5Bounded {text written rest : Bytes}
    (h : handleEscapeJson5Bounded text = .ok (written, rest)) :
    written.length + rest.length ≤ text.length ∧ rest.length < text.length := by
  rw [handleEscapeJson5Bounded] at h
  cases text with
  | nil => cases h
  | cons b text =>
      cases text with
      | nil => cases h
      | cons e text =>
          simp only [List.tail_cons, List.length_cons] at h ⊢
          have hdone : ∀ {bytes left : Bytes}, (Res.ok (bytes, left) : Res EscapeError _) =
              .ok (written, rest) → bytes.length ≤ 1 → left.length ≤ text.length →
              written.length + rest.length ≤ text.length + 1 + 1 ∧
                rest.length < text.length + 1 + 1 := by
            intro bytes left heq hbytes hleft
            obtain ⟨rfl, rfl⟩ := Prod.mk.inj (Res.ok.inj heq)
            omega
          split_ifs at h with hlf hcr hcrlf hsep hx hzero hdigit hoctal hu hshort
          · exact hdone h (by simp) (Nat.le_refl _)
          · exact hdone h (by simp) (by simp)
          · exact hdone h (by simp) (Nat.le_refl _)
          · exact hdone h (by simp) (by simp)
          · have := length_handleHexByte h
            omega
          · exact hdone h (by simp) (Nat.le_refl _)
          · rw [Res.bind_eq_ok] at h
            obtain ⟨⟨cp, more⟩, hhex, h⟩ := h
            have hlength := length_readHexDigitsBounded hhex
            obtain ⟨hwritten, hrest⟩ := length_handleCodeUnitBounded h
            simp only at hrest
            omega
          · exact hdone h (by simp) (Nat.le_refl _)
          · exact hdone h (by simp) (Nat.le_refl _)

theorem length_readHex4 {text rest : Bytes} {value : Nat} (h : readHex4 text = some (value, rest)) :
    rest.length + 4 = text.length := by
  match text with
  | [] => cases h
  | [a] => cases h
  | [a, b] => cases h
  | [a, b, c] => cases h
  | a :: b :: c :: d :: text =>
    simp only [readHex4, Option.bind_eq_bind, Option.bind_eq_some_iff, Option.some.injEq,
      Prod.mk.injEq] at h
    obtain ⟨_, _, _, _, _, _, _, _, _, rfl⟩ := h
    simp

theorem length_decodeIdentifierEscape {text rest : Bytes} {cp : Nat}
    (h : decodeIdentifierEscape text = some (cp, rest)) : rest.length + 6 ≤ text.length := by
  rw [decodeIdentifierEscape] at h
  split_ifs at h with hstart
  have hlength : 2 ≤ text.length := by
    have := congrArg List.length (not_not.mp hstart)
    rw [List.length_take] at this
    simp only [List.length_cons, List.length_nil] at this
    omega
  rw [Option.bind_eq_bind, Option.bind_eq_some_iff] at h
  obtain ⟨⟨cu, q⟩, hcu, h⟩ := h
  have hq := length_readHex4 hcu
  rw [List.length_drop] at hq
  simp only at h
  split_ifs at h with hhigh hpair hlow
  · rw [Option.bind_eq_some_iff] at h
    obtain ⟨⟨cl, r⟩, hcl, h⟩ := h
    have hr := length_readHex4 hcl
    rw [List.length_drop] at hr
    simp only at h
    split_ifs at h
    obtain ⟨-, rfl⟩ := Prod.mk.inj (Option.some.inj h)
    omega
  · obtain ⟨-, rfl⟩ := Prod.mk.inj (Option.some.inj h)
    omega

theorem length_decodeUtf8 {text : Bytes} {cp length : Nat}
    (h : Unicode.decodeUtf8 text = some (cp, length)) : 0 < length ∧ length ≤ text.length := by
  cases text with
  | nil => cases h
  | cons b0 rest =>
      have hsome : ∀ {value n : Nat}, some (value, n) = some (cp, length) → 0 < n →
          n ≤ rest.length + 1 → 0 < length ∧ length ≤ rest.length + 1 := by
        intro value n heq hpos hle
        obtain ⟨-, rfl⟩ := Prod.mk.inj (Option.some.inj heq)
        exact ⟨hpos, hle⟩
      have hvalid : ∀ {c : Prop} [Decidable c] {result : Option (Nat × Nat)},
          (if c then none else result) = some (cp, length) → result = some (cp, length) := by
        intro c _ result heq
        split at heq
        · cases heq
        · exact heq
      rw [Unicode.decodeUtf8.eq_def] at h
      simp only at h
      split at h
      · exact hsome h (by omega) (by omega)
      split at h
      · split at h
        · split at h
          · exact hsome h (by omega) (by simp)
          · cases h
        · cases h
      split at h
      · split at h
        · exact hsome (hvalid h) (by omega) (by simp)
        · cases h
      split at h
      · split at h
        · exact hsome (hvalid h) (by omega) (by simp)
        · cases h
      · cases h

end PjhJson
