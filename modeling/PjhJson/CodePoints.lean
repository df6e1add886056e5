import PjhJson.EscapeText
import PjhJson.StringGrammar
import PjhJson.Unicode

/-! The decoder of `unicode.hpp` finds the characters that are encoded at the start of some bytes, and
nothing else. -/

namespace PjhJson.Unicode

open Grammar

theorem isCont_iff {b : UInt8} : isCont b = true ↔ 0x80 ≤ b.toNat ∧ b.toNat ≤ 0xBF := by
  rw [isCont, Bool.and_eq_true, decide_eq_true_iff, decide_eq_true_iff, UInt8.le_iff_toNat_le,
    UInt8.le_iff_toNat_le]
  rfl

/-! ### The fields of a code point -/

theorem join {low k : Nat} (high : Nat) (h : low < 2 ^ k) :
    (high <<< k) ||| low = high * 2 ^ k + low := by
  rw [Nat.shiftLeft_eq, Nat.mul_comm]
  exact (Nat.two_pow_add_eq_or_of_lt h high).symm

theorem payload (b k : Nat) : b &&& (2 ^ k - 1) = b % 2 ^ k := Nat.and_two_pow_sub_one_eq_mod b k

theorem join_two (b0 b1 : Nat) : ((b0 &&& 0x1F) <<< 6) ||| (b1 &&& 0x3F) = b0 % 32 * 64 + b1 % 64 := by
  have hlead : b0 &&& 0x1F = b0 % 32 := payload b0 5
  have hcont : b1 &&& 0x3F = b1 % 64 := payload b1 6
  have hlt : b1 % 64 < 2 ^ 6 := Nat.mod_lt _ (by decide)
  rw [hlead, hcont, join _ hlt]
  omega

theorem join_three (b0 b1 b2 : Nat) :
    ((b0 &&& 0x0F) <<< 12) ||| ((b1 &&& 0x3F) <<< 6) ||| (b2 &&& 0x3F) =
      b0 % 16 * 4096 + b1 % 64 * 64 + b2 % 64 := by
  have hlead : b0 &&& 0x0F = b0 % 16 := payload b0 4
  have hcont : b1 &&& 0x3F = b1 % 64 := payload b1 6
  have hlast : b2 &&& 0x3F = b2 % 64 := payload b2 6
  have hlt : b2 % 64 < 2 ^ 6 := Nat.mod_lt _ (by decide)
  have hlt' : b1 % 64 * 2 ^ 6 + b2 % 64 < 2 ^ 12 := by omega
  rw [hlead, hcont, hlast, Nat.or_assoc, join _ hlt, join _ hlt']
  omega

theorem join_four (b0 b1 b2 b3 : Nat) :
    ((b0 &&& 0x07) <<< 18) ||| ((b1 &&& 0x3F) <<< 12) ||| ((b2 &&& 0x3F) <<< 6) ||| (b3 &&& 0x3F) =
      b0 % 8 * 262144 + b1 % 64 * 4096 + b2 % 64 * 64 + b3 % 64 := by
  have hlead : b0 &&& 0x07 = b0 % 8 := payload b0 3
  have hcont : b1 &&& 0x3F = b1 % 64 := payload b1 6
  have hcont' : b2 &&& 0x3F = b2 % 64 := payload b2 6
  have hlast : b3 &&& 0x3F = b3 % 64 := payload b3 6
  have hlt : b3 % 64 < 2 ^ 6 := Nat.mod_lt _ (by decide)
  have hlt' : b2 % 64 * 2 ^ 6 + b3 % 64 < 2 ^ 12 := by omega
  have hlt'' : b1 % 64 * 2 ^ 12 + (b2 % 64 * 2 ^ 6 + b3 % 64) < 2 ^ 18 := by omega
  rw [hlead, hcont, hcont', hlast, Nat.or_assoc, Nat.or_assoc, join _ hlt, join _ hlt', join _ hlt'']
  omega

/-! ### Characters -/

theorem toUInt8_eq {n : Nat} {b : UInt8} (h : n = b.toNat) : n.toUInt8 = b := by
  rw [h]
  exact UInt8.ofNat_toNat

/-- The four forms of an encoding. -/
theorem utf8EncodeChar_cases (c : Char) :
    String.utf8EncodeChar c =
      if c.toNat ≤ 0x7F then [c.toNat.toUInt8]
      else if c.toNat ≤ 0x7FF then
        [(c.toNat / 64 % 32 + 0xC0).toUInt8, (c.toNat % 64 + 0x80).toUInt8]
      else if c.toNat ≤ 0xFFFF then
        [(c.toNat / 4096 % 16 + 0xE0).toUInt8, (c.toNat / 64 % 64 + 0x80).toUInt8,
          (c.toNat % 64 + 0x80).toUInt8]
      else
        [(c.toNat / 262144 % 8 + 0xF0).toUInt8, (c.toNat / 4096 % 64 + 0x80).toUInt8,
          (c.toNat / 64 % 64 + 0x80).toUInt8, (c.toNat % 64 + 0x80).toUInt8] := by
  have hval : c.val.toNat = c.toNat := rfl
  simp only [String.utf8EncodeChar, hval]

/-- Bytes that are the encoding of every character with this code point encode one. -/
theorem exists_encoding {cp : Nat} {bytes : Bytes} (hle : cp ≤ 0x10FFFF)
    (hsurrogate : ¬(0xD800 ≤ cp ∧ cp ≤ 0xDFFF))
    (hbytes : ∀ c : Char, c.toNat = cp → String.utf8EncodeChar c = bytes) :
    ∃ c : Char, cp = c.toNat ∧ String.utf8EncodeChar c = bytes := by
  obtain ⟨c, hc⟩ := @exists_char cp hle
    (by simp only [isHighSurrogate, Bool.and_eq_false_iff, decide_eq_false_iff_not]; omega)
    (by simp only [isLowSurrogate, Bool.and_eq_false_iff, decide_eq_false_iff_not]; omega)
  exact ⟨c, hc.symm, hbytes c hc⟩

theorem encoding_one {b0 : UInt8} (h : b0.toNat ≤ 127) :
    ∃ c : Char, b0.toNat = c.toNat ∧ String.utf8EncodeChar c = [b0] := by
  refine exists_encoding (by omega) (by omega) fun c hc => ?_
  rw [utf8EncodeChar_cases, hc, if_pos (by omega), toUInt8_eq rfl]

theorem encoding_two {b0 b1 : UInt8} (h0 : 194 ≤ b0.toNat ∧ b0.toNat ≤ 223)
    (h1 : 128 ≤ b1.toNat ∧ b1.toNat ≤ 191) :
    ∃ c : Char, b0.toNat % 32 * 64 + b1.toNat % 64 = c.toNat ∧
      String.utf8EncodeChar c = [b0, b1] := by
  refine exists_encoding (by omega) (by omega) fun c hc => ?_
  have hb0 : (c.toNat / 64 % 32 + 0xC0).toUInt8 = b0 := toUInt8_eq (by omega)
  have hb1 : (c.toNat % 64 + 0x80).toUInt8 = b1 := toUInt8_eq (by omega)
  rw [utf8EncodeChar_cases, if_neg (by omega), if_pos (by omega), hb0, hb1]

theorem encoding_three {b0 b1 b2 : UInt8} (h0 : 224 ≤ b0.toNat ∧ b0.toNat ≤ 239)
    (h1 : 128 ≤ b1.toNat ∧ b1.toNat ≤ 191) (h2 : 128 ≤ b2.toNat ∧ b2.toNat ≤ 191)
    (hlong : b0.toNat = 224 → 160 ≤ b1.toNat) (hsurrogate : b0.toNat = 237 → b1.toNat ≤ 159) :
    ∃ c : Char, b0.toNat % 16 * 4096 + b1.toNat % 64 * 64 + b2.toNat % 64 = c.toNat ∧
      String.utf8EncodeChar c = [b0, b1, b2] := by
  refine exists_encoding (by omega) (by omega) fun c hc => ?_
  have hb0 : (c.toNat / 4096 % 16 + 0xE0).toUInt8 = b0 := toUInt8_eq (by omega)
  have hb1 : (c.toNat / 64 % 64 + 0x80).toUInt8 = b1 := toUInt8_eq (by omega)
  have hb2 : (c.toNat % 64 + 0x80).toUInt8 = b2 := toUInt8_eq (by omega)
  rw [utf8EncodeChar_cases, if_neg (by omega), if_neg (by omega), if_pos (by omega), hb0, hb1, hb2]

theorem encoding_four {b0 b1 b2 b3 : UInt8} (h0 : 240 ≤ b0.toNat ∧ b0.toNat ≤ 244)
    (h1 : 128 ≤ b1.toNat ∧ b1.toNat ≤ 191) (h2 : 128 ≤ b2.toNat ∧ b2.toNat ≤ 191)
    (h3 : 128 ≤ b3.toNat ∧ b3.toNat ≤ 191) (hlong : b0.toNat = 240 → 144 ≤ b1.toNat)
    (hmax : b0.toNat = 244 → b1.toNat ≤ 143) :
    ∃ c : Char, b0.toNat % 8 * 262144 + b1.toNat % 64 * 4096 + b2.toNat % 64 * 64 +
        b3.toNat % 64 = c.toNat ∧ String.utf8EncodeChar c = [b0, b1, b2, b3] := by
  refine exists_encoding (by omega) (by omega) fun c hc => ?_
  have hb0 : (c.toNat / 262144 % 8 + 0xF0).toUInt8 = b0 := toUInt8_eq (by omega)
  have hb1 : (c.toNat / 4096 % 64 + 0x80).toUInt8 = b1 := toUInt8_eq (by omega)
  have hb2 : (c.toNat / 64 % 64 + 0x80).toUInt8 = b2 := toUInt8_eq (by omega)
  have hb3 : (c.toNat % 64 + 0x80).toUInt8 = b3 := toUInt8_eq (by omega)
  rw [utf8EncodeChar_cases, if_neg (by omega), if_neg (by omega), if_neg (by omega), hb0, hb1, hb2,
    hb3]

theorem within {b lo hi : UInt8} (h : lo ≤ b ∧ b ≤ hi) : lo.toNat ≤ b.toNat ∧ b.toNat ≤ hi.toNat :=
  ⟨UInt8.le_iff_toNat_le.mp h.1, UInt8.le_iff_toNat_le.mp h.2⟩

/-- The lower end of the first continuation byte is raised behind one lead byte. -/
theorem lowest {b lead raised c : UInt8} (h : ¬c < if b = lead then raised else 0x80)
    (hraised : 0x80 ≤ raised) :
    (b.toNat = lead.toNat → raised.toNat ≤ c.toNat) ∧ 0x80 ≤ c.toNat := by
  rw [UInt8.not_lt] at h
  constructor
  · intro hb
    rw [if_pos (UInt8.toNat_inj.mp hb)] at h
    exact UInt8.le_iff_toNat_le.mp h
  · split at h
    · exact UInt8.le_iff_toNat_le.mp (UInt8.le_trans hraised h)
    · exact UInt8.le_iff_toNat_le.mp h

/-- The upper end of the first continuation byte is lowered behind one lead byte. -/
theorem highest {b lead lowered c : UInt8} (h : ¬(if b = lead then lowered else 0xBF) < c)
    (hlowered : lowered ≤ 0xBF) :
    (b.toNat = lead.toNat → c.toNat ≤ lowered.toNat) ∧ c.toNat ≤ 0xBF := by
  rw [UInt8.not_lt] at h
  constructor
  · intro hb
    rw [if_pos (UInt8.toNat_inj.mp hb)] at h
    exact UInt8.le_iff_toNat_le.mp h
  · split at h
    · exact UInt8.le_iff_toNat_le.mp (UInt8.le_trans h hlowered)
    · exact UInt8.le_iff_toNat_le.mp h

/-- What is decoded is the character that the bytes start with. -/
theorem decodeUtf8_sound {p : Bytes} {cp length : Nat} (h : decodeUtf8 p = some (cp, length)) :
    ∃ c : Char, cp = c.toNat ∧ length = (String.utf8EncodeChar c).length ∧
      ∃ rest, p = String.utf8EncodeChar c ++ rest := by
  have hfound : ∀ (bytes rest : Bytes), p = bytes ++ rest → length = bytes.length →
      (∃ c : Char, cp = c.toNat ∧ String.utf8EncodeChar c = bytes) →
      ∃ c : Char, cp = c.toNat ∧ length = (String.utf8EncodeChar c).length ∧
        ∃ rest, p = String.utf8EncodeChar c ++ rest := by
    rintro bytes rest hp hlength ⟨c, hcp, rfl⟩
    exact ⟨c, hcp, hlength, rest, hp⟩
  cases p with
  | nil => cases h
  | cons b0 rest =>
      unfold decodeUtf8 at h
      simp only at h
      by_cases h1 : b0 ≤ 0x7F
      · rw [if_pos h1] at h
        obtain ⟨rfl, rfl⟩ := Prod.mk.inj (Option.some.inj h)
        exact hfound [b0] rest rfl rfl (encoding_one (UInt8.le_iff_toNat_le.mp h1))
      rw [if_neg h1] at h
      by_cases h2 : 0xC2 ≤ b0 ∧ b0 ≤ 0xDF
      · rw [if_pos h2] at h
        cases rest with
        | nil => cases h
        | cons b1 rest =>
            simp only at h
            split_ifs at h with hc1
            rw [join_two] at h
            obtain ⟨rfl, rfl⟩ := Prod.mk.inj (Option.some.inj h)
            exact hfound [b0, b1] rest rfl rfl (encoding_two (within h2) (isCont_iff.mp hc1))
      rw [if_neg h2] at h
      by_cases h3 : 0xE0 ≤ b0 ∧ b0 ≤ 0xEF
      · rw [if_pos h3] at h
        match rest with
        | [] => cases h
        | [_] => cases h
        | b1 :: b2 :: rest =>
            simp only at h
            by_cases hbad : b1 < (if b0 = 0xE0 then 0xA0 else 0x80) ∨
                (if b0 = 0xED then 0x9F else 0xBF) < b1 ∨ isCont b2 = false
            · rw [if_pos hbad] at h
              cases h
            rw [if_neg hbad, join_three] at h
            obtain ⟨rfl, rfl⟩ := Prod.mk.inj (Option.some.inj h)
            obtain ⟨hlo, hhi, hc2⟩ := (not_or.mp hbad).imp_right not_or.mp
            obtain ⟨hlong, hc1⟩ := lowest hlo (by decide)
            obtain ⟨hsurrogate, hc1'⟩ := highest hhi (by decide)
            exact hfound [b0, b1, b2] rest rfl rfl (encoding_three (within h3) ⟨hc1, hc1'⟩
              (isCont_iff.mp (Bool.not_eq_false _ ▸ hc2)) hlong hsurrogate)
      rw [if_neg h3] at h
      by_cases h4 : 0xF0 ≤ b0 ∧ b0 ≤ 0xF4
      swap
      · rw [if_neg h4] at h
        cases h
      rw [if_pos h4] at h
      match rest with
      | [] => cases h
      | [_] => cases h
      | [_, _] => cases h
      | b1 :: b2 :: b3 :: rest =>
          simp only at h
          by_cases hbad : b1 < (if b0 = 0xF0 then 0x90 else 0x80) ∨
              (if b0 = 0xF4 then 0x8F else 0xBF) < b1 ∨ isCont b2 = false ∨ isCont b3 = false
          · rw [if_pos hbad] at h
            cases h
          rw [if_neg hbad, join_four] at h
          obtain ⟨rfl, rfl⟩ := Prod.mk.inj (Option.some.inj h)
          obtain ⟨hlo, hrest⟩ := not_or.mp hbad
          obtain ⟨hhi, hconts⟩ := not_or.mp hrest
          obtain ⟨hc2, hc3⟩ := not_or.mp hconts
          obtain ⟨hlong, hc1⟩ := lowest hlo (by decide)
          obtain ⟨hmax, hc1'⟩ := highest hhi (by decide)
          exact hfound [b0, b1, b2, b3] rest rfl rfl (encoding_four (within h4) ⟨hc1, hc1'⟩
            (isCont_iff.mp (Bool.not_eq_false _ ▸ hc2)) (isCont_iff.mp (Bool.not_eq_false _ ▸ hc3))
            hlong hmax)

theorem toNat_toUInt8 {n : Nat} (h : n < 256) : n.toUInt8.toNat = n := UInt8.toNat_ofNat_of_lt h

theorem not_le_of_toNat {b c : UInt8} (h : c.toNat < b.toNat) : ¬b ≤ c := by
  rw [UInt8.not_le]
  exact UInt8.lt_iff_toNat_lt.mpr h

theorem not_range_of_toNat {b lo hi : UInt8} (h : hi.toNat < b.toNat) : ¬(lo ≤ b ∧ b ≤ hi) :=
  fun hrange => not_le_of_toNat h hrange.2

theorem range_of_toNat {b lo hi : UInt8} (h : lo.toNat ≤ b.toNat ∧ b.toNat ≤ hi.toNat) :
    lo ≤ b ∧ b ≤ hi := ⟨UInt8.le_iff_toNat_le.mpr h.1, UInt8.le_iff_toNat_le.mpr h.2⟩

theorem isCont_cont (n : Nat) : isCont (n % 64 + 0x80).toUInt8 = true := by
  rw [isCont_iff, toNat_toUInt8 (by omega)]
  omega

/-- The first continuation byte is in its range. -/
theorem not_lowest {b lead raised c : UInt8} (hc : 0x80 ≤ c.toNat)
    (h : b.toNat = lead.toNat → raised.toNat ≤ c.toNat) : ¬c < if b = lead then raised else 0x80 := by
  rw [UInt8.not_lt]
  split
  · rename_i hb
    exact UInt8.le_iff_toNat_le.mpr (h (congrArg UInt8.toNat hb))
  · exact UInt8.le_iff_toNat_le.mpr hc

theorem not_highest {b lead lowered c : UInt8} (hc : c.toNat ≤ 0xBF)
    (h : b.toNat = lead.toNat → c.toNat ≤ lowered.toNat) :
    ¬(if b = lead then lowered else 0xBF) < c := by
  rw [UInt8.not_lt]
  split
  · rename_i hb
    exact UInt8.le_iff_toNat_le.mpr (h (congrArg UInt8.toNat hb))
  · exact UInt8.le_iff_toNat_le.mpr hc

/-- The encoding of a character is decoded, whatever follows it. -/
theorem decodeUtf8_encode (c : Char) (rest : Bytes) :
    decodeUtf8 (String.utf8EncodeChar c ++ rest) =
      some (c.toNat, (String.utf8EncodeChar c).length) := by
  have hvalid : c.toNat < 0xD800 ∨ (0xDFFF < c.toNat ∧ c.toNat < 0x110000) := by
    have hvalid : c.toNat.isValidChar := c.valid
    rwa [Nat.isValidChar] at hvalid
  rw [utf8EncodeChar_cases]
  by_cases h1 : c.toNat ≤ 0x7F
  · have hb0 := @toNat_toUInt8 c.toNat (by omega)
    rw [if_pos h1]
    unfold decodeUtf8
    simp only [List.cons_append]
    rw [if_pos (UInt8.le_iff_toNat_le.mpr (by rw [hb0]; exact h1)), hb0]
    rfl
  rw [if_neg h1]
  by_cases h2 : c.toNat ≤ 0x7FF
  · have hb0 := @toNat_toUInt8 (c.toNat / 64 % 32 + 0xC0) (by omega)
    have hb1 := @toNat_toUInt8 (c.toNat % 64 + 0x80) (by omega)
    have hc1 := isCont_cont c.toNat
    rw [if_pos h2]
    generalize (c.toNat / 64 % 32 + 0xC0).toUInt8 = b0 at hb0 ⊢
    generalize (c.toNat % 64 + 0x80).toUInt8 = b1 at hb1 hc1 ⊢
    unfold decodeUtf8
    simp only [List.cons_append]
    have hlead : 0x7F < b0.toNat ∧ 0xC2 ≤ b0.toNat ∧ b0.toNat ≤ 0xDF := by omega
    rw [if_neg (@not_le_of_toNat b0 0x7F hlead.1), if_pos (@range_of_toNat b0 0xC2 0xDF hlead.2), if_pos hc1, join_two, hb0,
      hb1]
    congr 2
    omega
  rw [if_neg h2]
  by_cases h3 : c.toNat ≤ 0xFFFF
  · have hb0 := @toNat_toUInt8 (c.toNat / 4096 % 16 + 0xE0) (by omega)
    have hb1 := @toNat_toUInt8 (c.toNat / 64 % 64 + 0x80) (by omega)
    have hb2 := @toNat_toUInt8 (c.toNat % 64 + 0x80) (by omega)
    have hc2 := isCont_cont c.toNat
    rw [if_pos h3]
    generalize (c.toNat / 4096 % 16 + 0xE0).toUInt8 = b0 at hb0 ⊢
    generalize (c.toNat / 64 % 64 + 0x80).toUInt8 = b1 at hb1 ⊢
    generalize (c.toNat % 64 + 0x80).toUInt8 = b2 at hb2 hc2 ⊢
    unfold decodeUtf8
    simp only [List.cons_append]
    have hlead : 0x7F < b0.toNat ∧ 0xDF < b0.toNat ∧ 0xE0 ≤ b0.toNat ∧ b0.toNat ≤ 0xEF := by omega
    have hlo : ¬b1 < if b0 = 0xE0 then 0xA0 else 0x80 :=
      not_lowest (by omega) fun hb => by
        have hb : b0.toNat = 0xE0 := hb
        show 0xA0 ≤ _
        omega
    have hhi : ¬(if b0 = 0xED then 0x9F else 0xBF) < b1 :=
      not_highest (by omega) fun hb => by
        have hb : b0.toNat = 0xED := hb
        show _ ≤ 0x9F
        omega
    rw [if_neg (@not_le_of_toNat b0 0x7F hlead.1), if_neg (@not_range_of_toNat b0 0xC2 0xDF hlead.2.1),
      if_pos (@range_of_toNat b0 0xE0 0xEF hlead.2.2), if_neg (by simp [hlo, hhi, hc2]), join_three, hb0, hb1, hb2]
    congr 2
    omega
  rw [if_neg h3]
  have hb0 := @toNat_toUInt8 (c.toNat / 262144 % 8 + 0xF0) (by omega)
  have hb1 := @toNat_toUInt8 (c.toNat / 4096 % 64 + 0x80) (by omega)
  have hb2 := @toNat_toUInt8 (c.toNat / 64 % 64 + 0x80) (by omega)
  have hb3 := @toNat_toUInt8 (c.toNat % 64 + 0x80) (by omega)
  have hc2 := isCont_cont (c.toNat / 64)
  have hc3 := isCont_cont c.toNat
  generalize (c.toNat / 262144 % 8 + 0xF0).toUInt8 = b0 at hb0 ⊢
  generalize (c.toNat / 4096 % 64 + 0x80).toUInt8 = b1 at hb1 ⊢
  generalize (c.toNat / 64 % 64 + 0x80).toUInt8 = b2 at hb2 hc2 ⊢
  generalize (c.toNat % 64 + 0x80).toUInt8 = b3 at hb3 hc3 ⊢
  unfold decodeUtf8
  simp only [List.cons_append]
  have hlead : 0x7F < b0.toNat ∧ 0xDF < b0.toNat ∧ 0xEF < b0.toNat ∧ 0xF0 ≤ b0.toNat ∧
      b0.toNat ≤ 0xF4 := by omega
  have hlo : ¬b1 < if b0 = 0xF0 then 0x90 else 0x80 :=
    not_lowest (by omega) fun hb => by
      have hb : b0.toNat = 0xF0 := hb
      show 0x90 ≤ _
      omega
  have hhi : ¬(if b0 = 0xF4 then 0x8F else 0xBF) < b1 :=
    not_highest (by omega) fun hb => by
      have hb : b0.toNat = 0xF4 := hb
      show _ ≤ 0x8F
      omega
  rw [if_neg (@not_le_of_toNat b0 0x7F hlead.1), if_neg (@not_range_of_toNat b0 0xC2 0xDF hlead.2.1),
    if_neg (@not_range_of_toNat b0 0xE0 0xEF hlead.2.2.1), if_pos (@range_of_toNat b0 0xF0 0xF4 hlead.2.2.2),
    if_neg (by simp [hlo, hhi, hc2, hc3]), join_four, hb0, hb1, hb2, hb3]
  congr 2
  omega

end PjhJson.Unicode
