import PjhJson.NumberClass
import PjhJson.StringGrammar

/-! The hexadecimal branch of `parse_number_json5`. The significant digits are counted in a `size_t`,
so a token of any length and any number of leading zeros gets the value that its digits denote. -/

namespace PjhJson

open Grammar Scanner

namespace Json5

/-- `HexIntegerLiteral` with an optional sign. -/
structure HexParts where
  sign : Bytes
  x : UInt8
  digits : Bytes
  isSign : Rfc.ExponentSign sign
  x_or : x = ascii 'x' ∨ x = ascii 'X'
  digits_ne : digits ≠ []
  isHex : ∀ c ∈ digits, ∃ v, Rfc.HexDigit c v

/-- The number that hexadecimal digits denote. -/
def hexadecimal (digits : Bytes) : Nat :=
  Positional.value 16 (fun c => (hexValue c).getD 0) digits

/-- The accumulator `uval` of the code over a run of digits. -/
def hexU64 (digits : Bytes) : UInt64 :=
  Positional.value64 16 (fun c => ((hexValue c).getD 0).toUInt64) digits

namespace HexParts

variable (parts : HexParts)

def text : Bytes := parts.sign ++ ascii '0' :: parts.x :: parts.digits

def negative : Bool := startsWith '-' parts.sign

/-- The number that the token denotes. -/
def value : Int :=
  if parts.negative then -(hexadecimal parts.digits : Int) else hexadecimal parts.digits

def IsInt64 : Prop := -2 ^ 63 ≤ parts.value ∧ parts.value < 2 ^ 63

/-- The digits behind the leading zeros. -/
def significant : Bytes := parts.digits.dropWhile (· == ascii '0')

/-- The right outcome for a token with `rest` behind it: an `int64_t` is that integer, any other token
is the double that `std::from_chars` makes of the significant digits, with the sign, or the range
error at the start of the token. Whatever is accumulated, cast or negated does not overflow. -/
structure Classified (platform : Platform) (rest : Bytes)
    (result : Except (ErrorCode × Bytes) (PjhJson.Number × Bytes)) : Prop where
  integer : parts.IsInt64 → result = .ok (.integer (Int64.ofInt parts.value), rest)
  other : ¬parts.IsInt64 → result =
    (rangedDouble platform.fromCharsHex parts.significant (parts.text ++ rest)).map fun d =>
      (.double (if parts.negative then d.neg else d), rest)
  exact : parts.significant.length ≤ 16 → ∀ k,
    (hexU64 (parts.digits.take k)).toNat = hexadecimal (parts.digits.take k)
  casts : parts.IsInt64 → CastFits parts.negative (hexU64 parts.digits)

/-! ### The digits -/

theorem hexDigit_bounds {c : UInt8} {v : Nat} (h : Rfc.HexDigit c v) :
    v < 16 ∧ (c ≠ ascii '0' → 0 < v) := by
  cases h with
  | digit hlow hhigh =>
      have hle := UInt8.le_iff_toNat_le.mp hhigh
      refine ⟨by simp at hle; omega, fun hne => ?_⟩
      have hlow' := UInt8.le_iff_toNat_le.mp hlow
      have hne' : c.toNat ≠ 48 := fun h => hne (UInt8.toNat_inj.mp h)
      simp at hlow'
      omega
  | upper hlow hhigh =>
      have hle := UInt8.le_iff_toNat_le.mp hhigh
      simp at hle
      omega
  | lower hlow hhigh =>
      have hle := UInt8.le_iff_toNat_le.mp hhigh
      simp at hle
      omega

theorem digit_lt : ∀ c ∈ parts.digits, (hexValue c).getD 0 < 16 := by
  intro c hc
  obtain ⟨v, hv⟩ := parts.isHex c hc
  rw [hexValue_iff.mpr hv]
  exact (hexDigit_bounds hv).1

theorem hexadecimal_significant : hexadecimal parts.significant = hexadecimal parts.digits := by
  refine Positional.value_dropWhile (fun c hc => ?_) _
  rw [beq_iff_eq.mp hc]
  rfl

theorem mem_significant {c : UInt8} (h : c ∈ parts.significant) : c ∈ parts.digits :=
  (List.dropWhile_suffix _).subset h

theorem hexadecimal_lt : hexadecimal parts.digits < 16 ^ parts.significant.length := by
  rw [← hexadecimal_significant]
  exact Positional.value_lt fun c hc => parts.digit_lt c (parts.mem_significant hc)

/-- Seventeen significant digits are more than 64 bits hold. -/
theorem le_hexadecimal (h : 16 < parts.significant.length) : 2 ^ 64 ≤ hexadecimal parts.digits := by
  obtain ⟨c, digits, hcons⟩ :=
    List.exists_cons_of_length_pos (show 0 < parts.significant.length by omega)
  have hmem : c ∈ parts.digits := parts.mem_significant (hcons ▸ List.mem_cons_self)
  have hne : c ≠ ascii '0' := by
    intro hc
    have hstop := stops_dropWhile (· == ascii '0') parts.digits
    rw [← significant, hcons, stops_cons, hc] at hstop
    cases hstop
  have hpos : 0 < (hexValue c).getD 0 := by
    obtain ⟨v, hv⟩ := parts.isHex c hmem
    rw [hexValue_iff.mpr hv]
    exact (hexDigit_bounds hv).2 hne
  have hle : 16 ^ digits.length ≤ hexadecimal (c :: digits) := Positional.le_value digits hpos
  rw [hcons, List.length_cons] at h
  have hpow : 16 ^ 16 ≤ 16 ^ digits.length := Nat.pow_le_pow_right (by decide) (by omega)
  rw [← hexadecimal_significant, hcons]
  omega

/-! ### The branch -/

theorem hexU64_take (h : parts.significant.length ≤ 16) (k : Nat) :
    (hexU64 (parts.digits.take k)).toNat = hexadecimal (parts.digits.take k) := by
  have hpow : 16 ^ parts.significant.length ≤ 16 ^ 16 := Nat.pow_le_pow_right (by decide) h
  have hfits : hexadecimal parts.digits < 2 ^ 64 :=
    Nat.lt_of_lt_of_le parts.hexadecimal_lt (hpow.trans (by decide))
  refine Positional.value64_take (show 0 < 16 by decide) rfl (fun c hc => ?_) hfits k
  have hlt := parts.digit_lt c hc
  rw [Nat.toUInt64_eq, UInt64.toNat_ofNat', Nat.mod_eq_of_lt (by omega)]

theorem hexU64_toNat (h : parts.significant.length ≤ 16) :
    (hexU64 parts.digits).toNat = hexadecimal parts.digits := by
  have htake := parts.hexU64_take h parts.digits.length
  rwa [List.take_length] at htake

theorem isInt64_iff : parts.IsInt64 ↔
    hexadecimal parts.digits ≤ if parts.negative then 2 ^ 63 else 2 ^ 63 - 1 :=
  inRange_iff _ _

theorem hexadecimal_le (h : parts.IsInt64) : hexadecimal parts.digits ≤ 2 ^ 63 := by
  have hmagnitude := parts.isInt64_iff.mp h
  split at hmagnitude <;> omega

theorem significant_length (h : parts.IsInt64) : parts.significant.length ≤ 16 := by
  by_contra hlong
  have hle := parts.hexadecimal_le h
  have hlarge := parts.le_hexadecimal (by omega)
  omega

theorem casts (h : parts.IsInt64) : CastFits parts.negative (hexU64 parts.digits) := by
  refine castFits_of_le ?_
  rw [parts.hexU64_toNat (parts.significant_length h)]
  exact parts.isInt64_iff.mp h

/-- What `scan_number_json5` reports of a token. -/
def scan (rest : Bytes) : NumberScanJson5 where
  intStart := parts.digits ++ rest
  intDigits := parts.digits.length
  negative := parts.negative
  explicitPlus := startsWith '+' parts.sign
  isHex := true

end HexParts

end Json5

end PjhJson
