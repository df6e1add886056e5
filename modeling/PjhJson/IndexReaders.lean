import PjhJson.Patch
import PjhJson.StreamPointer

/-! The readers of array indexes: the bracket loop of `parse_path`, the `to_index` of the walkers,
`strict_index` and `parse_decimal_index`. The first three share an overflow guard that does not look at
the next digit. -/

namespace PjhJson

open Grammar PathGrammar PathParser Scanner

/-- The index that a digit word denotes, where a `size_t` holds it. -/
def exactIndex (s : Bytes) : Option Nat := if number s ≤ kSizeMax then some (number s) else none

/-- RFC 6901 allows no leading zero. -/
def IsCanonical (s : Bytes) : Prop := ¬(1 < s.length ∧ s.head? = some (ascii '0'))

instance (s : Bytes) : Decidable (IsCanonical s) := inferInstanceAs (Decidable (¬_))

/-- On one digit word every reader is exact, none wraps around, and on a canonical one they agree. -/
structure ReadersExact (s : Bytes) : Prop where
  bracket : ∀ rest, readBracket (s ++ ascii ']' :: rest) =
    if number s ≤ kSizeMax then .ok (number s, rest) else .error .indexOverflow
  toIndex : toIndex s = exactIndex s
  strictIndex : strictIndex s = if IsCanonical s then exactIndex s else none
  parseDecimalIndex : parseDecimalIndex s = exactIndex s
  noWrap : ∀ c ∈ s, ∀ v, (v ≤ kIndexGuard → v * 10 + digitOf c ≤ kSizeMax) ∧
    (v ≤ (kSizeMax - digitOf c) / 10 → v * 10 + digitOf c ≤ kSizeMax)
  agree : IsCanonical s → PjhJson.toIndex s = PjhJson.strictIndex s ∧
    PjhJson.strictIndex s = PjhJson.parseDecimalIndex s ∧
    ∀ rest, readBracket (s ++ ascii ']' :: rest) =
      (PjhJson.toIndex s).elim (.error .indexOverflow) fun idx => .ok (idx, rest)

theorem isDigit_eq_false_iff {c : UInt8} : (!isDigit c) = true ↔ ¬isDigit c = true := by
  rw [Bool.not_eq_true', Bool.not_eq_true]

/-- The guard of `to_index` stops exactly the numbers above `kMaxIndex`. -/
theorem toIndexLoop_run {digits : Bytes} (hdigits : ∀ c ∈ digits, isDigit c = true) {v : Nat}
    (hv : v ≤ kMaxIndex) :
    toIndexLoop v digits = if ahead v digits ≤ kMaxIndex then some (ahead v digits) else none := by
  induction digits generalizing v with
  | nil => exact (if_pos hv).symm
  | cons c digits ih =>
      rw [List.forall_mem_cons] at hdigits
      have hdigit := isDigit_bounds hdigits.1
      have hnext : ahead v (c :: digits) = ahead (v * 10 + digitOf c) digits := rfl
      have hle := le_ahead (v * 10 + digitOf c) digits
      rw [toIndexLoop, if_neg (isDigit_eq_false_iff.not_left.mpr hdigits.1), hnext]
      unfold kMaxIndex kIndexGuard kSizeMax at *
      by_cases hguard : (2 ^ 64 - 1 - 9) / 10 < v
      · rw [if_pos hguard, if_neg (by omega)]
      · rw [if_neg hguard, Nat.mod_eq_of_lt (by omega)]
        exact ih hdigits.2 (by omega)

/-- The guard of `parse_decimal_index` stops exactly the numbers that a `size_t` does not hold. -/
theorem parseDecimalIndexLoop_run {digits : Bytes} (hdigits : ∀ c ∈ digits, isDigit c = true) {v : Nat}
    (hv : v ≤ kSizeMax) :
    parseDecimalIndexLoop v digits =
      if ahead v digits ≤ kSizeMax then some (ahead v digits) else none := by
  induction digits generalizing v with
  | nil => exact (if_pos hv).symm
  | cons c digits ih =>
      rw [List.forall_mem_cons] at hdigits
      have hdigit := isDigit_bounds hdigits.1
      have hnext : ahead v (c :: digits) = ahead (v * 10 + digitOf c) digits := rfl
      have hle := le_ahead (v * 10 + digitOf c) digits
      rw [parseDecimalIndexLoop, if_neg (isDigit_eq_false_iff.not_left.mpr hdigits.1), hnext]
      unfold kSizeMax at *
      by_cases hguard : (2 ^ 64 - 1 - digitOf c) / 10 < v
      · rw [if_pos hguard, if_neg (by omega)]
      · rw [if_neg hguard, Nat.mod_eq_of_lt (by omega)]
        exact ih hdigits.2 (by omega)

variable {s : Bytes}

theorem toIndex_digits (hne : s ≠ []) (hdigits : ∀ c ∈ s, isDigit c = true) :
    toIndex s = if number s ≤ kMaxIndex then some (number s) else none := by
  rw [toIndex, if_neg hne, toIndexLoop_run hdigits (Nat.zero_le _)]
  rfl

theorem strictIndex_digits (hne : s ≠ []) (hdigits : ∀ c ∈ s, isDigit c = true) :
    strictIndex s =
      if IsCanonical s then if number s ≤ kMaxIndex then some (number s) else none else none := by
  rw [strictIndex, if_neg hne, toIndexLoop_run hdigits (Nat.zero_le _)]
  by_cases hcanonical : IsCanonical s
  · rw [if_pos hcanonical, if_neg hcanonical]
    rfl
  · rw [if_neg hcanonical, if_pos (not_not.mp hcanonical)]

theorem parseDecimalIndex_digits (hne : s ≠ []) (hdigits : ∀ c ∈ s, isDigit c = true) :
    parseDecimalIndex s = exactIndex s := by
  rw [parseDecimalIndex, if_neg hne, parseDecimalIndexLoop_run hdigits (Nat.zero_le _)]
  rfl

theorem readBracket_digits (hne : s ≠ []) (hdigits : ∀ c ∈ s, isDigit c = true) (rest : Bytes) :
    readBracket (s ++ ascii ']' :: rest) =
      if number s ≤ kMaxIndex then .ok (number s, rest) else .error .indexOverflow := by
  by_cases hle : number s ≤ kMaxIndex
  · rw [readBracket_bracketText ⟨hne, hdigits, hle⟩, if_pos hle]
  · have hrun := readDigits_run hdigits (stops_cons.mpr (by decide) : Stops isDigit (ascii ']' :: rest))
      (Nat.zero_le kMaxIndex)
    rw [if_neg (show ¬ahead 0 s ≤ kMaxIndex from hle)] at hrun
    rw [readBracket, hrun, if_neg hle]
    rfl

/-- No guard lets a step through that leaves the range of `size_t`. -/
theorem guard_noWrap {c : UInt8} (hdigit : isDigit c = true) (v : Nat) :
    (v ≤ kIndexGuard → v * 10 + digitOf c ≤ kSizeMax) ∧
      (v ≤ (kSizeMax - digitOf c) / 10 → v * 10 + digitOf c ≤ kSizeMax) := by
  have hle := isDigit_bounds hdigit
  unfold kIndexGuard kSizeMax
  omega

/-- The readers fail on the last six numbers that a `size_t` holds, and are exact on all others. -/
theorem readersExact_iff (hne : s ≠ []) (hdigits : ∀ c ∈ s, isDigit c = true) :
    ReadersExact s ↔ ¬(kSizeMax - 6 < number s ∧ number s ≤ kSizeMax) := by
  constructor
  · intro hexact ⟨hlow, hhigh⟩
    have hread := hexact.toIndex
    rw [toIndex_digits hne hdigits, exactIndex, if_pos hhigh,
      if_neg (show ¬number s ≤ kMaxIndex from Nat.not_le.mpr hlow)] at hread
    cases hread
  · intro hwindow
    have hsame : number s ≤ kMaxIndex ↔ number s ≤ kSizeMax := by
      unfold kMaxIndex
      omega
    have hindex : toIndex s = exactIndex s := by
      rw [toIndex_digits hne hdigits, exactIndex]
      simp only [hsame]
    have hstrict : strictIndex s = if IsCanonical s then exactIndex s else none := by
      rw [strictIndex_digits hne hdigits, exactIndex]
      simp only [hsame]
    have hdecimal := parseDecimalIndex_digits hne hdigits
    have hbracket := fun rest => readBracket_digits hne hdigits rest
    simp only [hsame] at hbracket
    refine ⟨hbracket, hindex, hstrict, hdecimal, fun c hc v => guard_noWrap (hdigits c hc) v, ?_⟩
    intro hcanonical
    rw [if_pos hcanonical] at hstrict
    refine ⟨hindex.trans hstrict.symm, hstrict.trans hdecimal.symm, fun rest => ?_⟩
    rw [hbracket, hindex, exactIndex]
    split <;> rfl

theorem readersExact_canonical : ReadersExact (asciiBytes "42") :=
  (readersExact_iff (by decide +kernel) (by decide +kernel)).mpr (by decide +kernel)

/-- `SIZE_MAX` itself. -/
theorem not_readersExact_sizeMax :
    toIndex (asciiBytes "18446744073709551615") = none ∧
      parseDecimalIndex (asciiBytes "18446744073709551615") = some kSizeMax ∧
      ¬ReadersExact (asciiBytes "18446744073709551615") := by
  refine ⟨by decide +kernel, by decide +kernel, fun hexact => ?_⟩
  have hread := hexact.toIndex
  revert hread
  decide +kernel

end PjhJson
