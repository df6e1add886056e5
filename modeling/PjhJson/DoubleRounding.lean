import Mathlib.Data.Rat.Lemmas
import Mathlib.Algebra.Order.Field.Rat
import PjhJson.LibFloat
import PjhJson.NodeOrder

/-! The numbers that doubles stand for, and the conversion of an `int64_t` to a double, which rounds to
the nearest double and a tie to the even one. -/

namespace PjhJson

open FloatBits

namespace Double

/-- The units of a signed magnitude. -/
def signedUnits (o : ℤ) : ℤ := if 0 ≤ o then units 52 o.toNat else -units 52 (-o).toNat

/-- The number that a finite double stands for: its unit is the smallest positive double. -/
def value (d : Double) : ℚ := signedUnits d.order / (scale 52 1022 : ℕ)

/-- `<=` on doubles: a comparison with a NaN is false. -/
def le (a b : Double) : Bool := !a.isNaN && !b.isNaN && decide (a.order ≤ b.order)

/-- `static_cast<double>` of an `int64_t`. -/
def ofInt64 (x : Int64) : Double :=
  ⟨BitVec.ofNat 64 (nearest 52 1022 x.toInt.natAbs + if x.toInt < 0 then 2 ^ 63 else 0)⟩

theorem strictMono_signedUnits : StrictMono signedUnits := by
  intro a b hab
  rw [signedUnits, signedUnits]
  split
  · next ha =>
      rw [if_pos (by omega : 0 ≤ b)]
      have hlt : units 52 a.toNat < units 52 b.toNat := strictMono_units (by omega)
      exact_mod_cast hlt
  · next ha =>
      have hpos : units 52 0 < units 52 (-a).toNat := strictMono_units (by omega)
      rw [units_zero] at hpos
      split
      · omega
      · have hlt : units 52 (-b).toNat < units 52 (-a).toNat := strictMono_units (by omega)
        omega

theorem value_le_iff (a b : Double) : a.value ≤ b.value ↔ a.order ≤ b.order := by
  have hpos : (0 : ℚ) < (scale 52 1022 : ℕ) := Nat.cast_pos.mpr scale_pos
  rw [value, value, div_le_div_iff_of_pos_right hpos, Int.cast_le]
  exact strictMono_signedUnits.le_iff_le

/-- Finite doubles are compared as the numbers that they stand for. -/
theorem le_iff_value {a b : Double} (ha : a.isFinite = true) (hb : b.isFinite = true) :
    a.le b = true ↔ a.value ≤ b.value := by
  rw [value_le_iff, le, isNaN_of_isFinite ha, isNaN_of_isFinite hb]
  exact decide_eq_true_iff

/-! ### Conversion -/

/-- The exponent of a converted integer is not that of the infinities. -/
theorem nearest_le (x : Int64) : nearest 52 1022 x.toInt.natAbs ≤ 1086 * 2 ^ 52 := by
  have hlow := Int64.le_toInt x
  have hhigh := Int64.toInt_lt x
  exact @nearest_le_pow 52 1022 x.toInt.natAbs 63 (by omega)

/-- The signed magnitude of a converted integer. -/
theorem order_ofInt64 (x : Int64) : (ofInt64 x).order =
    if x.toInt < 0 then -(nearest 52 1022 x.toInt.natAbs : ℤ) else nearest 52 1022 x.toInt.natAbs := by
  have hle := nearest_le x
  rw [order, magnitude, ofInt64]
  dsimp only
  rw [BitVec.toNat_ofNat]
  split_ifs <;> omega

theorem isFinite_ofInt64 (x : Int64) : (ofInt64 x).isFinite = true := by
  have hle := nearest_le x
  rw [isFinite, exponentField, ofInt64]
  dsimp only
  rw [BitVec.toNat_ofNat, Nat.shiftRight_eq_div_pow, bne_iff_ne]
  split_ifs <;> omega

theorem signedUnits_natCast (m : Nat) : signedUnits m = units 52 m := by
  rw [signedUnits, if_pos (Int.natCast_nonneg m), Int.toNat_natCast]

theorem signedUnits_neg (m : Nat) : signedUnits (-m) = -units 52 m := by
  rw [signedUnits]
  split
  · have hzero : m = 0 := by omega
    rw [hzero, Int.natCast_zero, Int.neg_zero, Int.toNat_zero, units_zero]
    rfl
  · rw [Int.neg_neg, Int.toNat_natCast]

/-- An integer of at most 53 bits, and the next one, is converted to itself. -/
theorem value_ofInt64 {x : Int64} (h : x.toInt.natAbs ≤ 2 ^ 53) : (ofInt64 x).value = x.toInt := by
  have hpos : (scale 52 1022 : ℚ) ≠ 0 := Nat.cast_ne_zero.mpr scale_pos.ne'
  have hunits := @units_nearest_of_le 52 1022 x.toInt.natAbs h
  have hsigned : signedUnits (ofInt64 x).order = x.toInt * (scale 52 1022 : ℕ) := by
    rw [order_ofInt64]
    split
    · next hneg =>
        rw [signedUnits_neg, hunits, Nat.cast_mul, ← neg_mul, Int.ofNat_natAbs_of_nonpos hneg.le, neg_neg]
    · next hneg =>
        rw [signedUnits_natCast, hunits, Nat.cast_mul, Int.natAbs_of_nonneg (not_lt.mp hneg)]
  rw [value, hsigned, Int.cast_mul, Int.cast_natCast, mul_div_assoc, div_self hpos, mul_one]

/-- The conversion does not fall below a number that the integer reaches. -/
theorem le_order_ofInt64 {x : Int64} {o : ℤ} (h : signedUnits o ≤ x.toInt * (scale 52 1022 : ℕ)) :
    o ≤ (ofInt64 x).order := by
  obtain ⟨below, hbrackets⟩ := @nearest_brackets 52 1022 x.toInt.natAbs
  rw [order_ofInt64]
  rw [signedUnits] at h
  split
  · next hneg =>
      have hlt : x.toInt * (scale 52 1022 : ℕ) < 0 :=
        Int.mul_neg_of_neg_of_pos hneg (Int.natCast_pos.mpr scale_pos)
      split at h
      · omega
      · have hunits : x.toInt.natAbs * scale 52 1022 ≤ units 52 (-o).toNat := by
          zify
          rw [abs_of_neg hneg]
          linarith
        have hle := hbrackets.le_of_le_grid strictMono_units hunits
        omega
  · next hneg =>
      split at h
      · have hunits : units 52 o.toNat ≤ x.toInt.natAbs * scale 52 1022 := by
          zify
          rw [abs_of_nonneg (not_lt.mp hneg)]
          exact h
        have hle := hbrackets.le_of_grid_le strictMono_units hunits
        omega
      · omega

/-- Nor does it rise above a number that bounds the integer. -/
theorem order_ofInt64_le {x : Int64} {o : ℤ} (h : x.toInt * (scale 52 1022 : ℕ) ≤ signedUnits o) :
    (ofInt64 x).order ≤ o := by
  obtain ⟨below, hbrackets⟩ := @nearest_brackets 52 1022 x.toInt.natAbs
  rw [order_ofInt64]
  rw [signedUnits] at h
  split
  · next hneg =>
      split at h
      · omega
      · have hunits : units 52 (-o).toNat ≤ x.toInt.natAbs * scale 52 1022 := by
          zify
          rw [abs_of_neg hneg]
          linarith
        have hle := hbrackets.le_of_grid_le strictMono_units hunits
        omega
  · next hneg =>
      have hpos : 0 ≤ x.toInt * (scale 52 1022 : ℕ) :=
        Int.mul_nonneg (not_lt.mp hneg) (Int.natCast_nonneg _)
      split at h
      · have hunits : x.toInt.natAbs * scale 52 1022 ≤ units 52 o.toNat := by
          zify
          rw [abs_of_nonneg (not_lt.mp hneg)]
          exact h
        have hle := hbrackets.le_of_le_grid strictMono_units hunits
        omega
      · next ho =>
          have hunits : units 52 0 < units 52 (-o).toNat := strictMono_units (by omega)
          rw [units_zero] at hunits
          omega

theorem signedUnits_le_iff {d : Double} {x : Int64} :
    signedUnits d.order ≤ x.toInt * (scale 52 1022 : ℕ) ↔ d.value ≤ x.toInt := by
  have hpos : (0 : ℚ) < (scale 52 1022 : ℕ) := Nat.cast_pos.mpr scale_pos
  rw [value, div_le_iff₀ hpos]
  exact_mod_cast Iff.rfl

theorem le_signedUnits_iff {d : Double} {x : Int64} :
    x.toInt * (scale 52 1022 : ℕ) ≤ signedUnits d.order ↔ (x.toInt : ℚ) ≤ d.value := by
  have hpos : (0 : ℚ) < (scale 52 1022 : ℕ) := Nat.cast_pos.mpr scale_pos
  rw [value, le_div_iff₀ hpos]
  exact_mod_cast Iff.rfl

/-- A comparison of a converted integer with a double is the comparison of the integer with the number of
the double, but where the conversion meets that number. -/
theorem value_le_ofInt64_iff (d : Double) (x : Int64) :
    d.value ≤ (ofInt64 x).value ↔ d.value ≤ x.toInt ∨ (ofInt64 x).value = d.value := by
  constructor
  · intro h
    by_cases hle : d.value ≤ x.toInt
    · exact .inl hle
    · have hlt := le_signedUnits_iff.mpr (not_le.mp hle).le
      exact .inr (le_antisymm ((value_le_iff _ _).mpr (order_ofInt64_le hlt)) h)
  · rintro (h | h)
    · exact (value_le_iff _ _).mpr (le_order_ofInt64 (signedUnits_le_iff.mpr h))
    · exact h.ge

theorem ofInt64_le_value_iff (d : Double) (x : Int64) :
    (ofInt64 x).value ≤ d.value ↔ (x.toInt : ℚ) ≤ d.value ∨ (ofInt64 x).value = d.value := by
  constructor
  · intro h
    by_cases hle : (x.toInt : ℚ) ≤ d.value
    · exact .inl hle
    · have hlt := signedUnits_le_iff.mpr (not_le.mp hle).le
      exact .inr (le_antisymm h ((value_le_iff _ _).mpr (le_order_ofInt64 hlt)))
  · rintro (h | h)
    · exact (value_le_iff _ _).mpr (order_ofInt64_le (le_signedUnits_iff.mpr h))
    · exact h.le

end Double

end PjhJson
