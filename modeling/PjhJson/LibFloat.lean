import PjhJson.LibGrid

/-! Binary floating-point magnitudes: an exponent field over `p` fraction bits, with subnormal numbers
below the first exponent. The magnitudes, as bit patterns, are in the order of the numbers they count in
units of the smallest; a natural number is rounded to the nearest, and a tie to the even one. -/

namespace FloatBits

section Units

variable (p : Nat)

/-- What a magnitude counts, in units of the smallest one. -/
def units (m : Nat) : Nat := if m / 2 ^ p = 0 then m else (2 ^ p + m % 2 ^ p) * 2 ^ (m / 2 ^ p - 1)

variable {p}

theorem units_subnormal {f : Nat} (hf : f < 2 ^ p) : units p f = f := by
  rw [units, if_pos (Nat.div_eq_of_lt hf)]

theorem units_normal {exponent f : Nat} (hf : f < 2 ^ p) :
    units p ((exponent + 1) * 2 ^ p + f) = (2 ^ p + f) * 2 ^ exponent := by
  have hdiv : ((exponent + 1) * 2 ^ p + f) / 2 ^ p = exponent + 1 := by
    rw [Nat.mul_comm, Nat.mul_add_div (Nat.two_pow_pos p), Nat.div_eq_of_lt hf, Nat.add_zero]
  have hmod : ((exponent + 1) * 2 ^ p + f) % 2 ^ p = f := by
    rw [Nat.mul_comm, Nat.mul_add_mod, Nat.mod_eq_of_lt hf]
  rw [units, hdiv, hmod, if_neg (Nat.succ_ne_zero exponent), Nat.add_sub_cancel]

theorem units_zero : units p 0 = 0 := units_subnormal (Nat.two_pow_pos p)

/-- A significand of `p + 1` bits, or the next one after the largest, with its exponent. -/
theorem units_scaled {exponent q : Nat} (hlow : 2 ^ p ≤ q) (hhigh : q ≤ 2 ^ (p + 1)) :
    units p (exponent * 2 ^ p + q) = q * 2 ^ exponent := by
  obtain ⟨f, rfl⟩ := Nat.exists_eq_add_of_le hlow
  rw [Nat.pow_succ] at hhigh
  obtain hlt | heq := Nat.lt_or_eq_of_le (show f ≤ 2 ^ p by omega)
  · rw [← Nat.add_assoc, ← Nat.succ_mul]
    exact units_normal hlt
  · have hnext : exponent * 2 ^ p + (2 ^ p + f) = (exponent + 1 + 1) * 2 ^ p + 0 := by
      rw [heq]
      ring
    rw [hnext, units_normal (Nat.two_pow_pos p), heq]
    ring

theorem strictMono_units : StrictMono (units p) := by
  apply strictMono_nat_of_lt_succ
  intro m
  obtain ⟨exponent, f, hf, rfl⟩ : ∃ exponent f, f < 2 ^ p ∧ exponent * 2 ^ p + f = m :=
    ⟨m / 2 ^ p, m % 2 ^ p, Nat.mod_lt m (Nat.two_pow_pos p), Nat.div_add_mod' m (2 ^ p)⟩
  rw [Nat.add_assoc]
  cases exponent with
  | zero =>
      rw [Nat.zero_mul, Nat.zero_add, Nat.zero_add, units_subnormal hf]
      obtain hlt | heq := Nat.lt_or_eq_of_le (Nat.succ_le_of_lt hf)
      · rw [units_subnormal hlt]
        exact Nat.lt_succ_self f
      · have hnext := @units_scaled p 0 (f + 1) heq.ge (heq.trans_le (Nat.pow_le_pow_right
          Nat.two_pos (Nat.le_succ p)))
        rw [Nat.zero_mul, Nat.zero_add, Nat.pow_zero, Nat.mul_one] at hnext
        rw [hnext]
        exact Nat.lt_succ_self f
  | succ exponent =>
      have hnext := @units_scaled p exponent (2 ^ p + (f + 1)) (Nat.le_add_right _ _)
        (by rw [Nat.pow_succ]; omega)
      rw [← Nat.add_assoc, ← Nat.succ_mul] at hnext
      rw [units_normal hf, hnext]
      exact Nat.mul_lt_mul_of_pos_right (by omega) (Nat.two_pow_pos exponent)

end Units

/-! ### Rounding -/

/-- A quotient with a remainder, of which a unit is `whole`, rounded to the nearest integer and a tie to
the even one. -/
def roundHalfEven (quotient remainder whole : Nat) : Nat :=
  if 2 * remainder < whole then quotient
  else if whole < 2 * remainder then quotient + 1
  else if quotient % 2 = 0 then quotient
  else quotient + 1

theorem roundHalfEven_near (quotient remainder whole : Nat) :
    roundHalfEven quotient remainder whole = quotient ∨
      roundHalfEven quotient remainder whole = quotient + 1 := by
  rw [roundHalfEven]
  split_ifs <;> simp

section Nearest

variable (p low : Nat)

/-- How many units make one: the field `low` is the exponent of the numbers from `1 / 2` on. -/
def scale : Nat := 2 ^ (p + low)

/-- The magnitude that a natural number is rounded to: `p + 1` bits of it are kept. -/
def nearest (n : Nat) : Nat :=
  if n = 0 then 0
  else if n.log2 ≤ p then (n.log2 + low) * 2 ^ p + n * 2 ^ (p - n.log2)
  else (n.log2 + low) * 2 ^ p +
    roundHalfEven (n / 2 ^ (n.log2 - p)) (n % 2 ^ (n.log2 - p)) (2 ^ (n.log2 - p))

variable {p low}

theorem scale_pos : 0 < scale p low := Nat.two_pow_pos _

/-- A number of at most `p + 1` bits is kept. -/
theorem units_nearest {n : Nat} (hn : n < 2 ^ (p + 1)) :
    units p (nearest p low n) = n * scale p low := by
  rw [nearest]
  by_cases hzero : n = 0
  · rw [if_pos hzero, hzero, Nat.zero_mul, units_zero]
  have hlow : 2 ^ n.log2 ≤ n := Nat.log2_self_le hzero
  have hhigh : n < 2 ^ (n.log2 + 1) := Nat.lt_log2_self
  have hsmall : n.log2 ≤ p := Nat.lt_succ_iff.mp ((Nat.log2_lt hzero).mpr hn)
  rw [if_neg hzero, if_pos hsmall]
  obtain ⟨shift, rfl⟩ := Nat.exists_eq_add_of_le hsmall
  rw [Nat.add_sub_cancel_left]
  have hq : 2 ^ (n.log2 + shift) ≤ n * 2 ^ shift := by
    rw [Nat.pow_add]
    exact Nat.mul_le_mul_right _ hlow
  have hq' : n * 2 ^ shift < 2 ^ (n.log2 + shift + 1) := by
    rw [Nat.add_right_comm, Nat.pow_add]
    exact Nat.mul_lt_mul_of_pos_right hhigh (Nat.two_pow_pos shift)
  rw [units_scaled hq hq'.le, scale, Nat.mul_assoc, ← Nat.pow_add]
  congr 2
  omega

/-- What a number is rounded to lies next to it. -/
theorem nearest_brackets (n : Nat) :
    ∃ below, Grid.Brackets (units p) (n * scale p low) below (nearest p low n) := by
  obtain hsmall | hlarge := Nat.lt_or_ge n (2 ^ (p + 1))
  · have hunits := @units_nearest p low n hsmall
    exact ⟨_, hunits.le, hunits.symm.trans_lt (strictMono_units (Nat.lt_succ_self _)), .inl rfl,
      fun _ => rfl⟩
  · -- the low bits decide between the quotient and the next one
    have hzero : n ≠ 0 := Nat.ne_of_gt ((Nat.two_pow_pos _).trans_le hlarge)
    have hlow : 2 ^ n.log2 ≤ n := Nat.log2_self_le hzero
    have hhigh : n < 2 ^ (n.log2 + 1) := Nat.lt_log2_self
    have hlog : ¬n.log2 ≤ p := Nat.not_le.mpr ((Nat.le_log2 hzero).mpr hlarge)
    rw [nearest, if_neg hzero, if_neg hlog]
    obtain ⟨shift, hshift⟩ := Nat.exists_eq_add_of_le (Nat.le_of_not_le hlog)
    rw [hshift] at hlow hhigh ⊢
    rw [Nat.add_sub_cancel_left]
    have hdiv := Nat.div_add_mod n (2 ^ shift)
    have hq : 2 ^ p ≤ n / 2 ^ shift := by
      rwa [Nat.le_div_iff_mul_le (Nat.two_pow_pos shift), ← Nat.pow_add]
    have hq' : n / 2 ^ shift < 2 ^ (p + 1) := by
      rwa [Nat.div_lt_iff_lt_mul (Nat.two_pow_pos shift), ← Nat.pow_add, Nat.add_right_comm]
    have hscale : 2 ^ (p + shift + low) = 2 ^ shift * scale p low := by
      rw [scale, ← Nat.pow_add]
      congr 1
      omega
    refine ⟨(p + shift + low) * 2 ^ p + n / 2 ^ shift, ?_, ?_, ?_, ?_⟩
    · rw [units_scaled hq hq'.le, hscale, ← Nat.mul_assoc]
      exact Nat.mul_le_mul_right _ (Nat.div_mul_le_self n _)
    · rw [Nat.add_assoc, units_scaled (Nat.le_succ_of_le hq) hq', hscale, ← Nat.mul_assoc]
      apply Nat.mul_lt_mul_of_pos_right _ scale_pos
      exact Nat.lt_mul_of_div_lt (Nat.lt_succ_self _) (Nat.two_pow_pos shift)
    · exact (roundHalfEven_near _ _ _).imp (fun h => by rw [h]) fun h =>
        (congrArg _ h).trans (Nat.add_assoc _ _ 1).symm
    · intro hexact
      rw [units_scaled hq hq'.le, hscale, ← Nat.mul_assoc] at hexact
      have hexact' := Nat.eq_of_mul_eq_mul_right scale_pos hexact
      have hzero' : n % 2 ^ shift = 0 := by
        rw [Nat.mul_comm] at hexact'
        omega
      rw [roundHalfEven, hzero', if_pos (by rw [Nat.mul_zero]; exact Nat.two_pow_pos shift)]

/-- So is the power of two after them. -/
theorem units_nearest_of_le {n : Nat} (hn : n ≤ 2 ^ (p + 1)) :
    units p (nearest p low n) = n * scale p low := by
  obtain hlt | rfl := hn.lt_or_eq
  · exact units_nearest hlt
  · have hgrid : units p ((p + low) * 2 ^ p + 2 ^ (p + 1)) = 2 ^ (p + 1) * scale p low :=
      units_scaled (Nat.pow_le_pow_right Nat.two_pos (Nat.le_succ p)) (Nat.le_refl _)
    obtain ⟨below, hbrackets⟩ := @nearest_brackets p low (2 ^ (p + 1))
    rw [← hgrid] at hbrackets
    rw [hbrackets.eq_of_grid strictMono_units, hgrid]

/-- The magnitude of a power of two bounds those of the numbers up to it. -/
theorem nearest_le_pow {n k : Nat} (hn : n ≤ 2 ^ k) : nearest p low n ≤ (k + low + 1) * 2 ^ p := by
  obtain ⟨below, hbrackets⟩ := @nearest_brackets p low n
  have hunits := @units_scaled p (k + low) (2 ^ p) (Nat.le_refl _)
    (Nat.pow_le_pow_right Nat.two_pos (Nat.le_succ p))
  apply hbrackets.le_of_le_grid strictMono_units
  rw [Nat.succ_mul, hunits]
  calc n * scale p low ≤ 2 ^ k * 2 ^ (p + low) := Nat.mul_le_mul_right _ hn
    _ = 2 ^ p * 2 ^ (k + low) := by rw [← Nat.pow_add, ← Nat.pow_add, Nat.add_left_comm]

end Nearest

end FloatBits
