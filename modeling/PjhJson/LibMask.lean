import Mathlib

/-! Bit masks of lanes, as vectorised code compares a batch: bit `i` of the mask tells whether lane
`i` was hit. A loop visits the hits in order: it takes the position of the lowest set bit, and clears
that bit. -/

namespace Mask

/-- The mask of the lanes that are hit. -/
def ofLanes : List Bool → Nat
  | [] => 0
  | hit :: lanes => Nat.bit hit (ofLanes lanes)

/-- The number of zero bits below the lowest set bit of a mask of 64 bits. -/
def countrZero (mask : Nat) : Nat := (List.range 64).findIdx mask.testBit

/-- `mask & (mask - 1)`. -/
def clearLowest (mask : Nat) : Nat := mask &&& (mask - 1)

variable {mask : Nat}

theorem testBit_ofLanes (lanes : List Bool) (i : Nat) :
    (ofLanes lanes).testBit i = lanes[i]?.getD false := by
  induction lanes generalizing i with
  | nil => simp [ofLanes]
  | cons hit lanes ih =>
      cases i with
      | zero => simp [ofLanes]
      | succ i => rw [ofLanes, Nat.testBit_bit_succ, ih, List.getElem?_cons_succ]

theorem ofLanes_lt (lanes : List Bool) : ofLanes lanes < 2 ^ lanes.length := by
  refine Nat.lt_pow_two_of_testBit _ fun i hi => ?_
  rw [testBit_ofLanes, List.getElem?_eq_none hi]
  rfl

/-- The position counted is a set bit, and the lowest. -/
theorem countrZero_spec (hne : mask ≠ 0) (hlt : mask < 2 ^ 64) :
    mask.testBit (countrZero mask) = true ∧ ∀ i < countrZero mask, mask.testBit i = false := by
  obtain ⟨i, hi⟩ := Nat.exists_testBit_of_ne_zero hne
  have hbound : i < 64 := by
    by_contra hge
    rw [Nat.testBit_lt_two_pow (hlt.trans_le (Nat.pow_le_pow_right (by decide) (by omega)))] at hi
    cases hi
  have hfound : (List.range 64).findIdx mask.testBit < (List.range 64).length :=
    List.findIdx_lt_length_of_exists ⟨i, List.mem_range.mpr hbound, hi⟩
  constructor
  · have hget := @List.findIdx_getElem _ mask.testBit (List.range 64) hfound
    rwa [List.getElem_range] at hget
  · intro j hj
    have hnot := List.not_of_lt_findIdx hj
    simpa using hnot

/-- The set bits above the lowest one make up the rest of the mask. -/
theorem split_lowest {low : Nat} (hlow : mask.testBit low = true)
    (hbelow : ∀ i < low, mask.testBit i = false) :
    mask = 2 ^ (low + 1) * (mask / 2 ^ (low + 1)) + 2 ^ low := by
  have hmod : mask % 2 ^ (low + 1) = 2 ^ low := by
    refine Nat.eq_of_testBit_eq fun i => ?_
    rw [Nat.testBit_mod_two_pow, Nat.testBit_two_pow]
    rcases Nat.lt_trichotomy i low with hlt | rfl | hgt
    · simp [hbelow i hlt, Nat.ne_of_gt hlt]
    · simp [hlow]
    · simp [Nat.ne_of_lt hgt]
      omega
  calc mask = 2 ^ (low + 1) * (mask / 2 ^ (low + 1)) + mask % 2 ^ (low + 1) :=
        (Nat.div_add_mod _ _).symm
    _ = _ := by rw [hmod]

/-- Clearing takes the lowest set bit out, and no other. -/
theorem testBit_clearLowest {low : Nat} (hlow : mask.testBit low = true)
    (hbelow : ∀ i < low, mask.testBit i = false) (i : Nat) :
    (clearLowest mask).testBit i = (mask.testBit i && decide (i ≠ low)) := by
  have hpos : 0 < 2 ^ low := Nat.two_pow_pos low
  have hpow : 2 ^ low < 2 ^ (low + 1) := Nat.pow_lt_pow_right (by decide) (Nat.lt_succ_self low)
  have hpred : mask - 1 = 2 ^ (low + 1) * (mask / 2 ^ (low + 1)) + (2 ^ low - 1) := by
    have hsplit := split_lowest hlow hbelow
    omega
  rw [clearLowest, Nat.testBit_and]
  by_cases hi : i < low + 1
  · rw [hpred, Nat.testBit_two_pow_mul_add _ (by omega), if_pos hi, Nat.testBit_two_pow_sub_one]
    rcases Nat.lt_succ_iff_lt_or_eq.mp hi with hlt | rfl
    · rw [hbelow i hlt, Bool.false_and, Bool.false_and]
    · simp
  · have hmask := split_lowest hlow hbelow
    have hsame : (mask - 1).testBit i = mask.testBit i := by
      rw [hpred]
      conv_rhs => rw [hmask]
      rw [Nat.testBit_two_pow_mul_add _ (by omega), Nat.testBit_two_pow_mul_add _ hpow, if_neg hi,
        if_neg hi]
    rw [hsame, Bool.and_self]
    simp [show i ≠ low by omega]

theorem clearLowest_lt (hlt : mask < 2 ^ 64) : clearLowest mask < 2 ^ 64 :=
  Nat.lt_of_le_of_lt Nat.and_le_left hlt

end Mask
