import Mathlib

/-! Positional notation: the number that a list of digits denotes in a base, the bounds that its
length gives, and the same number accumulated in 64 bits. -/

namespace Positional

variable {α : Type*}

/-- The number that `digits` denote in `base`, the leading digit first. -/
def value (base : Nat) (digit : α → Nat) (digits : List α) : Nat :=
  digits.foldl (fun v c => v * base + digit c) 0

/-- `value` in 64 bits, where it wraps. -/
def value64 (base : UInt64) (digit : α → UInt64) (digits : List α) : UInt64 :=
  digits.foldl (fun v c => v * base + digit c) 0

variable {base : Nat} {digit : α → Nat}

@[simp] theorem value_nil : value base digit [] = 0 := rfl

theorem foldl_value (digits : List α) (n : Nat) :
    digits.foldl (fun v c => v * base + digit c) n =
      n * base ^ digits.length + value base digit digits := by
  induction digits generalizing n with
  | nil => simp
  | cons c digits ih =>
      rw [value, List.foldl_cons, List.foldl_cons, ih, ih, List.length_cons]
      ring

theorem value_cons (c : α) (digits : List α) :
    value base digit (c :: digits) = digit c * base ^ digits.length + value base digit digits := by
  rw [value, List.foldl_cons, foldl_value, Nat.zero_mul, Nat.zero_add]

theorem value_lt {digits : List α} (h : ∀ c ∈ digits, digit c < base) :
    value base digit digits < base ^ digits.length := by
  induction digits with
  | nil => exact Nat.one_pos
  | cons c digits ih =>
      rw [List.forall_mem_cons] at h
      have hle : (digit c + 1) * base ^ digits.length ≤ base * base ^ digits.length :=
        Nat.mul_le_mul_right _ h.1
      have hrest := ih h.2
      rw [Nat.add_mul, Nat.one_mul] at hle
      rw [value_cons, List.length_cons, Nat.pow_succ']
      omega

/-- A leading digit other than zero. -/
theorem le_value {c : α} (digits : List α) (hc : 0 < digit c) :
    base ^ digits.length ≤ value base digit (c :: digits) := by
  have := Nat.mul_le_mul_right (base ^ digits.length) hc
  rw [value_cons]
  omega

/-- Leading zeros do not count. -/
theorem value_dropWhile {zero : α → Bool} (hzero : ∀ c, zero c = true → digit c = 0)
    (digits : List α) : value base digit (digits.dropWhile zero) = value base digit digits := by
  induction digits with
  | nil => rfl
  | cons c digits ih =>
      rw [List.dropWhile_cons]
      split
      · rename_i hc
        rw [ih, value_cons, hzero c hc, Nat.zero_mul, Nat.zero_add]
      · rfl

/-- A leading run of the digits denotes no more than all of them. -/
theorem value_take_le (hbase : 0 < base) (digits : List α) (k : Nat) :
    value base digit (digits.take k) ≤ value base digit digits := by
  have hsplit : value base digit digits =
      value base digit (digits.take k) * base ^ (digits.drop k).length +
        value base digit (digits.drop k) := by
    conv_lhs => rw [← List.take_append_drop k digits, value, List.foldl_append, foldl_value]
    rfl
  rw [hsplit]
  exact Nat.le_add_right_of_le (Nat.le_mul_of_pos_right _ (Nat.pow_pos hbase))

/-- The 64-bit accumulator holds the number that the digits denote modulo `2 ^ 64`. -/
theorem value64_toNat {base64 : UInt64} {digit64 : α → UInt64} (hbase : base64.toNat = base)
    {digits : List α} (h : ∀ c ∈ digits, (digit64 c).toNat = digit c) :
    (value64 base64 digit64 digits).toNat = value base digit digits % 2 ^ 64 := by
  have hfold : ∀ (v : UInt64) (n : Nat), v.toNat = n % 2 ^ 64 →
      (digits.foldl (fun v c => v * base64 + digit64 c) v).toNat =
        digits.foldl (fun v c => v * base + digit c) n % 2 ^ 64 := by
    induction digits with
    | nil => exact fun v n hv => hv
    | cons c digits ih =>
        intro v n hv
        rw [List.forall_mem_cons] at h
        refine ih h.2 _ _ ?_
        rw [UInt64.toNat_add, UInt64.toNat_mul, h.1, hbase, hv]
        rw [Nat.mod_mul_mod, Nat.mod_add_mod]
  exact hfold 0 0 rfl

/-- No step of the accumulation wraps when the whole number fits. -/
theorem value64_take {base64 : UInt64} {digit64 : α → UInt64} (hpos : 0 < base)
    (hbase : base64.toNat = base) {digits : List α}
    (h : ∀ c ∈ digits, (digit64 c).toNat = digit c) (hfits : value base digit digits < 2 ^ 64)
    (k : Nat) :
    (value64 base64 digit64 (digits.take k)).toNat = value base digit (digits.take k) := by
  rw [value64_toNat hbase fun c hc => h c (List.mem_of_mem_take hc)]
  exact Nat.mod_eq_of_lt (Nat.lt_of_le_of_lt (value_take_le hpos digits k) hfits)

end Positional
