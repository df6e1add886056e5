import PjhJson.NumberValue
import PjhJson.Schema

/-! What `minimum` and `maximum` accept, in terms of the numbers that the instance and the bound stand for. -/

namespace PjhJson

open Grammar Trail

namespace Schema

/-- The number that an integer or a finite double stands for. -/
def rational : Int64 ⊕ Double → ℚ
  | .inl x => x.toInt
  | .inr d => d.value

def Finite : Int64 ⊕ Double → Prop
  | .inl _ => True
  | .inr d => d.isFinite = true

/-- One of the two is an integer, and the other one is the double that it is rounded to. -/
def Rounds : Int64 ⊕ Double → Int64 ⊕ Double → Prop
  | .inl x, .inr d => (Double.ofInt64 x).value = d.value
  | .inr d, .inl x => (Double.ofInt64 x).value = d.value
  | .inl _, .inl _ => False
  | .inr _, .inr _ => False

/-- An integer that a double can stand for whatever its low bits are. -/
def Small : Int64 ⊕ Double → Prop
  | .inl x => x.toInt.natAbs ≤ 2 ^ 53
  | .inr _ => True

/-- A numeric argument of a schema. -/
def numberOf : ConstJson → Option (Int64 ⊕ Double)
  | .int v => some (.inl v)
  | .double v => some (.inr v)
  | _ => none

/-- A schema with one keyword. -/
def single (keyword : Keyword) (schemaValue : ConstJson) : ConstJson := .object [(keyword.text, schemaValue)]

variable {platform : Platform} {schemaValue : ConstJson} {value : Node} {x b : Int64 ⊕ Double}

theorem numericBoundOf_eq (h : numberOf schemaValue = some b) :
    ∃ bound, numericBoundOf schemaValue = some bound ∧
      (b = .inl bound.i ∧ bound.isInteger = true ∨ b = .inr bound.d ∧ bound.isInteger = false) := by
  cases schemaValue with
  | int v =>
      cases h
      exact ⟨_, rfl, .inl ⟨rfl, rfl⟩⟩
  | double v =>
      cases h
      exact ⟨_, rfl, .inr ⟨rfl, rfl⟩⟩
  | _ => cases h

theorem intCast_le {x y : Int64} : (x.toInt : ℚ) ≤ y.toInt ↔ x ≤ y := by
  rw [Int.cast_le, Int64.le_iff_toInt_le]

/-- The comparison that both keywords make, each from its side. -/
def numberLe : Int64 ⊕ Double → Int64 ⊕ Double → Bool
  | .inl x, .inl y => x ≤ y
  | .inl x, .inr e => (Double.ofInt64 x).le e
  | .inr d, .inl y => d.le (Double.ofInt64 y)
  | .inr d, .inr e => d.le e

theorem numberLe_iff (hx : Finite x) (hb : Finite b) :
    numberLe x b = true ↔ rational x ≤ rational b ∨ Rounds x b := by
  cases x with
  | inl x =>
      cases b with
      | inl y => rw [numberLe, decide_eq_true_iff, rational, rational, intCast_le, Rounds, or_false]
      | inr e =>
          rw [numberLe, Double.le_iff_value (Double.isFinite_ofInt64 x) hb]
          exact Double.ofInt64_le_value_iff e x
  | inr d =>
      cases b with
      | inl y =>
          rw [numberLe, Double.le_iff_value hx (Double.isFinite_ofInt64 y)]
          exact Double.value_le_ofInt64_iff d y
      | inr e =>
          rw [numberLe, Double.le_iff_value hx hb, Rounds, or_false]
          exact Iff.rfl

theorem rounds_comm : Rounds x b ↔ Rounds b x := by
  cases x <;> cases b <;> exact Iff.rfl

theorem aboveOrEqual_eq {bound : NumericBound}
    (hbound : b = .inl bound.i ∧ bound.isInteger = true ∨ b = .inr bound.d ∧ bound.isInteger = false) :
    aboveOrEqual x bound = numberLe b x := by
  obtain ⟨rfl, hkind⟩ | ⟨rfl, hkind⟩ := hbound
  · cases x <;> rw [aboveOrEqual, hkind, if_pos rfl] <;> rfl
  · cases x <;> rw [aboveOrEqual, hkind, if_neg Bool.false_ne_true] <;> rfl

theorem belowOrEqual_eq {bound : NumericBound}
    (hbound : b = .inl bound.i ∧ bound.isInteger = true ∨ b = .inr bound.d ∧ bound.isInteger = false) :
    belowOrEqual x bound = numberLe x b := by
  obtain ⟨rfl, hkind⟩ | ⟨rfl, hkind⟩ := hbound
  · cases x <;> rw [belowOrEqual, hkind, if_pos rfl] <;> rfl
  · cases x <;> rw [belowOrEqual, hkind, if_neg Bool.false_ne_true] <;> rfl

/-- A rounding that keeps a small integer. -/
theorem Rounds.rational_eq (h : Rounds x b) (hx : Small x) (hb : Small b) : rational x = rational b := by
  cases x with
  | inl x =>
      cases b with
      | inl y => exact h.elim
      | inr d => exact (Double.value_ofInt64 hx).symm.trans h
  | inr d =>
      cases b with
      | inl y => exact h.symm.trans (Double.value_ofInt64 hb)
      | inr d' => exact h.elim

theorem andThen_ok (check : SchemaCheck) : Check.andThen .ok check = check := rfl

theorem andThen_ok_right (check : SchemaCheck) : Check.andThen check .ok = check := by
  funext pb
  rw [Check.andThen]
  obtain hnone | ⟨⟨verdict, pb'⟩, hsome⟩ := (check pb).eq_none_or_eq_some
  · rw [hnone]
    rfl
  · rw [hsome]
    cases verdict <;> rfl

/-- A schema that bounds numbers asks nothing else. -/
theorem validateResult_single {keyword : Keyword} {code : SchemaErrorKind} {text : String}
    {fits : Int64 ⊕ Double → NumericBound → Bool}
    (hkeyword : keyword ≠ .type ∧ keyword ≠ .additionalProperties)
    (happly : ∀ validate, applyKeyword platform validate keyword.text schemaValue value =
      checkNumeric platform keyword code text fits schemaValue value)
    {bound : NumericBound} (hbound : numericBoundOf schemaValue = some bound)
    (hvalue : value.asNumber = some x) :
    validateResult platform (single keyword schemaValue) value = some (.ok ()) ↔ fits x bound = true := by
  have htype : keyword.text ≠ Keyword.type.text := fun h => hkeyword.1 (Keyword.text_injective h)
  have hextra : keyword.text ≠ Keyword.additionalProperties.text := fun h =>
    hkeyword.2 (Keyword.text_injective h)
  have hcheck : validateNode platform (single keyword schemaValue) value =
      checkNumeric platform keyword code text fits schemaValue value := by
    rw [validateNode, single, validateWithin]
    simp only [Check.forEach, andThen_ok_right]
    rw [typeEntry, if_pos htype, andThen_ok, otherEntry, if_neg htype, if_neg hextra, happly]
  rw [validateResult, hcheck, checkNumeric, hbound, hvalue]
  dsimp only
  by_cases hfits : fits x bound = true
  · rw [if_pos hfits]
    exact iff_of_true rfl hfits
  · rw [if_neg hfits]
    exact iff_of_false (fun h => by cases h) hfits

/-- Two integers are compared as they are, and so are two doubles. An integer is compared with a double as the
double that it is rounded to, so that the bound also accepts a number on its other side if the one is
rounded to the other; a small integer is not rounded. -/
theorem bounds_iff (hvalue : value.asNumber = some x) (hbound : numberOf schemaValue = some b)
    (hx : Finite x) (hb : Finite b) :
    (validateResult platform (single .minimum schemaValue) value = some (.ok ()) ↔
        rational b ≤ rational x ∨ Rounds x b) ∧
      (validateResult platform (single .maximum schemaValue) value = some (.ok ()) ↔
        rational x ≤ rational b ∨ Rounds x b) ∧
      (Small x → Small b → Rounds x b → rational x = rational b) := by
  obtain ⟨bound, hnumeric, hkind⟩ := numericBoundOf_eq hbound
  have hminimum : ∀ validate, applyKeyword platform validate Keyword.minimum.text schemaValue value =
      checkMinimum platform schemaValue value := fun validate => by
    rw [applyKeyword, Keyword.ofText?_text]
  have hmaximum : ∀ validate, applyKeyword platform validate Keyword.maximum.text schemaValue value =
      checkMaximum platform schemaValue value := fun validate => by
    rw [applyKeyword, Keyword.ofText?_text]
  refine ⟨?_, ?_, fun hx hb h => h.rational_eq hx hb⟩
  · rw [validateResult_single (by decide) hminimum hnumeric hvalue]
    rw [aboveOrEqual_eq hkind, numberLe_iff hb hx, rounds_comm]
  · rw [validateResult_single (by decide) hmaximum hnumeric hvalue]
    rw [belowOrEqual_eq hkind, numberLe_iff hx hb]

/-- `2.5`. -/
def twoAndHalf : Double := ⟨0x4004000000000000⟩

/-- The bound `2.5` and the integer `3`. -/
theorem bounds_iff_mixed :
    (validateResult halfPlatform (single .minimum (.double twoAndHalf)) (.integer 3) = some (.ok ()) ↔
        rational (.inr twoAndHalf) ≤ rational (.inl 3) ∨ Rounds (.inl 3) (.inr twoAndHalf)) ∧
      (validateResult halfPlatform (single .maximum (.double twoAndHalf)) (.integer 3) = some (.ok ()) ↔
        rational (.inl 3) ≤ rational (.inr twoAndHalf) ∨ Rounds (.inl 3) (.inr twoAndHalf)) ∧
      (Small (.inl 3) → Small (.inr twoAndHalf) → Rounds (.inl 3) (.inr twoAndHalf) →
        rational (.inl 3) = rational (.inr twoAndHalf)) :=
  bounds_iff rfl rfl trivial (show Double.isFinite _ = true by decide)

/-- `2^53 + 1` is above the bound `2^53`, which accepts it when it is a double. -/
theorem maximum_accepts_above :
    validateResult halfPlatform (single .maximum (.double ⟨0x4340000000000000⟩))
        (.integer 9007199254740993) = some (.ok ()) ∧
      rational (.inr ⟨0x4340000000000000⟩) < rational (.inl 9007199254740993) := by
  have hdouble : (⟨0x4340000000000000⟩ : Double) = Double.ofInt64 9007199254740992 := by decide +kernel
  have hvalue : (Double.ofInt64 9007199254740992).value = (9007199254740992 : Int64).toInt :=
    Double.value_ofInt64 (by decide +kernel)
  constructor
  · decide +kernel
  · rw [hdouble]
    change (Double.ofInt64 9007199254740992).value < (9007199254740993 : Int64).toInt
    rw [hvalue, Int.cast_lt]
    decide +kernel

end Schema

end PjhJson
