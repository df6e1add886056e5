import PjhJson.LibPositional
import PjhJson.NumberToken

/-! The integer that the parser makes of a token is the one its digits denote. An integer part has
fewer than 2^32 digits here: the code counts them in a `uint32_t`. -/

namespace PjhJson

open Grammar Scanner

namespace Rfc

/-- The number that decimal digits denote. -/
def decimal (digits : Bytes) : Nat := digits.foldl (fun v c => v * 10 + (c.toNat - 0x30)) 0

/-- The number that an integer part denotes behind its sign. -/
def NumberParts.integerValue (parts : NumberParts) : Int :=
  if parts.minus = [] then decimal parts.integer else -decimal parts.integer

/-- A token of an integer that `int64_t` can represent. -/
def NumberParts.IsInt64 (parts : NumberParts) : Prop :=
  parts.fraction = [] ∧ parts.exponent = [] ∧ -2 ^ 63 ≤ parts.integerValue ∧
    parts.integerValue < 2 ^ 63

/-- The value of a number token: an integer of `int64_t` is that integer, any other token is the
finite double that `std::from_chars` converts all of it to. -/
inductive NumberValue (platform : Platform) : Bytes → PjhJson.Number → Prop where
  | integer (parts : NumberParts) : parts.IsInt64 →
      NumberValue platform parts.text (.integer (Int64.ofInt parts.integerValue))
  | double (parts : NumberParts) (d : Double) : ¬parts.IsInt64 →
      platform.fromChars parts.text = ⟨parts.text.length, .none, d⟩ → d.isFinite = true →
      NumberValue platform parts.text (.double d)

/-! ### Decimal digits -/

theorem Digit.toNat {c : UInt8} (h : Digit c) : 48 ≤ c.toNat ∧ c.toNat ≤ 57 := by
  have hlow := UInt8.le_iff_toNat_le.mp h.1
  have hhigh := UInt8.le_iff_toNat_le.mp h.2
  exact ⟨hlow, hhigh⟩

theorem decimal_cons (c : UInt8) (digits : Bytes) :
    decimal (c :: digits) = (c.toNat - 0x30) * 10 ^ digits.length + decimal digits :=
  Positional.value_cons c digits

theorem decimal_lt {digits : Bytes} (h : ∀ c ∈ digits, Digit c) :
    decimal digits < 10 ^ digits.length := by
  refine Positional.value_lt fun c hc => ?_
  have := (h c hc).toNat
  omega

/-- Digits without a leading zero. -/
theorem le_decimal {c : UInt8} (digits : Bytes) (hc : Digit c) (hne : c ≠ ascii '0') :
    10 ^ digits.length ≤ decimal (c :: digits) := by
  refine Positional.le_value digits ?_
  have hle := hc.toNat
  have hne' : c.toNat ≠ 48 := fun h => hne (UInt8.toNat_inj.mp h)
  omega

end Rfc

/-! ### The conversion of the code -/

theorem toNat_sub_zero {c : UInt8} (h : Rfc.Digit c) :
    (c - ascii '0').toUInt64.toNat = c.toNat - 0x30 := by
  rw [UInt8.toNat_toUInt64]
  exact UInt8.toNat_sub_of_le _ _ h.1

theorem parseU64_toNat {digits : Bytes} (h : ∀ c ∈ digits, Rfc.Digit c) :
    (parseU64 digits).toNat = Rfc.decimal digits % 2 ^ 64 :=
  Positional.value64_toNat rfl fun c hc => toNat_sub_zero (h c hc)

theorem parseU64_eq {digits : Bytes} (h : ∀ c ∈ digits, Rfc.Digit c) :
    parseU64 digits = UInt64.ofNat (Rfc.decimal digits) := by
  rw [← UInt64.toNat_inj, parseU64_toNat h, UInt64.toNat_ofNat']

/-- Digit strings of the same length compare as the numbers they denote. -/
theorem bytesLe_iff {a b : Bytes} (ha : ∀ c ∈ a, Rfc.Digit c) (hb : ∀ c ∈ b, Rfc.Digit c)
    (hlength : a.length = b.length) : bytesLe a b = true ↔ Rfc.decimal a ≤ Rfc.decimal b := by
  induction a generalizing b with
  | nil =>
      rw [List.length_nil] at hlength
      rw [List.length_eq_zero_iff.mp hlength.symm]
      simp [bytesLe]
  | cons c a ih =>
      obtain ⟨d, b, rfl⟩ := List.exists_cons_of_length_eq_add_one hlength.symm
      rw [List.forall_mem_cons] at ha hb
      have hlength' : a.length = b.length := by simpa using hlength
      have hc := ha.1.toNat
      have hd := hb.1.toNat
      have halt := Rfc.decimal_lt ha.2
      have hblt := Rfc.decimal_lt hb.2
      have hlt : ∀ {x y : UInt8} {n m k : Nat}, 48 ≤ x.toNat → x < y → n < 10 ^ k →
          (x.toNat - 0x30) * 10 ^ k + n < (y.toNat - 0x30) * 10 ^ k + m := by
        intro x y n m k hx hxy hn
        have hxy' := UInt8.lt_iff_toNat_lt.mp hxy
        have hmul : (x.toNat - 0x30 + 1) * 10 ^ k ≤ (y.toNat - 0x30) * 10 ^ k :=
          Nat.mul_le_mul_right _ (by omega)
        rw [Nat.add_mul, Nat.one_mul] at hmul
        omega
      rw [bytesLe, Rfc.decimal_cons, Rfc.decimal_cons, ← hlength']
      rw [← hlength'] at hblt
      split_ifs with hlow hhigh
      · simp only [true_iff]
        exact Nat.le_of_lt (hlt hc.1 hlow halt)
      · simp only [false_iff, Nat.not_le]
        exact hlt hd.1 hhigh hblt
      · obtain rfl : c = d := UInt8.le_antisymm (UInt8.not_lt.mp hhigh) (UInt8.not_lt.mp hlow)
        rw [ih ha.2 hb.2 hlength']
        omega

/-- A magnitude with its sign, as the code builds it. -/
theorem signed_eq (n : Nat) (negative : Bool) :
    (if negative then -(UInt64.ofNat n).toInt64 else (UInt64.ofNat n).toInt64) =
      Int64.ofInt (if negative then -n else n) := by
  rw [UInt64.toInt64_ofNat']
  cases negative with
  | true => exact Int64.neg_ofNat
  | false => exact Int64.ofInt_eq_ofNat.symm

theorem signedValue_eq {n : Nat} (negative : Bool) (hn : n ≤ 2 ^ 63) :
    signedValue negative (UInt64.ofNat n) = Int64.ofInt (if negative then -n else n) := by
  rw [signedValue]
  split
  · -- the magnitude of the least `int64_t`
    rename_i hmin
    rw [Bool.and_eq_true, beq_iff_eq, ← UInt64.toNat_inj, UInt64.toNat_ofNat',
      Nat.mod_eq_of_lt (by omega)] at hmin
    obtain ⟨rfl, rfl⟩ := hmin
    rfl
  · exact signed_eq n negative

theorem toUInt32_toNat {n : Nat} (h : n < 2 ^ 32) : n.toUInt32.toNat = n := by
  rw [Nat.toUInt32_eq, UInt32.toNat_ofNat', Nat.mod_eq_of_lt h]

theorem digits_of_all {digits : Bytes} (h : digits.all isDigit = true) :
    ∀ c ∈ digits, Rfc.Digit c :=
  fun c hc => (isDigit_iff c).mp (List.all_eq_true.mp h c hc)

theorem digits_kInt64MaxDigits : ∀ c ∈ kInt64MaxDigits, Rfc.Digit c := digits_of_all (by decide)

theorem digits_kInt64MinAbsDigits : ∀ c ∈ kInt64MinAbsDigits, Rfc.Digit c :=
  digits_of_all (by decide)

theorem fitsInt64_19_append {digits : Bytes} (hlength : digits.length = 19) (more : Bytes)
    (negative : Bool) : fitsInt64_19 (digits ++ more) negative = fitsInt64_19 digits negative := by
  rw [fitsInt64_19, fitsInt64_19, ← hlength, List.take_left, List.take_length]

/-- Nineteen digits fit when the number they denote does. -/
theorem fitsInt64_19_iff {digits : Bytes} (h : ∀ c ∈ digits, Rfc.Digit c)
    (hlength : digits.length = 19) (negative : Bool) :
    fitsInt64_19 digits negative = true ↔
      Rfc.decimal digits ≤ if negative then 2 ^ 63 else 2 ^ 63 - 1 := by
  have htake : digits.take 19 = digits := List.take_of_length_le (Nat.le_of_eq hlength)
  rw [fitsInt64_19, htake]
  cases negative with
  | true =>
      rw [if_pos rfl, if_pos rfl, bytesLe_iff h digits_kInt64MinAbsDigits (by rw [hlength]; rfl)]
      rfl
  | false =>
      rw [if_neg (by decide), if_neg (by decide),
        bytesLe_iff h digits_kInt64MaxDigits (by rw [hlength]; rfl)]
      rfl

/-- The magnitudes of the `int64_t` values. -/
theorem inRange_iff (n : Nat) (negative : Bool) :
    (-2 ^ 63 ≤ (if negative then -n else n : Int) ∧ (if negative then -n else n : Int) < 2 ^ 63) ↔
      n ≤ if negative then 2 ^ 63 else 2 ^ 63 - 1 := by
  cases negative with
  | true =>
      rw [if_pos rfl, if_pos rfl]
      omega
  | false =>
      rw [if_neg (by decide), if_neg (by decide)]
      omega

/-- The integer that the code makes of the digits it counts is the number they denote, if `int64_t`
has it; more than nineteen of them do not start with a zero. -/
theorem integerOf_counted {digits : Bytes} (h : ∀ c ∈ digits, Rfc.Digit c)
    (hzero : 19 < digits.length → digits.head? ≠ some (ascii '0')) {count : Nat} (more : Bytes)
    (hcount : count.toUInt32.toNat = digits.length) (negative : Bool) :
    integerOf (digits ++ more) count negative =
      let value : Int := if negative then -Rfc.decimal digits else Rfc.decimal digits
      if -2 ^ 63 ≤ value ∧ value < 2 ^ 63 then some (Int64.ofInt value) else none := by
  have hlt := Rfc.decimal_lt h
  simp only [integerOf, hcount, List.take_left, parseU64_eq h]
  have hlimit : 2 ^ 63 - 1 ≤ (if negative then 2 ^ 63 else 2 ^ 63 - 1) ∧
      (if negative then 2 ^ 63 else 2 ^ 63 - 1) ≤ 2 ^ 63 := by cases negative <;> decide
  have hrange := inRange_iff (Rfc.decimal digits) negative
  by_cases hshort : digits.length < 19
  · have hpow : 10 ^ digits.length ≤ 10 ^ 18 := Nat.pow_le_pow_right (by decide) (by omega)
    rw [if_pos hshort, signed_eq, if_pos (hrange.mpr (by omega))]
  rw [if_neg hshort]
  by_cases hexact : digits.length = 19
  · have hfits := fitsInt64_19_iff h hexact negative
    rw [← fitsInt64_19_append hexact more negative] at hfits
    by_cases hdecimal : Rfc.decimal digits ≤ if negative then 2 ^ 63 else 2 ^ 63 - 1
    · rw [if_pos (by simp [hexact, hfits.mpr hdecimal]), signedValue_eq negative (by omega),
        if_pos (hrange.mpr hdecimal)]
    · have hfalse : fitsInt64_19 (digits ++ more) negative = false :=
        Bool.not_eq_true _ ▸ fun htrue => hdecimal (hfits.mp htrue)
      rw [if_neg (by simp [hfalse]), if_neg fun hin => hdecimal (hrange.mp hin)]
  · -- more digits than any `int64_t` has, and the first of them is not zero
    obtain ⟨c, rest, rfl⟩ := List.exists_cons_of_length_pos (show 0 < digits.length by omega)
    have hc : c ≠ ascii '0' := fun hc => hzero (by omega) (congrArg some hc)
    rw [List.length_cons] at hshort hexact
    have hle := Rfc.le_decimal rest (h c List.mem_cons_self) hc
    have hpow : 10 ^ 19 ≤ 10 ^ rest.length := Nat.pow_le_pow_right (by decide) (by omega)
    rw [if_neg (by simp [hexact]), if_neg fun hin => absurd (hrange.mp hin) (by omega)]

theorem Rfc.Integer.head {digits : Bytes} (h : Rfc.Integer digits) (hlength : 1 < digits.length) :
    digits.head? ≠ some (ascii '0') := by
  intro hhead
  have := h.2 hhead
  omega

/-- The integer of a token is the number that its integer part denotes, if `int64_t` has it. -/
theorem integerOf_eq {digits : Bytes} (h : Rfc.Integer digits) (hlength : digits.length < 2 ^ 32)
    (negative : Bool) :
    integerOf digits digits.length negative =
      let value : Int := if negative then -Rfc.decimal digits else Rfc.decimal digits
      if -2 ^ 63 ≤ value ∧ value < 2 ^ 63 then some (Int64.ofInt value) else none := by
  have hcounted := integerOf_counted h.1.2 (fun hlong => h.head (by omega)) []
    (toUInt32_toNat hlength) negative
  rw [List.append_nil] at hcounted
  exact hcounted

/-- What the standard says of `std::from_chars` on a number of the grammar: all of it is matched, and
the value is finite unless it is out of range. -/
structure FromCharsCorrect (platform : Platform) : Prop where
  matched : ∀ parts : Rfc.NumberParts, (platform.fromChars parts.text).ptr = parts.text.length
  finite : ∀ parts : Rfc.NumberParts, (platform.fromChars parts.text).ec = .none →
    (platform.fromChars parts.text).value.isFinite = true

/-- A platform whose `from_chars` takes every token as a whole, with the value of `0.5`. -/
def halfPlatform : Platform where
  batch := 16
  batch_pos := by decide
  batch_le := by decide
  keyHash key := key.length
  fromChars token := { ptr := token.length, ec := .none, value := ⟨0x3FE0000000000000⟩ }
  fromCharsHex token := { ptr := token.length, ec := .none, value := ⟨0x3FE0000000000000⟩ }
  toChars _ := some (asciiBytes "0.5")

theorem halfPlatform_correct : FromCharsCorrect halfPlatform :=
  ⟨fun _ => rfl, fun _ _ => show Double.isFinite ⟨0x3FE0000000000000⟩ = true by decide⟩

theorem integerOf_parts (parts : Rfc.NumberParts) (hlength : parts.integer.length < 2 ^ 32) :
    (if !parts.fraction.isEmpty || !parts.exponent.isEmpty then none
      else integerOf parts.integer parts.integer.length (!parts.minus.isEmpty)) =
      open Classical in
      if parts.IsInt64 then some (Int64.ofInt parts.integerValue) else none := by
  have hsign : (if !parts.minus.isEmpty then -(Rfc.decimal parts.integer : Int)
      else Rfc.decimal parts.integer) = parts.integerValue := by
    rw [Rfc.NumberParts.integerValue]
    cases parts.minus <;> rfl
  rw [integerOf_eq parts.isInteger hlength, hsign]
  by_cases hint : parts.fraction = [] ∧ parts.exponent = []
  · rw [hint.1, hint.2]
    simp only [List.isEmpty_nil, Bool.not_true, Bool.or_self, Bool.false_eq_true, if_false]
    congr 1
    rw [Rfc.NumberParts.IsInt64, hint.1, hint.2]
    simp
  · rw [if_pos, if_neg fun h => hint ⟨h.1, h.2.1⟩]
    by_contra h
    simp only [Bool.or_eq_true, Bool.not_eq_true', not_or, Bool.not_eq_false,
      List.isEmpty_iff] at h
    exact hint h

/-- The parser takes a token as a whole exactly when it has a value, and that is the number. -/
theorem scanAndClassify_iff {platform : Platform} (hcorrect : FromCharsCorrect platform)
    {token : Bytes} (hdigits : ∀ parts : Rfc.NumberParts, parts.text = token →
      parts.integer.length < 2 ^ 32) {number : Number} :
    scanAndClassify platform token = .ok (number, []) ↔ Rfc.NumberValue platform token number := by
  rw [scanAndClassify_eq_ok]
  simp only [List.append_nil]
  constructor
  · rintro ⟨parts, rfl, -, hvalue⟩
    rw [Rfc.NumberParts.value, integerOf_parts parts (hdigits parts rfl)] at hvalue
    by_cases hint : parts.IsInt64
    · rw [if_pos hint] at hvalue
      obtain rfl := Option.some.inj hvalue
      exact .integer parts hint
    · rw [if_neg hint] at hvalue
      simp only at hvalue
      split at hvalue
      · rename_i hok
        obtain rfl := Option.some.inj hvalue
        refine .double parts _ hint ?_ (hcorrect.finite parts hok.1)
        rw [← hok.1, ← hok.2]
      · cases hvalue
  · intro h
    cases h with
    | integer parts hint =>
        refine ⟨parts, rfl, parts.ends_nil, ?_⟩
        rw [Rfc.NumberParts.value, integerOf_parts parts (hdigits parts rfl), if_pos hint]
    | double parts d hint hfrom hfinite =>
        refine ⟨parts, rfl, parts.ends_nil, ?_⟩
        rw [Rfc.NumberParts.value, integerOf_parts parts (hdigits parts rfl), if_neg hint]
        simp [hfrom]

end PjhJson
