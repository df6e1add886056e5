import PjhJson.NumberValue
import PjhJson.WriterText

/-! Numbers as they are written, read back: the text of an integer or of a finite double is a number of
RFC 8259 whose value is that integer or double. -/

namespace PjhJson

open Grammar

namespace Rfc

/-! ### Decimal texts -/

/-- The decimal digits of a number. -/
def naturalText (n : Nat) : Bytes := (Nat.toDigits 10 n).map ascii

theorem digit_digitChar {d : Nat} (h : d < 10) :
    Digit (ascii (Nat.digitChar d)) ∧ (ascii (Nat.digitChar d)).toNat - 0x30 = d := by
  have hall : ∀ d < 10, (0x30 ≤ ascii (Nat.digitChar d) ∧ ascii (Nat.digitChar d) ≤ 0x39) ∧
      (ascii (Nat.digitChar d)).toNat - 0x30 = d := by decide
  exact hall d h

/-- The last digit stands behind the text of the other digits. -/
theorem naturalText_eq (n : Nat) : naturalText n =
    if n < 10 then [ascii (Nat.digitChar n)]
    else naturalText (n / 10) ++ [ascii (Nat.digitChar (n % 10))] := by
  rw [naturalText, Nat.toDigits_eq_if (by decide)]
  split
  · rfl
  · rw [List.map_append, ← naturalText]
    rfl

theorem decimal_naturalText (n : Nat) : decimal (naturalText n) = n := by
  induction n using Nat.strong_induction_on with
  | _ n ih =>
      rw [naturalText_eq]
      split
      · rename_i hlt
        rw [decimal, List.foldl_cons, (digit_digitChar hlt).2]
        exact Nat.zero_add n
      · rename_i hge
        have hdigit := digit_digitChar (Nat.mod_lt n (by decide : 0 < 10))
        have hrest : (naturalText (n / 10)).foldl (fun v c => v * 10 + (c.toNat - 0x30)) 0 = n / 10 :=
          ih (n / 10) (by omega)
        rw [decimal, List.foldl_append, hrest, List.foldl_cons, hdigit.2, List.foldl_nil]
        omega

theorem digits_naturalText (n : Nat) : Digits (naturalText n) := by
  refine ⟨fun h => Nat.toDigits_ne_nil (List.map_eq_nil_iff.mp h), ?_⟩
  induction n using Nat.strong_induction_on with
  | _ n ih =>
      rw [naturalText_eq]
      split
      · rename_i hlt
        exact List.forall_mem_singleton.mpr (digit_digitChar hlt).1
      · have hlast := digit_digitChar (Nat.mod_lt n (by decide : 0 < 10))
        exact List.forall_mem_append.mpr ⟨ih (n / 10) (by omega), List.forall_mem_singleton.mpr hlast.1⟩

/-- Only the text of zero begins with a zero. -/
theorem head_naturalText {n : Nat} (h : 0 < n) : (naturalText n).head? ≠ some (ascii '0') := by
  induction n using Nat.strong_induction_on with
  | _ n ih =>
      rw [naturalText_eq]
      split
      · rename_i hlt
        intro hzero
        have hvalue := (digit_digitChar hlt).2
        rw [Option.some.inj hzero] at hvalue
        exact absurd hvalue (by rw [show (ascii '0').toNat - 0x30 = 0 from rfl]; omega)
      · have hne : naturalText (n / 10) ≠ [] := (digits_naturalText (n / 10)).1
        rw [List.head?_append_of_ne_nil _ hne]
        exact ih (n / 10) (by omega) (by omega)

theorem integer_naturalText (n : Nat) : Integer (naturalText n) := by
  refine ⟨digits_naturalText n, fun hzero => ?_⟩
  have hn : n = 0 := by
    by_contra hne
    exact head_naturalText (Nat.pos_of_ne_zero hne) hzero
  rw [hn]
  rfl

theorem length_naturalText {n k : Nat} (hk : 0 < k) (h : n < 10 ^ k) : (naturalText n).length ≤ k := by
  rw [naturalText, List.length_map]
  exact (Nat.length_toDigits_le_iff (by decide) hk).mpr h

/-- A byte that makes a token that of a double. -/
def isPointByte (c : UInt8) : Bool := c == ascii '.' || c == ascii 'e' || c == ascii 'E'

theorem not_isPointByte {c : UInt8} (h : Digit c) : isPointByte c = false := by
  have hbelow : ∀ b : UInt8, b < 0x30 → c ≠ b := fun b hb heq => absurd (heq ▸ h.1) (UInt8.not_le.mpr hb)
  have habove : ∀ b : UInt8, 0x39 < b → c ≠ b := fun b hb heq => absurd (heq ▸ h.2) (UInt8.not_le.mpr hb)
  simp only [isPointByte, Bool.or_eq_false_iff, beq_eq_false_iff_ne]
  exact ⟨⟨hbelow _ (by decide), habove _ (by decide)⟩, habove _ (by decide)⟩

/-- A token has a point or an exponent where one of these parts is there. -/
theorem hasPoint_eq_false (parts : NumberParts) :
    Writer.hasPoint parts.text = false ↔ parts.fraction = [] ∧ parts.exponent = [] := by
  have hminus : parts.minus.any isPointByte = false := by
    rcases parts.minus_or with h | h <;> rw [h] <;> rfl
  have hinteger : parts.integer.any isPointByte = false :=
    List.any_eq_false.mpr fun c hmem => by rw [not_isPointByte (parts.isInteger.1.2 c hmem)]; decide
  have hsplit : Writer.hasPoint parts.text = (parts.fraction.any isPointByte || parts.exponent.any isPointByte) := by
    change parts.text.any isPointByte = _
    rw [NumberParts.text, List.any_append, List.any_append, List.any_append, hminus, hinteger, Bool.false_or,
      Bool.false_or]
  rw [hsplit, Bool.or_eq_false_iff]
  refine and_congr ?_ ?_
  · obtain ⟨fraction, hfraction⟩ : ∃ fraction, fraction = parts.fraction := ⟨_, rfl⟩
    rw [← hfraction]
    cases hfraction ▸ parts.isFraction with
    | none => exact iff_of_true rfl rfl
    | some digits _ => exact iff_of_false (fun h => by cases h) (List.cons_ne_nil _ _)
  · obtain ⟨exponent, hexponent⟩ : ∃ exponent, exponent = parts.exponent := ⟨_, rfl⟩
    rw [← hexponent]
    cases hexponent ▸ parts.isExponent with
    | none => exact iff_of_true rfl rfl
    | some e sign digits he _ _ =>
        have hpoint : isPointByte e = true := by rcases he with rfl | rfl <;> rfl
        refine iff_of_false ?_ (List.cons_ne_nil _ _)
        rw [List.any_cons, hpoint, Bool.true_or]
        exact Bool.noConfusion

/-! ### Integers -/

/-- The parts of the text of an integer. -/
def integerParts (i : Int) : NumberParts where
  minus := if i < 0 then [ascii '-'] else []
  integer := naturalText i.natAbs
  fraction := []
  exponent := []
  minus_or := by
    by_cases hneg : i < 0
    · exact .inr (if_pos hneg)
    · exact .inl (if_neg hneg)
  isInteger := integer_naturalText _
  isFraction := .none
  isExponent := .none

theorem text_integerParts (v : Int64) : (integerParts v.toInt).text = Writer.int64Text v := by
  have htext : (integerParts v.toInt).text =
      (if v.toInt < 0 then [ascii '-'] else []) ++ (naturalText v.toInt.natAbs ++ ([] ++ [])) := rfl
  rw [htext, List.append_nil, List.append_nil, Writer.int64Text]
  cases hv : v.toInt with
  | ofNat n =>
      rw [if_neg (show ¬Int.ofNat n < 0 from Int.not_lt.mpr (Int.natCast_nonneg n))]
      change naturalText n = asciiBytes n.repr
      rw [asciiBytes, Nat.toList_repr]
      rfl
  | negSucc n =>
      rw [if_pos (Int.negSucc_lt_zero n)]
      change ascii '-' :: naturalText (n + 1) = asciiBytes ("-" ++ (n + 1).repr)
      rw [asciiBytes, String.toList_append, List.map_append, Nat.toList_repr]
      rfl

theorem integerValue_integerParts (i : Int) : (integerParts i).integerValue = i := by
  have hvalue : (integerParts i).integerValue = if (if i < 0 then [ascii '-'] else []) = [] then
      (decimal (naturalText i.natAbs) : Int) else -decimal (naturalText i.natAbs) := rfl
  rw [hvalue, decimal_naturalText]
  by_cases hneg : i < 0
  · rw [if_pos hneg, if_neg (List.cons_ne_nil _ _)]
    omega
  · rw [if_neg hneg, if_pos rfl]
    omega

/-- The text of an `int64_t` stands for it. -/
theorem numberValue_int64 (platform : Platform) (v : Int64) :
    NumberValue platform (Writer.int64Text v) (.integer v) := by
  have hvalue := integerValue_integerParts v.toInt
  have hint : (integerParts v.toInt).IsInt64 :=
    ⟨rfl, rfl, by rw [hvalue]; exact Int64.le_toInt v, by rw [hvalue]; exact Int64.toInt_lt v⟩
  have hnumber : NumberValue platform (integerParts v.toInt).text _ := .integer (integerParts v.toInt) hint
  rwa [text_integerParts, hvalue, Int64.ofInt_toInt] at hnumber

end Rfc

namespace Writer

/-- What the standard says of `std::to_chars` and `std::from_chars` on a finite double: it is written, within the
32 bytes of the buffer, as a number that is converted back to it, and a `.0` behind digits does not change what
they are converted to. -/
structure NumbersReturn (platform : Platform) : Prop extends FromCharsCorrect platform where
  written : ∀ d : Double, d.isFinite = true → ∃ buf, platform.toChars d = some buf
  returned : ∀ (d : Double) (buf : Bytes), d.isFinite = true → platform.toChars d = some buf →
    Rfc.Number buf ∧ buf.length ≤ 32 ∧ platform.fromChars buf = ⟨buf.length, .none, d⟩
  pointed : ∀ digits : Bytes, Rfc.Number digits → hasPoint digits = false →
    platform.fromChars (digits ++ asciiBytes ".0") =
      { platform.fromChars digits with ptr := (digits ++ asciiBytes ".0").length }

/-- The text of a finite double stands for it. -/
theorem numberValue_double {platform : Platform} (h : NumbersReturn platform) {d : Double} {buf : Bytes}
    (hd : d.isFinite = true) (hbuf : platform.toChars d = some buf) :
    Rfc.NumberValue platform (doubleText buf) (.double d) ∧ (doubleText buf).length ≤ 34 := by
  obtain ⟨⟨parts, rfl⟩, hlength, hreturned⟩ := h.returned d buf hd hbuf
  cases hpoint : hasPoint parts.text with
  | true =>
      have hnot : ¬parts.IsInt64 := fun hint => by
        rw [(Rfc.hasPoint_eq_false parts).mpr ⟨hint.1, hint.2.1⟩] at hpoint
        cases hpoint
      rw [doubleText, if_pos hpoint]
      exact ⟨.double parts d hnot hreturned hd, hlength.trans (by decide)⟩
  | false =>
      obtain ⟨hfraction, hexponent⟩ := (Rfc.hasPoint_eq_false parts).mp hpoint
      have hzero : Rfc.Fraction (asciiBytes ".0") :=
        .some [ascii '0'] ⟨List.cons_ne_nil _ _, List.forall_mem_singleton.mpr ⟨by decide, by decide⟩⟩
      obtain ⟨pointed, htext, hpointed⟩ : ∃ pointed : Rfc.NumberParts, pointed.text =
          parts.minus ++ (parts.integer ++ (asciiBytes ".0" ++ parts.exponent)) ∧
            pointed.fraction = asciiBytes ".0" :=
        ⟨{ parts with fraction := asciiBytes ".0", isFraction := hzero }, rfl, rfl⟩
      have hparts : parts.text = parts.minus ++ (parts.integer ++ ([] ++ [])) := by
        rw [Rfc.NumberParts.text, hfraction, hexponent]
      have hshown : pointed.text = parts.text ++ asciiBytes ".0" := by
        rw [htext, hparts, hexponent, List.append_nil, List.append_nil, List.append_nil, List.append_assoc]
      have hnot : ¬pointed.IsInt64 := fun hint => by
        have hnil := hint.1
        rw [hpointed] at hnil
        cases hnil
      have hread := h.pointed parts.text ⟨parts, rfl⟩ hpoint
      rw [hreturned, ← hshown] at hread
      rw [doubleText, hpoint, if_neg Bool.false_ne_true, ← hshown]
      refine ⟨.double pointed d hnot hread hd, ?_⟩
      rw [hshown, List.length_append]
      exact Nat.add_le_add_right hlength 2

end Writer

end PjhJson
