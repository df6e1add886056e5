import PjhJson.Json5Strings

/-! The numbers of JSON5 in front of a byte that no number has: a number that is scanned as a whole is
scanned in the same way when such a byte follows it. -/

namespace PjhJson.Json5

open Grammar Scanner

/-- The bytes that a number may go on with. -/
def isNumberByte (c : UInt8) : Bool :=
  isHexDigit c || c == ascii '.' || c == ascii 'x' || c == ascii 'X' || c == ascii '+' ||
    c == ascii '-'

theorem isNumberByte_hex {c : UInt8} (h : isHexDigit c = true) : isNumberByte c = true := by
  rw [isNumberByte, h]
  rfl

theorem isHexDigit_digit {c : UInt8} (h : isDigit c = true) : isHexDigit c = true := by
  obtain ⟨hlow, hhigh⟩ := (isDigit_iff c).mp h
  rw [isHexDigit, hexValue_iff.mpr (.digit c hlow hhigh)]
  rfl

theorem isNumberByte_digit {c : UInt8} (h : isDigit c = true) : isNumberByte c = true :=
  isNumberByte_hex (isHexDigit_digit h)

/-- What follows a number. -/
def NumberEnds (rest : Bytes) : Prop := Stops isNumberByte rest

theorem exists_of_startsWith {c : Char} {p : Bytes} (h : startsWith c p = true) :
    ∃ tail, p = ascii c :: tail := by
  cases p with
  | nil => cases h
  | cons b tail => exact ⟨tail, by rw [Option.some.inj (startsWith_iff.mp h)]⟩

section Ended

variable {rest : Bytes} (hrest : NumberEnds rest)
include hrest

theorem startsWith_ended {c : Char} (hc : isNumberByte (ascii c) = true) (p : Bytes) :
    startsWith c (p ++ rest) = startsWith c p := by
  cases p with
  | cons b p => rfl
  | nil =>
      rw [List.nil_append, startsWith_eq_false.mpr]
      · rfl
      · intro b hb
        rw [beq_eq_false_iff_ne]
        rintro rfl
        exact Bool.false_ne_true ((hrest _ hb).symm.trans hc)

theorem startsWithDigit_ended (p : Bytes) : startsWithDigit (p ++ rest) = startsWithDigit p := by
  cases p with
  | cons b p => rfl
  | nil =>
      rw [List.nil_append, startsWithDigit_eq_false.mpr]
      · rfl
      · intro b hb
        by_contra hdigit
        exact Bool.false_ne_true ((hrest b hb).symm.trans
          (isNumberByte_digit (Bool.not_eq_false _ ▸ hdigit)))

theorem skipSign_ended (p : Bytes) : skipSign (p ++ rest) = skipSign p ++ rest := by
  rw [skipSign, skipSign, startsWith_ended hrest (by decide), startsWith_ended hrest (by decide)]
  cases p with
  | nil => rfl
  | cons b p =>
      split
      · rfl
      · rfl

theorem dropWhile_ended {class' : UInt8 → Bool} (hclass : ∀ c, class' c = true → isNumberByte c = true)
    (p : Bytes) : (p ++ rest).dropWhile class' = p.dropWhile class' ++ rest := by
  obtain ⟨run, q, rfl, hrun, hq⟩ := exists_run class' p
  have hstop : Stops class' (q ++ rest) := by
    cases q with
    | cons c q => exact stops_cons.mpr (stops_cons.mp hq)
    | nil =>
        intro c hc
        by_contra hne
        exact Bool.false_ne_true ((hrest c hc).symm.trans (hclass c (Bool.not_eq_false _ ▸ hne)))
  rw [List.append_assoc, dropWhile_run hrun hstop, dropWhile_run hrun hq]

theorem startsWithHexPrefix_ended (p : Bytes) :
    startsWithHexPrefix (p ++ rest) = startsWithHexPrefix p := by
  match p with
  | a :: b :: p => rfl
  | [a] =>
      cases rest with
      | nil => rfl
      | cons c rest =>
          have hc := stops_cons.mp hrest
          simp only [isNumberByte, Bool.or_eq_false_iff] at hc
          show (a == ascii '0' && (c == ascii 'x' || c == ascii 'X')) = false
          rw [hc.1.1.1.2, hc.1.1.2, Bool.or_self, Bool.and_false]
  | [] =>
      match rest with
      | [] => rfl
      | [c] => rfl
      | c :: d :: rest =>
          have hc : c ≠ ascii '0' := by
            rintro rfl
            exact absurd (stops_cons.mp hrest) (by decide)
          show (c == ascii '0' && (d == ascii 'x' || d == ascii 'X')) = false
          rw [beq_eq_false_iff_ne.mpr hc, Bool.false_and]

theorem scanFractionJson5_ended (p : Bytes) :
    scanFractionJson5 (p ++ rest) = ((scanFractionJson5 p).1, (scanFractionJson5 p).2 ++ rest) := by
  rw [scanFractionJson5, scanFractionJson5, startsWith_ended hrest (by decide)]
  split
  · rename_i hpoint
    obtain ⟨tail, rfl⟩ := exists_of_startsWith hpoint
    show (true, (tail ++ rest).dropWhile isDigit) = _
    rw [dropWhile_ended hrest fun _ => isNumberByte_digit]
    rfl
  · rfl

theorem scanDecimalJson5_ended {p q : Bytes} {start : Bytes} {count : Nat} {point : Bool}
    (h : scanDecimalJson5 p = .ok ((start, count, point), q)) :
    scanDecimalJson5 (p ++ rest) = .ok ((start ++ rest, count, point), q ++ rest) := by
  have hcount : ∀ run q : Bytes, (run ++ rest).length - (q ++ rest).length = run.length - q.length := by
    intro run q
    rw [List.length_append, List.length_append]
    omega
  rw [scanDecimalJson5] at h ⊢
  rw [startsWith_ended hrest (by decide)]
  split at h
  · rename_i hpoint
    have hne : p ≠ [] := by
      obtain ⟨tail, rfl⟩ := exists_of_startsWith hpoint
      exact List.cons_ne_nil _ _
    rw [if_pos hpoint, List.tail_append_of_ne_nil hne, startsWithDigit_ended hrest]
    simp only [dropWhile_ended hrest fun _ => isNumberByte_digit, hcount]
    split at h
    · cases h
    · rename_i hdigit
      rw [if_neg hdigit]
      cases h
      rfl
  · rename_i hpoint
    rw [if_neg hpoint, startsWithDigit_ended hrest]
    split at h
    · cases h
    rename_i hdigit
    rw [if_neg hdigit, dropWhile_ended hrest fun _ => isNumberByte_digit]
    simp only [hcount]
    have hzero : ∀ n, hasLeadingZero (p ++ rest) n = hasLeadingZero p n := by
      intro n
      cases p with
      | nil => exact absurd rfl hdigit
      | cons c p => rfl
    rw [hzero, scanFractionJson5_ended hrest]
    simp only at h
    split at h
    · cases h
    · rename_i hleading
      rw [if_neg hleading]
      cases h
      rfl

theorem scanExponent_ended {p q : Bytes} {found : Bool} (h : scanExponent p = .ok (found, q)) :
    scanExponent (p ++ rest) = .ok (found, q ++ rest) := by
  rw [scanExponent] at h ⊢
  rw [startsWith_ended hrest (by decide), startsWith_ended hrest (by decide)]
  split at h
  · rename_i hletter
    rw [if_pos hletter]
    have hne : p ≠ [] := by
      rintro rfl
      cases hletter
    rw [List.tail_append_of_ne_nil hne, skipSign_ended hrest, startsWithDigit_ended hrest]
    split at h
    · rename_i hdigit
      rw [if_pos hdigit, dropWhile_ended hrest fun _ => isNumberByte_digit]
      cases h
      rfl
    · cases h
  · rename_i hletter
    rw [if_neg hletter]
    cases h
    rfl

theorem scanNumberJson5_ended {p q : Bytes} {scan : NumberScanJson5}
    (h : scanNumberJson5 p = .ok (scan, q)) :
    scanNumberJson5 (p ++ rest) = .ok ({ scan with intStart := scan.intStart ++ rest }, q ++ rest) := by
  have hcount : ∀ run q : Bytes, (run ++ rest).length - (q ++ rest).length = run.length - q.length := by
    intro run q
    rw [List.length_append, List.length_append]
    omega
  rw [scanNumberJson5] at h ⊢
  rw [startsWith_ended hrest (by decide), startsWith_ended hrest (by decide), skipSign_ended hrest,
    startsWithHexPrefix_ended hrest]
  by_cases hhex : startsWithHexPrefix (skipSign p) = true
  · obtain ⟨x, tail, hskip, -⟩ := startsWithHexPrefix_iff.mp hhex
    rw [if_pos hhex] at h
    rw [if_pos hhex, hskip]
    rw [hskip] at h
    simp only [List.cons_append, List.drop_succ_cons, List.drop_zero] at h ⊢
    simp only [dropWhile_ended hrest fun _ => isNumberByte_hex, hcount]
    split at h
    · cases h
    · rename_i hdigits
      rw [if_neg hdigits]
      cases h
      rfl
  · rw [if_neg hhex] at h ⊢
    cases hdecimal : scanDecimalJson5 (skipSign p) with
    | error e => rw [hdecimal] at h; cases h
    | ok result =>
        obtain ⟨⟨start, count, point⟩, middle⟩ := result
        rw [hdecimal] at h
        change (scanExponent middle >>= _) = _ at h
        cases hexponent : scanExponent middle with
        | error e => rw [hexponent] at h; cases h
        | ok result =>
            obtain ⟨found, q'⟩ := result
            rw [hexponent] at h
            rw [scanDecimalJson5_ended hrest hdecimal]
            change (scanExponent (middle ++ rest) >>= _) = _
            rw [scanExponent_ended hrest hexponent]
            cases h
            rfl

end Ended

/-- A scanned number does not start like `Infinity` or `NaN`. -/
theorem scanned_start {p q : Bytes} {scan : NumberScanJson5} (h : scanNumberJson5 p = .ok (scan, q)) :
    ∃ c tail, skipSign p = c :: tail ∧ (c = ascii '.' ∨ isDigit c = true) := by
  rw [scanNumberJson5] at h
  by_cases hhex : startsWithHexPrefix (skipSign p) = true
  · obtain ⟨x, tail, hskip, -⟩ := startsWithHexPrefix_iff.mp hhex
    exact ⟨_, _, hskip, .inr (by decide)⟩
  · rw [if_neg hhex] at h
    cases hdecimal : scanDecimalJson5 (skipSign p) with
    | error e => rw [hdecimal] at h; cases h
    | ok result =>
        rw [scanDecimalJson5] at hdecimal
        split at hdecimal
        · rename_i hpoint
          obtain ⟨tail, hskip⟩ := exists_of_startsWith hpoint
          exact ⟨_, tail, hskip, .inl rfl⟩
        split at hdecimal
        · cases hdecimal
        · rename_i hdigit
          cases hskip : skipSign p with
          | nil => rw [hskip] at hdigit; exact absurd rfl hdigit
          | cons c tail =>
              rw [hskip] at hdigit
              exact ⟨c, tail, rfl, .inr (by simpa [startsWithDigit] using hdigit)⟩

theorem parseNonfinite_scanned {p q rest : Bytes} (hrest : NumberEnds rest) {scan : NumberScanJson5}
    (h : scanNumberJson5 p = .ok (scan, q)) : parseNonfinite (p ++ rest) = none := by
  obtain ⟨c, tail, hskip, hc⟩ := scanned_start h
  have hnone : ∀ {lit more : Bytes} {b : UInt8}, lit = b :: more → b ≠ c →
      matchLiteral (c :: (tail ++ rest)) lit = none := by
    rintro _ more b rfl hb
    rw [Option.eq_none_iff_forall_ne_some]
    intro left hleft
    exact hb (List.cons.inj (matchLiteral_eq_some.mp hleft)).1.symm
  have hne : ∀ {b : UInt8}, ¬(b = ascii '.' ∨ isDigit b = true) → b ≠ c := by
    rintro b hb rfl
    exact hb hc
  have hinfinity := @hnone (asciiBytes "Infinity") _ _ rfl (hne (by decide))
  have hnan := @hnone (asciiBytes "NaN") _ _ rfl (hne (by decide))
  rw [parseNonfinite, skipSign_ended hrest, hskip, List.cons_append, matchJson5Nonfinite, hinfinity]
  simp only
  rw [hnan]
  rfl

/-- A number token is read in front of what cannot go on with it. -/
theorem parseNumberJson5_append {platform : Platform} {token rest : Bytes} {number : Number}
    (h : parseNumberJson5 platform token = .ok (number, [])) (hrest : NumberEnds rest) :
    parseNumberJson5 platform (token ++ rest) = .ok (number, rest) := by
  rw [parseNumberJson5] at h
  cases hnonfinite : parseNonfinite token with
  | some result =>
      rw [hnonfinite] at h
      obtain ⟨token', htoken, hlocal⟩ := parseNonfinite_local (hnonfinite.trans (by
        rw [Except.ok.inj h]))
      rw [List.append_nil] at htoken
      rw [htoken, parseNumberJson5, hlocal rest]
  | none =>
      rw [hnonfinite] at h
      cases hscan : scanNumberJson5 token with
      | error e => rw [hscan] at h; cases h
      | ok result =>
          obtain ⟨scan, q⟩ := result
          rw [hscan] at h
          simp only at h
          obtain ⟨rfl, hclass⟩ : q = [] ∧ (if scan.isHex then classifyHex platform token q scan
              else classifyDecimalJson5 platform token q scan) = .ok number := by
            cases hclass : (if scan.isHex then classifyHex platform token q scan
              else classifyDecimalJson5 platform token q scan) with
            | error e => rw [hclass] at h; cases h
            | ok number' =>
                rw [hclass] at h
                obtain ⟨rfl, rfl⟩ := Prod.mk.inj (Except.ok.inj h)
                exact ⟨rfl, rfl⟩
          obtain ⟨token', digits, more, htoken, hne, hstart, hdigits, -, -⟩ :=
            scanNumberJson5_ok hscan
          rw [List.append_nil] at htoken
          have hclass' : (if scan.isHex then
                classifyHex platform (token ++ rest) rest
                  { scan with intStart := scan.intStart ++ rest }
              else classifyDecimalJson5 platform (token ++ rest) rest
                  { scan with intStart := scan.intStart ++ rest }) = .ok number := by
            by_cases hhex : scan.isHex = true
            · rw [if_pos hhex] at hclass ⊢
              exact classifyHex_congr platform (List.append_nil _).symm rfl rfl hclass
            · rw [if_neg hhex] at hclass ⊢
              rw [← List.append_nil token] at hclass
              refine classifyDecimalJson5_congr platform (htoken ▸ hne) hstart hdigits ?_ hclass
              rw [hstart, List.append_nil, List.append_assoc]
          rw [parseNumberJson5, parseNonfinite_scanned hrest hscan, scanNumberJson5_ended hrest hscan]
          simp only [List.nil_append, hclass']
          rfl

/-- The bytes that a number begins with. -/
def isNumberStart (c : UInt8) : Bool :=
  isDigit c || c == ascii '-' || c == ascii '+' || c == ascii '.' || c == ascii 'I' || c == ascii 'N'

theorem start_of_skipSign {p tail : Bytes} {c : UInt8} (h : skipSign p = c :: tail)
    (hc : isNumberStart c = true) : ∃ b more, p = b :: more ∧ isNumberStart b = true := by
  obtain ⟨sign, hp, hsign, -⟩ := exists_sign p
  rw [h] at hp
  rcases hsign with rfl | rfl | rfl
  · exact ⟨c, tail, hp, hc⟩
  · exact ⟨_, _, hp, by decide⟩
  · exact ⟨_, _, hp, by decide⟩

theorem numberToken_start {platform : Platform} {token : Bytes} (h : NumberToken platform token) :
    ∃ c more, token = c :: more ∧ isNumberStart c = true := by
  obtain ⟨number, h⟩ := h
  rw [parseNumberJson5] at h
  cases hnonfinite : parseNonfinite token with
  | some result =>
      rw [parseNonfinite, Option.map_eq_some_iff] at hnonfinite
      obtain ⟨⟨spelling, rest⟩, hmatch, -⟩ := hnonfinite
      rw [matchJson5Nonfinite] at hmatch
      split at hmatch
      · rename_i hinfinity
        exact start_of_skipSign (matchLiteral_eq_some.mp hinfinity) (by decide)
      · obtain ⟨rest', hnan, -⟩ := Option.map_eq_some_iff.mp hmatch
        exact start_of_skipSign (matchLiteral_eq_some.mp hnan) (by decide)
  | none =>
      rw [hnonfinite] at h
      cases hscan : scanNumberJson5 token with
      | error e => rw [hscan] at h; cases h
      | ok result =>
          obtain ⟨c, tail, hskip, hc⟩ := scanned_start hscan
          refine start_of_skipSign hskip ?_
          rcases hc with rfl | hc
          · decide
          · rw [isNumberStart, hc]
            rfl

/-- What is read is a number token. -/
theorem numberToken_of_parse {platform : Platform} {p rest : Bytes} {number : Number}
    (h : parseNumberJson5 platform p = .ok (number, rest)) :
    ∃ token, NumberToken platform token ∧ p = token ++ rest := by
  obtain ⟨token, rfl, hlocal⟩ := parseNumberJson5_local platform p number rest h
  refine ⟨token, ⟨number, ?_⟩, rfl⟩
  have hwhole := hlocal [] List.nil_prefix
  rwa [List.append_nil] at hwhole

end PjhJson.Json5
