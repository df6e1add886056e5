import PjhJson.CodePoints
import PjhJson.Json5Grammar
import PjhJson.NumberToken
import PjhJson.Trivia

/-! The trivia that `skip_json5_trivia` skips are those of the grammar: what it passes is white space
and comments, and in front of a token it passes all of them. -/

namespace PjhJson.Json5

open Grammar Scanner

/-! ### White space -/

theorem whiteSpace_iff {cp : Nat} : isJson5Whitespace cp = true ↔ WhiteSpace cp := by
  rw [isJson5Whitespace]
  split
  · have hmod : cp % 256 = cp := by omega
    have heq : ∀ n, n < 256 → ((cp.toUInt8 == n.toUInt8) = true ↔ cp = n) := by
      intro n hn
      rw [beq_iff_eq, ← UInt8.toNat_inj, Unicode.toNat_toUInt8 (by omega), Unicode.toNat_toUInt8 hn]
    have h20 := heq 0x20 (by decide)
    have h09 := heq 0x09 (by decide)
    have h0A := heq 0x0A (by decide)
    have h0D := heq 0x0D (by decide)
    have h0B := heq 0x0B (by decide)
    have h0C := heq 0x0C (by decide)
    have hascii : isJson5WhitespaceAscii cp.toUInt8 = true ↔
        ((((cp = 0x20 ∨ cp = 0x09) ∨ cp = 0x0A) ∨ cp = 0x0D) ∨ cp = 0x0B) ∨ cp = 0x0C := by
      rw [← h20, ← h09, ← h0A, ← h0D, ← h0B, ← h0C, isJson5WhitespaceAscii, isWhitespace]
      simp only [Bool.or_eq_true]
      rfl
    rw [hascii, WhiteSpace]
    simp only [List.mem_cons, List.not_mem_nil, or_false]
    omega
  · rw [isJson5WhitespaceUnicode, WhiteSpace]
    simp only [Bool.or_eq_true, Bool.and_eq_true, decide_eq_true_iff, beq_iff_eq, List.mem_cons,
      List.not_mem_nil, or_false]
    omega

theorem isJson5WhitespaceAscii_lt {c : UInt8} (h : isJson5WhitespaceAscii c = true) : c ≤ 0x7F := by
  simp only [isJson5WhitespaceAscii, isWhitespace, Bool.or_eq_true, beq_iff_eq] at h
  rcases h with ((((rfl | rfl) | rfl) | rfl) | rfl) | rfl <;> decide

/-- An ASCII character is its own encoding. -/
theorem encode_ascii {c : Char} (h : c.toNat ≤ 0x7F) : String.utf8EncodeChar c = [c.toNat.toUInt8] := by
  rw [Unicode.utf8EncodeChar_cases, if_pos h]

theorem trivium_ascii {c : UInt8} (h : isJson5WhitespaceAscii c = true) : Trivium [c] := by
  have hle := UInt8.le_iff_toNat_le.mp (isJson5WhitespaceAscii_lt h)
  obtain ⟨value, hvalue, hencode⟩ := Unicode.encoding_one hle
  rw [← hencode]
  refine .whiteSpace value (whiteSpace_iff.mp ?_)
  rw [isJson5Whitespace, if_pos (by rw [← hvalue]; exact hle), ← hvalue,
    Unicode.toUInt8_eq rfl]
  exact h

theorem forall_mem_pair {p : UInt8 → Prop} {a b : UInt8} : (∀ c ∈ [a, b], p c) ↔ p a ∧ p b := by
  rw [List.forall_mem_cons, List.forall_mem_singleton]

/-- The bytes of a character that is not ASCII. -/
theorem encode_bytes {c : Char} (h : 0x7F < c.toNat) : ∀ b ∈ String.utf8EncodeChar c, 0x80 ≤ b := by
  have hle : ∀ n, 0x80 ≤ n → n < 256 → (0x80 : UInt8) ≤ n.toUInt8 := by
    intro n hn hlt
    rw [UInt8.le_iff_toNat_le, Unicode.toNat_toUInt8 hlt]
    exact hn
  rw [Unicode.utf8EncodeChar_cases, if_neg (by omega)]
  split_ifs
  · exact forall_mem_pair.mpr ⟨hle _ (by omega) (by omega), hle _ (by omega) (by omega)⟩
  · exact List.forall_mem_cons.mpr ⟨hle _ (by omega) (by omega),
      forall_mem_pair.mpr ⟨hle _ (by omega) (by omega), hle _ (by omega) (by omega)⟩⟩
  · exact List.forall_mem_cons.mpr ⟨hle _ (by omega) (by omega),
      List.forall_mem_cons.mpr ⟨hle _ (by omega) (by omega),
        forall_mem_pair.mpr ⟨hle _ (by omega) (by omega), hle _ (by omega) (by omega)⟩⟩⟩

theorem encode_lead {c : Char} (h : 0x7F < c.toNat) :
    ∃ lead conts, String.utf8EncodeChar c = lead :: conts ∧ 0x80 ≤ lead := by
  have hbytes := encode_bytes h
  cases hencode : String.utf8EncodeChar c with
  | nil =>
      rw [Unicode.utf8EncodeChar_cases] at hencode
      split_ifs at hencode
  | cons lead conts => exact ⟨lead, conts, rfl, hbytes lead (hencode ▸ List.mem_cons_self)⟩

theorem skipUnicodeWhitespace_iff {p rest : Bytes} : skipUnicodeWhitespace p = some rest ↔
    ∃ c : Char, 0x7F < c.toNat ∧ WhiteSpace c.toNat ∧ p = String.utf8EncodeChar c ++ rest := by
  constructor
  · intro h
    cases p with
    | nil => cases h
    | cons b p =>
        rw [skipUnicodeWhitespace] at h
        split at h
        · cases h
        rename_i hb
        cases hdecode : Unicode.decodeUtf8 (b :: p) with
        | none => rw [hdecode] at h; cases h
        | some result =>
            obtain ⟨cp, length⟩ := result
            rw [hdecode] at h
            simp only at h
            split at h
            · rename_i hws
              obtain ⟨c, rfl, rfl, rest', hp⟩ := Unicode.decodeUtf8_sound hdecode
              obtain rfl := Option.some.inj h
              refine ⟨c, ?_, whiteSpace_iff.mp hws, ?_⟩
              · by_contra hle
                rw [encode_ascii (by omega)] at hp
                obtain ⟨rfl, -⟩ := List.cons.inj hp
                refine hb ?_
                rw [UInt8.lt_iff_toNat_lt, Unicode.toNat_toUInt8 (by omega)]
                show _ < 0x80
                omega
              · rw [hp, List.drop_left]
            · cases h
  · rintro ⟨c, hlt, hws, rfl⟩
    obtain ⟨lead, conts, hencode, hlead⟩ := encode_lead hlt
    have hdecode := Unicode.decodeUtf8_encode c rest
    have hdrop : (String.utf8EncodeChar c ++ rest).drop (String.utf8EncodeChar c).length = rest :=
      List.drop_left
    rw [hencode, List.cons_append] at hdecode hdrop ⊢
    rw [skipUnicodeWhitespace, if_neg (UInt8.not_lt.mpr hlead), hdecode]
    simp only
    rw [if_pos (whiteSpace_iff.mpr hws), hdrop]

/-! ### Comments -/

theorem singleLine_nil : SingleLine [] := by
  intro terminator hterminator hpart
  rw [List.infix_nil] at hpart
  rcases hterminator with rfl | rfl | rfl | rfl <;> cases hpart

theorem singleLine_cons {c : UInt8} {body : Bytes} : SingleLine (c :: body) ↔
    (∀ terminator, LineTerminator terminator → ¬terminator <+: c :: body) ∧ SingleLine body := by
  constructor
  · intro h
    exact ⟨fun terminator hterminator hpre => h terminator hterminator hpre.isInfix,
      fun terminator hterminator hpart =>
        h terminator hterminator (hpart.trans (List.suffix_cons c body).isInfix)⟩
  · rintro ⟨hpre, hbody⟩ terminator hterminator hpart
    rcases List.infix_cons_iff.mp hpart with h | h
    · exact hpre terminator hterminator h
    · exact hbody terminator hterminator h

/-- The end of a line. -/
def LineEnds (rest : Bytes) : Prop :=
  rest = [] ∨ ∃ terminator more, LineTerminator terminator ∧ rest = terminator ++ more

/-- The separators of Unicode, as the comment scan looks for them. -/
theorem separator_iff {c : UInt8} {rest : Bytes} :
    (c = 0xE2 ∧ (rest.take 2 = [0x80, 0xA8] ∨ rest.take 2 = [0x80, 0xA9])) ↔
      ∃ text, Separator text ∧ text <+: c :: rest := by
  have hbegins : ∀ b : UInt8, [0xE2, 0x80, b] <+: c :: rest ↔ c = 0xE2 ∧ rest.take 2 = [0x80, b] := by
    intro b
    rw [List.cons_prefix_cons, List.prefix_iff_eq_take]
    exact and_congr ⟨Eq.symm, Eq.symm⟩ ⟨Eq.symm, Eq.symm⟩
  constructor
  · rintro ⟨hc, h | h⟩
    · exact ⟨_, .inl rfl, (hbegins 0xA8).mpr ⟨hc, h⟩⟩
    · exact ⟨_, .inr rfl, (hbegins 0xA9).mpr ⟨hc, h⟩⟩
  · rintro ⟨_, rfl | rfl, h⟩
    · exact ⟨((hbegins 0xA8).mp h).1, .inl ((hbegins 0xA8).mp h).2⟩
    · exact ⟨((hbegins 0xA9).mp h).1, .inr ((hbegins 0xA9).mp h).2⟩

/-- A separator is not completed by the end of a line. -/
theorem separator_of_lineEnds {text body rest : Bytes} (htext : Separator text) (hrest : LineEnds rest)
    (hbody : body ≠ []) (hpre : text <+: body ++ rest) : text <+: body := by
  have hlast : ∀ c, rest.head? = some c → c ≠ 0x80 ∧ c ≠ 0xA8 ∧ c ≠ 0xA9 := by
    intro c hc
    rcases hrest with rfl | ⟨terminator, more, rfl | rfl | rfl | rfl, rfl⟩
    · cases hc
    all_goals obtain rfl := Option.some.inj hc
    all_goals decide
  have hthree : ∀ last : UInt8, (last = 0xA8 ∨ last = 0xA9) → [0xE2, 0x80, last] <+: body ++ rest →
      [0xE2, 0x80, last] <+: body := by
    intro last hor hpre
    match body, hbody with
    | [a], _ =>
        obtain ⟨-, hpre⟩ := List.cons_prefix_cons.mp hpre
        obtain ⟨more, rfl⟩ := hpre
        exact absurd rfl (hlast 0x80 rfl).1
    | [a, b], _ =>
        obtain ⟨-, hpre⟩ := List.cons_prefix_cons.mp hpre
        obtain ⟨-, hpre⟩ := List.cons_prefix_cons.mp hpre
        obtain ⟨more, rfl⟩ := hpre
        have hne := (hlast last rfl).2
        exact absurd hor (not_or.mpr hne)
    | a :: b :: c :: body, _ =>
        obtain ⟨ha, hpre⟩ := List.cons_prefix_cons.mp hpre
        obtain ⟨hb, hpre⟩ := List.cons_prefix_cons.mp hpre
        obtain ⟨hc, -⟩ := List.cons_prefix_cons.mp hpre
        rw [ha, hb, hc]
        exact ⟨body, rfl⟩
  rcases htext with rfl | rfl
  · exact hthree 0xA8 (.inl rfl) hpre
  · exact hthree 0xA9 (.inr rfl) hpre

theorem skipLineComment_append {body rest : Bytes} (hbody : SingleLine body) (hrest : LineEnds rest) :
    skipLineComment (body ++ rest) = rest := by
  induction body with
  | nil =>
      rw [List.nil_append]
      rcases hrest with rfl | ⟨terminator, more, rfl | rfl | rfl | rfl, rfl⟩
      · rfl
      all_goals rfl
  | cons c body ih =>
      obtain ⟨hstart, hbody⟩ := singleLine_cons.mp hbody
      rw [List.cons_append, skipLineComment, if_neg, if_neg]
      · exact ih hbody
      · intro hseparator
        obtain ⟨text, htext, hpre⟩ := separator_iff.mp hseparator
        exact hstart text (.inr (.inr htext))
          (separator_of_lineEnds htext hrest (List.cons_ne_nil c body) hpre)
      · rintro (rfl | rfl)
        · exact hstart [0x0A] (.inl rfl) ⟨body, rfl⟩
        · exact hstart [0x0D] (.inr (.inl rfl)) ⟨body, rfl⟩

theorem skipLineComment_split (p : Bytes) :
    ∃ body, SingleLine body ∧ p = body ++ skipLineComment p ∧ LineEnds (skipLineComment p) := by
  fun_induction skipLineComment p with
  | case1 => exact ⟨[], singleLine_nil, rfl, .inl rfl⟩
  | case2 c rest hreturn =>
      refine ⟨[], singleLine_nil, rfl, .inr ⟨[c], rest, ?_, rfl⟩⟩
      rcases hreturn with rfl | rfl
      · exact .inl rfl
      · exact .inr (.inl rfl)
  | case3 c rest _ hseparator =>
      obtain ⟨text, htext, more, hmore⟩ := separator_iff.mp hseparator
      exact ⟨[], singleLine_nil, rfl, .inr ⟨text, more, .inr (.inr htext), hmore.symm⟩⟩
  | case4 c rest hreturn hseparator ih =>
      obtain ⟨body, hbody, hrest, hends⟩ := ih
      refine ⟨c :: body, singleLine_cons.mpr ⟨?_, hbody⟩, ?_, hends⟩
      · intro terminator hterminator hpre
        rcases hterminator with rfl | rfl | htext
        · exact hreturn (.inl (List.cons_prefix_cons.mp hpre).1.symm)
        · exact hreturn (.inr (List.cons_prefix_cons.mp hpre).1.symm)
        · refine hseparator (separator_iff.mpr ⟨terminator, htext, hpre.trans ?_⟩)
          rw [hrest]
          exact ⟨skipLineComment rest, rfl⟩
      · rw [List.cons_append, ← hrest]

theorem skipBlockComment_append {body : Bytes} (hbody : ¬[ascii '*', ascii '/'] <:+: body)
    (rest : Bytes) : skipBlockComment (body ++ ascii '*' :: ascii '/' :: rest) = .ok rest := by
  induction body with
  | nil => rw [List.nil_append, skipBlockComment, if_pos ⟨rfl, rfl⟩]
  | cons c body ih =>
      have hrest := ih fun hpart => hbody (hpart.trans (List.suffix_cons c body).isInfix)
      cases body with
      | nil =>
          rw [List.singleton_append, skipBlockComment, if_neg fun h => absurd h.2 (by decide)]
          exact hrest
      | cons d body =>
          rw [List.cons_append, List.cons_append, skipBlockComment, if_neg]
          · exact hrest
          · rintro ⟨rfl, rfl⟩
            exact hbody ⟨[], body, rfl⟩

theorem skipBlockComment_ok {p rest : Bytes} (h : skipBlockComment p = .ok rest) :
    ∃ body, ¬[ascii '*', ascii '/'] <:+: body ∧ p = body ++ ascii '*' :: ascii '/' :: rest := by
  induction p with
  | nil => cases h
  | cons a p ih =>
    obtain _ | ⟨b, rest'⟩ := p
    · cases h
    rw [skipBlockComment] at h
    split at h
    · next hclose =>
      obtain rfl := Except.ok.inj h
      exact ⟨[], by decide, by rw [hclose.1, hclose.2]; rfl⟩
    · next hopen =>
      obtain ⟨body, hbody, hp⟩ := ih h
      refine ⟨a :: body, ?_, by rw [hp]; rfl⟩
      intro hpart
      rcases List.infix_cons_iff.mp hpart with hpre | hpart
      · obtain ⟨ha, hpre⟩ := List.cons_prefix_cons.mp hpre
        cases body with
        | nil => exact absurd hpre.length_le (by rw [List.length_nil]; decide)
        | cons d body =>
            obtain ⟨hd, -⟩ := List.cons_prefix_cons.mp hpre
            exact hopen ⟨ha.symm, (List.cons.inj hp).1.trans hd.symm⟩
      · exact hbody hpart

/-- Without its end a comment runs up to the last byte of the text. -/
theorem skipBlockComment_open {body : Bytes} {c : UInt8}
    (h : ¬[ascii '*', ascii '/'] <:+: body ++ [c]) : skipBlockComment (body ++ [c]) = .error [c] := by
  induction body with
  | nil => rfl
  | cons a body ih =>
      have hrest := ih fun hpart => h (hpart.trans (List.suffix_cons a _).isInfix)
      obtain ⟨b, more, hmore⟩ : ∃ b more, body ++ [c] = b :: more :=
        List.exists_cons_of_ne_nil (by simp)
      rw [List.cons_append, hmore, skipBlockComment, if_neg, ← hmore]
      · exact hrest
      · rintro ⟨rfl, rfl⟩
        exact h ⟨[], more, by rw [List.cons_append, hmore]; rfl⟩

theorem skipBlockComment_error {p rest : Bytes} (h : skipBlockComment p = .error rest) :
    ∃ body, p = body ++ rest ∧ ¬[ascii '*', ascii '/'] <:+: p ∧ rest.length ≤ 1 := by
  induction p with
  | nil =>
    obtain rfl := Except.error.inj h
    exact ⟨[], rfl, by decide, Nat.zero_le _⟩
  | cons a p ih =>
    obtain _ | ⟨b, p⟩ := p
    · obtain rfl := Except.error.inj h
      exact ⟨[], rfl, fun hpart => absurd hpart.length_le (Nat.not_le.mpr (Nat.lt_succ_self 1)),
        Nat.le_refl _⟩
    rw [skipBlockComment] at h
    split at h
    · cases h
    · next hopen =>
      obtain ⟨body, hbody, hpart, hle⟩ := ih h
      refine ⟨a :: body, by rw [hbody]; rfl, fun hinfix => ?_, hle⟩
      rcases List.infix_cons_iff.mp hinfix with hpre | hinfix
      · obtain ⟨ha, hpre⟩ := List.cons_prefix_cons.mp hpre
        exact hopen ⟨ha.symm, (List.cons_prefix_cons.mp hpre).1.symm⟩
      · exact hpart hinfix

/-! ### The loop -/

/-- The rounds of the loop, for each kind of trivia. -/
theorem loop_space {c : UInt8} (hc : isJson5WhitespaceAscii c = true) (fuel : Nat) (p : Bytes) :
    skipTriviaLoop (fuel + 1) (c :: p) = skipTriviaLoop (fuel + 1) p := by
  rw [skipTriviaLoop, skipTriviaLoop, List.dropWhile_cons_of_pos hc]

theorem loop_whiteSpace {c : Char} (hlt : 0x7F < c.toNat) (hc : WhiteSpace c.toNat) (fuel : Nat)
    (p : Bytes) :
    skipTriviaLoop (fuel + 1) (String.utf8EncodeChar c ++ p) = skipTriviaLoop fuel p := by
  obtain ⟨lead, conts, hencode, hlead⟩ := encode_lead hlt
  have hstop : isJson5WhitespaceAscii lead = false := by
    by_contra hne
    exact absurd (UInt8.le_trans hlead (isJson5WhitespaceAscii_lt (Bool.not_eq_false _ ▸ hne)))
      (by decide)
  have hskip : skipUnicodeWhitespace (String.utf8EncodeChar c ++ p) = some p :=
    skipUnicodeWhitespace_iff.mpr ⟨c, hlt, hc, rfl⟩
  rw [skipTriviaLoop]
  rw [hencode, List.cons_append, List.dropWhile_cons_of_neg (by rw [hstop]; decide)]
  rw [hencode, List.cons_append] at hskip
  rw [hskip]

theorem loop_comment (fuel : Nat) (p : Bytes) :
    skipTriviaLoop (fuel + 1) (ascii '/' :: ascii '/' :: p) =
      skipTriviaLoop fuel (skipLineComment p) := rfl

theorem loop_block {p rest : Bytes} (h : skipBlockComment p = .ok rest) (fuel : Nat) :
    skipTriviaLoop (fuel + 1) (ascii '/' :: ascii '*' :: p) = skipTriviaLoop fuel rest := by
  have hspace : isJson5WhitespaceAscii (ascii '/') = false := by decide
  have hunicode : skipUnicodeWhitespace (ascii '/' :: ascii '*' :: p) = none := rfl
  have htake : (ascii '/' :: ascii '*' :: p).take 2 = asciiBytes "/*" := rfl
  have hcomment : skipBlockComment ((ascii '/' :: ascii '*' :: p).drop 2) = .ok rest := h
  rw [skipTriviaLoop]
  rw [List.dropWhile_cons_of_neg (by rw [hspace]; decide), hunicode]
  dsimp only
  rw [htake, if_neg (by decide), if_pos rfl, hcomment]

/-- The terminator of a line comment is white space of a later round. -/
theorem loop_terminator {terminator : Bytes} (h : LineTerminator terminator) (fuel : Nat)
    (p : Bytes) :
    ∃ fuel', fuel ≤ fuel' ∧ fuel' ≤ fuel + 1 ∧
      skipTriviaLoop (fuel + 1) (terminator ++ p) = skipTriviaLoop fuel' p := by
  rcases h with rfl | rfl | rfl | rfl
  · exact ⟨fuel + 1, Nat.le_succ _, Nat.le_refl _, loop_space (by decide) fuel p⟩
  · exact ⟨fuel + 1, Nat.le_succ _, Nat.le_refl _, loop_space (by decide) fuel p⟩
  · exact ⟨fuel, Nat.le_refl _, Nat.le_succ _,
      @loop_whiteSpace (Char.ofNat 0x2028) (by decide) (.inl (by decide)) fuel p⟩
  · exact ⟨fuel, Nat.le_refl _, Nat.le_succ _,
      @loop_whiteSpace (Char.ofNat 0x2029) (by decide) (.inl (by decide)) fuel p⟩

/-! ### What is skipped -/

theorem trivia_append {first second : Bytes} (h : Trivia first) (h' : Trivia second) :
    Trivia (first ++ second) := by
  induction h with
  | nil => exact h'
  | cons start rest hstart _ ih =>
      rw [List.append_assoc]
      exact .cons _ _ hstart ih

theorem trivia_spaces {spaces : Bytes} (h : ∀ c ∈ spaces, isJson5WhitespaceAscii c = true) :
    Trivia spaces := by
  induction spaces with
  | nil => exact .nil
  | cons c spaces ih =>
      rw [List.forall_mem_cons] at h
      exact .cons [c] spaces (trivium_ascii h.1) (ih h.2)

/-- What lies between two cursors when no comment was left open: trivia, which a line comment at the
end of the text may close. -/
def Skips (p rest : Bytes) : Prop :=
  (∃ ws, Trivia ws ∧ p = ws ++ rest) ∨ rest = [] ∧ LastTrivia p

theorem Skips.behind {ws p rest : Bytes} (hws : Trivia ws) (h : Skips p rest) : Skips (ws ++ p) rest := by
  rcases h with ⟨more, hmore, rfl⟩ | ⟨rfl, hlast⟩
  · exact .inl ⟨ws ++ more, trivia_append hws hmore, (List.append_assoc _ _ _).symm⟩
  · refine .inr ⟨rfl, ?_⟩
    cases hlast with
    | closed _ hmore => exact .closed _ (trivia_append hws hmore)
    | comment more body hmore hbody =>
        rw [← List.append_assoc]
        exact .comment _ body (trivia_append hws hmore) hbody

/-- What lies between two cursors when a comment was left open: the cursor stops at the last byte of
the text, if the comment has any. -/
def Torn (p rest : Bytes) : Prop :=
  ∃ ws body, Trivia ws ∧ p = ws ++ ascii '/' :: ascii '*' :: (body ++ rest) ∧
    ¬[ascii '*', ascii '/'] <:+: body ++ rest ∧ rest.length ≤ 1

theorem Torn.behind {ws p rest : Bytes} (hws : Trivia ws) (h : Torn p rest) : Torn (ws ++ p) rest := by
  obtain ⟨more, body, hmore, rfl, hbody⟩ := h
  exact ⟨ws ++ more, body, trivia_append hws hmore, (List.append_assoc _ _ _).symm, hbody⟩

/-- What the loop skips, by whether it met an unterminated comment. -/
def Skipped (p rest : Bytes) : Bool → Prop
  | false => Skips p rest
  | true => Torn p rest

theorem Skipped.behind {ws p rest : Bytes} {unterminated : Bool} (hws : Trivia ws)
    (h : Skipped p rest unterminated) : Skipped (ws ++ p) rest unterminated := by
  cases unterminated with
  | false => exact Skips.behind hws h
  | true => exact Torn.behind hws h

theorem Skipped.trivium {first p rest : Bytes} {unterminated : Bool} (hfirst : Trivium first)
    (h : Skipped p rest unterminated) : Skipped (first ++ p) rest unterminated := by
  have hws : Trivia (first ++ []) := .cons first [] hfirst .nil
  rw [List.append_nil] at hws
  exact h.behind hws

theorem loop_nil {fuel : Nat} {rest : Bytes} {unterminated : Bool}
    (h : skipTriviaLoop fuel [] = some (rest, unterminated)) : rest = [] ∧ unterminated = false := by
  cases fuel with
  | zero => cases h
  | succ fuel =>
      obtain ⟨rfl, rfl⟩ := Prod.mk.inj (Option.some.inj h)
      exact ⟨rfl, rfl⟩

/-- A line comment, and the rounds behind it. -/
theorem skipped_lineComment {fuel : Nat} {body behind rest : Bytes} {unterminated : Bool}
    (hbody : SingleLine body) (hends : LineEnds behind)
    (h : skipTriviaLoop fuel behind = some (rest, unterminated))
    (hrounds : ∀ fuel' ≤ fuel, ∀ p, skipTriviaLoop fuel' p = some (rest, unterminated) →
      Skipped p rest unterminated) :
    Skipped (ascii '/' :: ascii '/' :: (body ++ behind)) rest unterminated := by
  rcases hends with rfl | ⟨terminator, more, hterminator, rfl⟩
  · obtain ⟨rfl, rfl⟩ := loop_nil h
    rw [List.append_nil]
    exact .inr ⟨rfl, .comment [] body .nil hbody⟩
  · cases fuel with
    | zero => cases h
    | succ fuel =>
        obtain ⟨fuel', -, hle, hround⟩ := loop_terminator hterminator fuel more
        rw [hround] at h
        have hskipped := Skipped.trivium (.lineComment body terminator hbody hterminator)
          (hrounds fuel' hle more h)
        simpa using hskipped

theorem skipped_of_loop {fuel : Nat} {p rest : Bytes} {unterminated : Bool}
    (h : skipTriviaLoop fuel p = some (rest, unterminated)) : Skipped p rest unterminated := by
  induction fuel using Nat.strong_induction_on generalizing p with
  | h fuel ih =>
      cases fuel with
      | zero => cases h
      | succ fuel =>
          obtain ⟨spaces, q, hp, hspaces, hstop⟩ := exists_run isJson5WhitespaceAscii p
          rw [hp]
          refine Skipped.behind (trivia_spaces hspaces) ?_
          rw [skipTriviaLoop, hp, dropWhile_run hspaces hstop] at h
          cases hunicode : skipUnicodeWhitespace q with
          | some more =>
              rw [hunicode] at h
              obtain ⟨c, -, hc, rfl⟩ := skipUnicodeWhitespace_iff.mp hunicode
              exact Skipped.trivium (.whiteSpace c hc) (ih fuel (Nat.lt_succ_self _) h)
          | none =>
              rw [hunicode] at h
              simp only at h
              have hcut : ∀ {a b : UInt8}, q.take 2 = [a, b] → q = a :: b :: q.drop 2 := by
                intro a b htake
                conv_lhs => rw [← List.take_append_drop 2 q, htake]
                rfl
              split at h
              · rename_i hslashes
                obtain ⟨body, hbody, hq, hends⟩ := skipLineComment_split (q.drop 2)
                have hstart : q = ascii '/' :: ascii '/' :: q.drop 2 := hcut hslashes
                rw [hstart, hq]
                exact skipped_lineComment hbody hends h fun fuel' hle p h =>
                  ih fuel' (Nat.lt_succ_of_le hle) h
              split at h
              · rename_i hopen
                have hstart : q = ascii '/' :: ascii '*' :: q.drop 2 := hcut hopen
                cases hblock : skipBlockComment (q.drop 2) with
                | error more =>
                    rw [hblock] at h
                    obtain ⟨rfl, rfl⟩ := Prod.mk.inj (Option.some.inj h)
                    obtain ⟨body, hq, hbody, hle⟩ := skipBlockComment_error hblock
                    rw [hq] at hbody
                    exact ⟨[], body, .nil, by rw [hstart, hq]; rfl, hbody, hle⟩
                | ok more =>
                    rw [hblock] at h
                    obtain ⟨body, hbody, hq⟩ := skipBlockComment_ok hblock
                    rw [hstart, hq]
                    have hskipped := Skipped.trivium (.blockComment body hbody)
                      (ih fuel (Nat.lt_succ_self _) h)
                    simpa using hskipped
              · obtain ⟨rfl, rfl⟩ := Prod.mk.inj (Option.some.inj h)
                exact .inl ⟨[], .nil, rfl⟩

theorem skipTrivia_skipped {p rest : Bytes} {unterminated : Bool}
    (h : skipTrivia p = some (rest, unterminated)) : Skipped p rest unterminated := skipped_of_loop h

/-- What follows is no trivia: the end of the text, or a token. -/
structure TokenStart (rest : Bytes) : Prop where
  ascii : Stops isJson5WhitespaceAscii rest
  unicode : skipUnicodeWhitespace rest = none
  lineComment : rest.take 2 ≠ asciiBytes "//"
  blockComment : rest.take 2 ≠ asciiBytes "/*"

theorem loop_stop {rest : Bytes} (h : TokenStart rest) (fuel : Nat) :
    skipTriviaLoop (fuel + 1) rest = some (rest, false) := by
  have hdrop : rest.dropWhile isJson5WhitespaceAscii = rest := @dropWhile_run _ _ [] rest (by simp) h.ascii
  rw [skipTriviaLoop, hdrop, h.unicode]
  simp only
  rw [if_neg h.lineComment, if_neg h.blockComment]

/-- One round for each trivium, or two for a line comment with a Unicode terminator. -/
theorem loop_trivium {first : Bytes} (h : Trivium first) {fuel : Nat} (hfuel : first.length ≤ fuel)
    (p : Bytes) :
    ∃ fuel', fuel - first.length ≤ fuel' ∧
      skipTriviaLoop (fuel + 1) (first ++ p) = skipTriviaLoop (fuel' + 1) p := by
  cases h with
  | whiteSpace c hc =>
      by_cases hlt : 0x7F < c.toNat
      · obtain ⟨lead, conts, hencode, -⟩ := encode_lead hlt
        have hpos : 0 < (String.utf8EncodeChar c).length := by rw [hencode]; exact Nat.succ_pos _
        obtain ⟨fuel, rfl⟩ : ∃ f, fuel = f + 1 := ⟨fuel - 1, by omega⟩
        exact ⟨fuel, by omega, loop_whiteSpace hlt hc (fuel + 1) p⟩
      · have hle : c.toNat ≤ 0x7F := by omega
        have hspace : isJson5WhitespaceAscii c.toNat.toUInt8 = true := by
          have hwhole := whiteSpace_iff.mpr hc
          rwa [isJson5Whitespace, if_pos hle] at hwhole
        rw [encode_ascii hle]
        exact ⟨fuel, Nat.sub_le _ _, loop_space hspace fuel p⟩
  | lineComment body terminator hbody hterminator =>
      have hends : LineEnds (terminator ++ p) := .inr ⟨terminator, p, hterminator, rfl⟩
      have hround := loop_comment fuel (body ++ (terminator ++ p))
      rw [skipLineComment_append hbody hends] at hround
      simp only [List.length_cons, List.length_append] at hfuel
      obtain ⟨fuel, rfl⟩ : ∃ f, fuel = f + 2 := ⟨fuel - 2, by omega⟩
      obtain ⟨fuel', hge, -, hend⟩ := loop_terminator hterminator (fuel + 1) p
      obtain ⟨fuel', rfl⟩ : ∃ f, fuel' = f + 1 := ⟨fuel' - 1, by omega⟩
      refine ⟨fuel', ?_, ?_⟩
      · simp only [List.length_cons]
        omega
      · rw [← hend, ← hround]
        simp
  | blockComment body hbody =>
      have hround := loop_block (skipBlockComment_append hbody p) fuel
      simp only [List.length_cons, List.length_append] at hfuel
      obtain ⟨fuel, rfl⟩ : ∃ f, fuel = f + 1 := ⟨fuel - 1, by omega⟩
      refine ⟨fuel, ?_, ?_⟩
      · simp only [List.length_cons]
        omega
      · rw [← hround]
        simp

theorem loop_trivia {ws : Bytes} (hws : Trivia ws) {fuel : Nat} (hfuel : ws.length ≤ fuel)
    (p : Bytes) :
    ∃ fuel', fuel - ws.length ≤ fuel' ∧
      skipTriviaLoop (fuel + 1) (ws ++ p) = skipTriviaLoop (fuel' + 1) p := by
  induction hws generalizing fuel with
  | nil => exact ⟨fuel, Nat.sub_le _ _, rfl⟩
  | cons first more hfirst _ ih =>
      rw [List.length_append] at hfuel
      obtain ⟨middle, hmiddle, hround⟩ := loop_trivium hfirst (show first.length ≤ fuel by omega)
        (more ++ p)
      obtain ⟨last, hlast, hrounds⟩ := @ih middle (by omega)
      refine ⟨last, ?_, ?_⟩
      · rw [List.length_append]
        omega
      · rw [List.append_assoc, hround, hrounds]

/-- In front of a token all trivia are skipped. -/
theorem skipTrivia_trivia {ws rest : Bytes} (hws : Trivia ws) (hrest : TokenStart rest) :
    skipTrivia (ws ++ rest) = some (rest, false) := by
  have hfuel : ws.length ≤ (ws ++ rest).length := by
    rw [List.length_append]
    omega
  obtain ⟨fuel, -, hrounds⟩ := loop_trivia hws hfuel rest
  rw [skipTrivia, hrounds]
  exact loop_stop hrest fuel

/-- An unterminated comment is skipped up to the last byte of the text. -/
theorem skipTrivia_torn {ws body : Bytes} {c : UInt8} (hws : Trivia ws)
    (hbody : ¬[ascii '*', ascii '/'] <:+: body ++ [c]) :
    skipTrivia (ws ++ ascii '/' :: ascii '*' :: (body ++ [c])) = some ([c], true) := by
  obtain ⟨text, htext⟩ : ∃ text, text = ascii '/' :: ascii '*' :: (body ++ [c]) := ⟨_, rfl⟩
  have hfuel : ws.length ≤ (ws ++ text).length := by
    rw [List.length_append]
    omega
  have hspace : isJson5WhitespaceAscii (ascii '/') = false := by decide
  have hunicode : skipUnicodeWhitespace text = none := by rw [htext]; rfl
  have htake : text.take 2 = asciiBytes "/*" := by rw [htext]; rfl
  have hopen : skipBlockComment (text.drop 2) = .error [c] := by
    rw [htext]
    exact skipBlockComment_open hbody
  have hdrop : text.dropWhile isJson5WhitespaceAscii = text := by
    rw [htext, List.dropWhile_cons_of_neg (by rw [hspace]; decide)]
  obtain ⟨fuel, -, hrounds⟩ := loop_trivia hws hfuel text
  rw [← htext, skipTrivia, hrounds, skipTriviaLoop, hdrop, hunicode]
  dsimp only
  rw [htake, if_neg (by decide), if_pos rfl, hopen]

theorem tokenStart_nil : TokenStart [] := ⟨stops_nil _, rfl, by decide, by decide⟩

/-- At the end of the text a line comment needs no terminator. -/
theorem skipTrivia_last {text : Bytes} (h : LastTrivia text) : skipTrivia text = some ([], false) := by
  cases h with
  | closed _ hws =>
      have hskip := skipTrivia_trivia hws tokenStart_nil
      rwa [List.append_nil] at hskip
  | comment ws body hws hbody =>
      have hline := skipLineComment_append hbody (.inl rfl)
      rw [List.append_nil] at hline
      obtain ⟨text, htext⟩ : ∃ text, text = ascii '/' :: ascii '/' :: body := ⟨_, rfl⟩
      have hfuel : ws.length + 2 ≤ (ws ++ text).length := by
        rw [List.length_append, htext]
        simp only [List.length_cons]
        omega
      obtain ⟨fuel, hle, hrounds⟩ :=
        loop_trivia hws (show ws.length ≤ (ws ++ text).length by omega) text
      obtain ⟨fuel, rfl⟩ : ∃ f, fuel = f + 1 := ⟨fuel - 1, by omega⟩
      rw [← htext, skipTrivia, hrounds, htext, loop_comment, hline]
      exact loop_stop tokenStart_nil fuel

end PjhJson.Json5
