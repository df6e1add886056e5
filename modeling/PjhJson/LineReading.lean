import PjhJson.GrammarSound
import PjhJson.LineOnward
import PjhJson.RfcNesting

/-! Reading a line with other lines behind it, and reading it alone. As long as the reading stays inside the
line, the one does what the other does: the bounds of the line and the NUL behind a text are told apart by
no reader. -/

namespace PjhJson.Reading

open Grammar Prog

variable {platform : Platform} {cfg : Config} {more : Bytes} {α β : Type}

/-- The reading has gone behind the line. Only the whitespace of RFC 8259 is skipped without a bound. -/
def Passed (cfg : Config) (more : Bytes) (r : Reading) : Prop :=
  cfg.json5 = false ∧ r.rest.length < more.length

/-- In front of `u`, the rest of a line, `program` does with `more` behind the line what `alone` does. -/
structure Within (cfg : Config) (more u : Bytes) (program alone : Prog Reading α) : Prop where
  inner : ∀ a u', alone { rest := u } = .ok (a, { rest := u' }) →
    program { rest := u ++ more } = .ok (a, { rest := u' ++ more })
  outer : ∀ a r, program { rest := u ++ more } = .ok (a, r) → Clear r →
    Passed cfg more r ∨ (∃ u', r.rest = u' ++ more ∧ alone { rest := u } = .ok (a, { rest := u' })) ∨
      alone { rest := u } = .stuck

theorem within_pure (u : Bytes) (a : α) : Within cfg more u (pure a) (pure a) where
  inner a' u' h := by
    obtain ⟨rfl, hr⟩ := Prod.mk.inj (Res.ok.inj h)
    obtain rfl : u = u' := congrArg Reading.rest hr
    rfl
  outer a' r h _ := by
    obtain ⟨rfl, rfl⟩ := Prod.mk.inj (Res.ok.inj h)
    exact .inr (.inl ⟨u, rfl, rfl⟩)

/-- What does not return does not go on. -/
theorem fails_bind {program : Prog Reading α} {next : α → Prog Reading β} {r : Reading}
    (h : Yields (program r) fun _ _ => False) : Yields ((program >>= next) r) fun _ _ => False :=
  yields_bind h fun _ _ hfalse => hfalse.elim

/-- Neither of them returns. -/
theorem within_fails {u : Bytes} {program alone : Prog Reading α}
    (h : Yields (program { rest := u ++ more }) fun _ _ => False)
    (halone : Yields (alone { rest := u }) fun _ _ => False) : Within cfg more u program alone where
  inner a _ hrun := (halone a _ hrun).elim
  outer a r hrun _ := (h a r hrun).elim

theorem within_failHere (u : Bytes) (code : ErrorCode) :
    Within cfg more u (failHere code : Prog Reading α) (failHere code) :=
  within_fails (yields_failHere code) (yields_failHere code)

/-- The line alone has run out of fuel. -/
theorem within_stuck (u : Bytes) (program : Prog Reading α) : Within cfg more u program stuck where
  inner a u' hrun := by cases hrun
  outer _ _ _ _ := .inr (.inr rfl)

theorem within_bind {u : Bytes} {program alone : Prog Reading α} {next next' : α → Prog Reading β}
    (h : Within cfg more u program alone) (hnext : ∀ a u', Within cfg more u' (next a) (next' a))
    (honward : ∀ a, Onward (next a)) (honward' : ∀ a, Onward (next' a)) :
    Within cfg more u (program >>= next) (alone >>= next') where
  inner b u'' hrun := by
    rw [bind_apply, Res.bind_eq_ok] at hrun
    obtain ⟨⟨a, rest, failure⟩, halone, hrest⟩ := hrun
    obtain rfl : failure = none := (honward' a _ _ _ hrest).2 rfl
    rw [bind_of_ok (h.inner a rest halone)]
    exact (hnext a rest).inner b u'' hrest
  outer b r hrun hclear := by
    rw [bind_apply, Res.bind_eq_ok] at hrun
    obtain ⟨⟨a, r'⟩, hprogram, hrest⟩ := hrun
    obtain ⟨hsuffix, hback⟩ := honward a _ _ _ hrest
    have hclear' : Clear r' := hback hclear
    rcases h.outer a r' hprogram hclear' with hpassed | ⟨u', hsplit, halone⟩ | hstuck
    · exact .inl ⟨hpassed.1, Nat.lt_of_le_of_lt hsuffix.length_le hpassed.2⟩
    · obtain ⟨rest, failure⟩ := r'
      obtain rfl : failure = none := hclear'
      obtain rfl : rest = u' ++ more := hsplit
      rw [bind_of_ok halone]
      exact (hnext a u').outer b r hrest hclear
    · refine .inr (.inr ?_)
      rw [bind_apply, hstuck, Res.stuck_bind]

theorem within_ite {u : Bytes} {c : Prop} [Decidable c] {program alone program' alone' : Prog Reading α}
    (h : c → Within cfg more u program alone) (h' : ¬c → Within cfg more u program' alone') :
    Within cfg more u (if c then program else program') (if c then alone else alone') := by
  split
  · exact h ‹_›
  · exact h' ‹_›

theorem within_get {u : Bytes} {next next' : Reading → Prog Reading α}
    (h : Within cfg more u (next { rest := u ++ more }) (next' { rest := u })) :
    Within cfg more u (get >>= next) (get >>= next') where
  inner := h.inner
  outer := h.outer

theorem within_peek {u : Bytes} {next next' : UInt8 → Prog Reading α}
    (h : Within cfg more u (next (here { rest := u ++ more })) (next' (here { rest := u }))) :
    Within cfg more u (peek >>= next) (peek >>= next') where
  inner := h.inner
  outer := h.outer

theorem within_advance_of_le {u : Bytes} {count : Nat} (hcount : count ≤ u.length)
    {next next' : Unit → Prog Reading α} (h : Within cfg more (u.drop count) (next ()) (next' ())) :
    Within cfg more u (advance count >>= next) (advance count >>= next') := by
  have hstart : (advance count >>= next) { rest := u ++ more } = next () { rest := u.drop count ++ more } := by
    rw [advance, bind_modify, List.drop_append_of_le_length hcount]
  have hstart' : (advance count >>= next') { rest := u } = next' () { rest := u.drop count } := rfl
  exact ⟨fun a u' => by rw [hstart, hstart']; exact h.inner a u', fun a r => by
    rw [hstart, hstart']; exact h.outer a r⟩

theorem within_advance {c : UInt8} {u : Bytes} {next next' : Unit → Prog Reading α}
    (h : Within cfg more u (next ()) (next' ())) :
    Within cfg more (c :: u) (advance 1 >>= next) (advance 1 >>= next') :=
  within_advance_of_le (Nat.le_add_left 1 u.length) h

/-! ### The end of the line -/

/-- A line ends in front of whitespace that is no part of a token. -/
def Ends (more : Bytes) : Prop := ∃ c rest, more = c :: rest ∧ isWhitespace c = true ∧ c < 0x20

theorem atEnd_within (u : Bytes) (more : Bytes) :
    atEnd more.length { rest := u ++ more } = atEnd 0 { rest := u } := by
  have hlength : (u ++ more).length ≤ more.length ↔ u.length ≤ 0 := by
    rw [List.length_append]
    omega
  exact decide_eq_decide.mpr hlength

theorem atEnd_self (more : Bytes) : atEnd more.length { rest := more } = true := decide_eq_true (le_refl _)

theorem body_within (u : Bytes) (more : Bytes) :
    body more.length { rest := u ++ more } = u ∧ body 0 { rest := u } = u := by
  rw [body, body, List.length_append, Nat.add_sub_cancel, List.take_left, Nat.sub_zero, List.take_length]
  exact ⟨rfl, rfl⟩

theorem within_advanceTo {u : Bytes} (rest : Bytes) {next next' : Unit → Prog Reading α}
    (h : Within cfg more (u.drop (u.length - rest.length)) (next ()) (next' ())) :
    Within cfg more u (advanceTo more.length rest >>= next) (advanceTo 0 rest >>= next') := by
  obtain ⟨hbody, hbody'⟩ := body_within u more
  have hstart : (advanceTo more.length rest >>= next) { rest := u ++ more } =
      next () { rest := u.drop (u.length - rest.length) ++ more } := by
    rw [advanceTo, bind_modify, hbody, List.drop_append_of_le_length (Nat.sub_le _ _)]
  have hstart' : (advanceTo 0 rest >>= next') { rest := u } =
      next' () { rest := u.drop (u.length - rest.length) } := by
    rw [advanceTo, bind_modify, hbody']
  exact ⟨fun a u' => by rw [hstart, hstart']; exact h.inner a u', fun a r => by
    rw [hstart, hstart']; exact h.outer a r⟩

theorem within_record (u : Bytes) (failure failure' : Failure) :
    Within cfg more u (record failure) (record failure') where
  inner a u' h := by
    rw [record_none rfl] at h
    cases congrArg Reading.failure (Prod.mk.inj (Res.ok.inj h)).2
  outer a r h hclear := by
    rw [record_none rfl] at h
    obtain ⟨-, rfl⟩ := Prod.mk.inj (Res.ok.inj h)
    cases hclear

/-- Trivia are skipped inside the line. -/
theorem within_skipTrivia (hjson5 : cfg.json5 = true) (u : Bytes) :
    Within cfg more u (skipWhitespace cfg more.length) (skipWhitespace cfg 0) := by
  obtain ⟨hbody, hbody'⟩ := body_within u more
  rw [skipWhitespace, skipWhitespace, if_pos hjson5, if_pos hjson5, skipTriviaHere, skipTriviaHere]
  refine within_get ?_
  rw [hbody, hbody']
  cases hskip : skipTrivia u with
  | none => exact within_stuck u _
  | some result =>
      obtain ⟨rest, unterminated⟩ := result
      refine within_advanceTo rest (within_ite (fun _ => ?_) fun _ => within_pure _ ())
      exact within_record _ _ _

/-- Whitespace, and what needs a byte behind it. -/
theorem within_skip (hmore : Ends more) (u : Bytes) {next next' : Unit → Prog Reading α}
    (hnext : ∀ c u', Within cfg more (c :: u') (next ()) (next' ()))
    (hend : Yields (next' () { rest := [] }) fun _ _ => False)
    (hend' : cfg.json5 = true → Yields (next () { rest := more }) fun _ _ => False)
    (honward : Onward (next ())) (honward' : Onward (next' ())) :
    Within cfg more u (skipWhitespace cfg more.length >>= next) (skipWhitespace cfg 0 >>= next') := by
  cases hjson5 : cfg.json5 with
  | true =>
      refine within_bind (within_skipTrivia hjson5 u) (fun _ u' => ?_) (fun _ => honward) fun _ => honward'
      cases u' with
      | nil => exact within_fails (hend' hjson5) hend
      | cons c u' => exact hnext c u'
  | false =>
      have hskip : ∀ (tail : Nat) (text : Bytes) (next : Unit → Prog Reading α),
          (skipWhitespace cfg tail >>= next) { rest := text } =
            next () { rest := text.dropWhile isWhitespace } := fun tail text next => by
        rw [skipWhitespace, hjson5, if_neg Bool.false_ne_true, bind_modify]
      cases hrest : u.dropWhile isWhitespace with
      | cons c u' =>
          have hboth : (u ++ more).dropWhile isWhitespace = c :: u' ++ more := by
            rw [List.dropWhile_append, hrest]
            rfl
          have hinner := hnext c u'
          exact ⟨fun a u'' => by rw [hskip, hskip, hrest, hboth]; exact hinner.inner a u'', fun a r => by
            rw [hskip, hskip, hrest, hboth]; exact hinner.outer a r⟩
      | nil =>
          have hboth : (u ++ more).dropWhile isWhitespace = more.dropWhile isWhitespace := by
            rw [List.dropWhile_append, hrest]
            rfl
          refine ⟨fun a u' h => ?_, fun a r h _ => .inl ⟨hjson5, ?_⟩⟩
          · rw [hskip, hrest] at h
            exact (hend a _ h).elim
          · rw [hskip, hboth] at h
            obtain ⟨c, rest, rfl, hc, -⟩ := hmore
            have hlength := (honward _ _ _ h).1.length_le
            rw [List.dropWhile_cons_of_pos hc] at hlength
            have hle := (List.dropWhile_suffix (p := isWhitespace) (l := rest)).length_le
            rw [List.length_cons]
            exact Nat.lt_succ_of_le (hlength.trans hle)

/-! ### Tokens -/

theorem within_checkDuplicateKey (u : Bytes) (members : List (Bytes × Ast)) (key : Bytes) :
    Within cfg more u (checkDuplicateKey cfg members key) (checkDuplicateKey cfg members key) :=
  within_ite (fun _ => within_fails (yields_failContext _ _) (yields_failContext _ _)) fun _ => within_pure u ()

/-- What has no control byte in it does not reach behind the line. -/
theorem begins_within (hmore : Ends more) {front : Bytes} (hfront : ∀ c ∈ front, ¬c < 0x20) (u : Bytes) :
    front <+: u ++ more ↔ front <+: u := by
  refine ⟨fun h => ?_, fun h => h.trans (List.prefix_append u more)⟩
  obtain ⟨c, rest, rfl, -, hc⟩ := hmore
  rcases Nesting.prefix_append_cases h with h | ⟨back, rfl, hback⟩
  · exact h
  · rcases List.prefix_cons_iff.mp hback with rfl | ⟨back, rfl, -⟩
    · rw [List.append_nil]
    · exact absurd hc (hfront c (by simp))

theorem take_literal (hmore : Ends more) {literal : Bytes} (h : ∀ c ∈ literal, ¬c < 0x20) (u : Bytes) :
    (u ++ more).take literal.length = literal ↔ u.take literal.length = literal := by
  rw [eq_comm, ← List.prefix_iff_eq_take, begins_within hmore h, List.prefix_iff_eq_take, eq_comm]

theorem literal_printable {literal : Bytes} (h : literal = kTrue ∨ literal = kNull ∨ literal = kFalse) :
    ∀ c ∈ literal, ¬c < 0x20 := by
  have hall : literal.all fun c => !(c < 0x20) := by
    rcases h with rfl | rfl | rfl <;> decide
  intro c hmem
  simpa using List.all_eq_true.mp hall c hmem

theorem literalHere_within (hmore : Ends more) (u : Bytes) :
    literalHere { rest := u ++ more } = literalHere { rest := u } := by
  have htrue : (u ++ more).take 4 = kTrue ↔ u.take 4 = kTrue :=
    take_literal hmore (literal_printable (.inl rfl)) u
  have hnull : (u ++ more).take 4 = kNull ↔ u.take 4 = kNull :=
    take_literal hmore (literal_printable (.inr (.inl rfl))) u
  have hfalse : (u ++ more).take 5 = kFalse ↔ u.take 5 = kFalse :=
    take_literal hmore (literal_printable (.inr (.inr rfl))) u
  rw [literalHere, literalHere]
  simp only [htrue, hnull, hfalse]

theorem length_literalHere {u : Bytes} {value : Ast} {length : Nat}
    (h : literalHere { rest := u } = some (value, length)) : length ≤ u.length := by
  have htake : ∀ literal : Bytes, u.take literal.length = literal → literal.length ≤ u.length := fun _ h =>
    (List.prefix_iff_eq_take.mpr h.symm).length_le
  rw [literalHere] at h
  split_ifs at h with htrue hnull hfalse
  · obtain ⟨-, rfl⟩ := Prod.mk.inj (Option.some.inj h)
    exact htake kTrue htrue
  · obtain ⟨-, rfl⟩ := Prod.mk.inj (Option.some.inj h)
    exact htake kNull hnull
  · obtain ⟨-, rfl⟩ := Prod.mk.inj (Option.some.inj h)
    exact htake kFalse hfalse

theorem within_readLiteral (hmore : Ends more) (u : Bytes) :
    Within cfg more u (readLiteral cfg) (readLiteral cfg) := by
  refine within_get ?_
  rw [literalHere_within hmore]
  cases hliteral : literalHere { rest := u } with
  | none => exact within_failHere u _
  | some result =>
      obtain ⟨value, length⟩ := result
      have hlength := length_literalHere hliteral
      have hafter : isAfterLiteral (here { rest := u.drop length ++ more }) =
          isAfterLiteral (here { rest := u.drop length }) := by
        cases u.drop length with
        | cons c u => rfl
        | nil =>
            obtain ⟨c, rest, rfl, hc, -⟩ := hmore
            rw [isAfterLiteral]
            simp only [List.nil_append, here, List.headD_cons, hc, Bool.or_true, Bool.true_or]
            rfl
      refine within_advance_of_le hlength (within_peek ?_)
      rw [hafter]
      exact within_ite (fun _ => within_pure _ value) fun _ => within_failHere _ _

theorem within_readNumber (u : Bytes) :
    Within cfg more u (readNumber platform cfg more.length) (readNumber platform cfg 0) := by
  obtain ⟨hbody, hbody'⟩ := body_within u more
  refine within_get ?_
  rw [hbody, hbody']
  cases parseNumberToken platform cfg u with
  | error failure => exact within_fails (yields_fail _ _) (yields_fail _ _)
  | ok result => exact within_advanceTo result.2 (within_pure _ _)

/-! ### Strings -/

/-- Only the error at an open end depends on what is behind the text. -/
theorem readStringBody_tail {r : Reading} {result : Bytes × Reading} (tail : Nat) :
    readStringBody cfg tail r = .ok result ↔ readStringBody cfg 0 r = .ok result := by
  have hopen : ∀ (tail : Nat) (r : Reading), Yields ((get >>= fun r =>
      if r.atEnd tail then failHere .unterminatedString else failHere .unescapedControl : Prog Reading Bytes) r)
      fun _ _ => False := fun tail r => by
    rw [bind_get]
    exact yields_ite (yields_failHere _) (yields_failHere _)
  rw [readStringBody, readStringBody, bind_get, bind_get]
  simp only
  rw [advance, bind_modify, bind_modify, bind_peek, bind_peek]
  split
  · exact Iff.rfl
  split
  · exact Iff.rfl
  · exact ⟨fun h => (hopen tail _ _ _ h).elim, fun h => (hopen 0 _ _ _ h).elim⟩

/-- A closed string inside the line is read from the line. -/
theorem within_readStringBody (hmore : Ends more) (u : Bytes) :
    Within cfg more u (readStringBody cfg more.length) (readStringBody cfg 0) := by
  have hclosed : ∀ {content value rest : Bytes}, Rfc.Characters content value →
      Pull.rawContent false (content ++ ascii '"' :: rest) = some (content, rest) := fun hcontent =>
    rawContent_eq_some.mpr ⟨rfl, closed_characters hcontent⟩
  -- what is read is what the content decodes to, whatever is behind the closing quote
  have hsame : ∀ {content value rest : Bytes}, Rfc.Characters content value → ∀ decoded,
      readStringBody cfg 0 { rest := content ++ ascii '"' :: rest } = .ok (decoded, { rest }) ↔
        Pull.decodeContent cfg.strictUtf8 content = .ok decoded := by
    intro content value rest hcontent decoded
    rcases decodes_readStringBody cfg (hclosed hcontent) with hdecodes | ⟨-, _, _, _, r, hmodel, -, hrun, -⟩
    · cases hmodel : Pull.decodeContent cfg.strictUtf8 content with
      | stuck => exact absurd hmodel (decodeContent_ne_stuck _ _)
      | ok text =>
          rw [hmodel] at hdecodes
          rw [show readStringBody cfg 0 { rest := content ++ ascii '"' :: rest } = _ from hdecodes]
          simp
      | error failure =>
          rw [hmodel] at hdecodes
          obtain ⟨r, hrun, -⟩ := hdecodes
          rw [hrun]
          exact iff_of_false (fun h => by cases h) fun h => by cases h
    · rw [hmodel, hrun]
      exact iff_of_false (fun h => by cases h) fun h => by cases h
  refine ⟨fun a u' h => ?_, fun a r h hclear => ?_⟩
  · obtain ⟨content, hcontent, hrest⟩ := yields_readStringBody _ _ h
    obtain rfl : u = content ++ ascii '"' :: u' := hrest
    rw [hsame hcontent] at h
    rw [readStringBody_tail, List.append_assoc, List.cons_append, hsame hcontent]
    exact h
  · rw [readStringBody_tail] at h
    obtain ⟨content, hcontent, hrest⟩ := yields_readStringBody _ _ h
    obtain ⟨rest, failure⟩ := r
    obtain rfl : failure = none := hclear
    have hrest' : u ++ more = content ++ ascii '"' :: rest := hrest
    have hprintable : ∀ c ∈ content ++ [ascii '"'], ¬c < 0x20 :=
      List.forall_mem_append.mpr ⟨characters_printable hcontent, List.forall_mem_singleton.mpr (by decide)⟩
    have hbegins : content ++ [ascii '"'] <+: u ++ more := ⟨rest, by rw [hrest', List.append_assoc]; rfl⟩
    obtain ⟨u', hu⟩ := (begins_within hmore hprintable u).mp hbegins
    rw [List.append_assoc, List.singleton_append] at hu
    have hsplit : rest = u' ++ more := by
      rw [← hu, List.append_assoc, List.cons_append] at hrest'
      exact (List.cons.inj (List.append_cancel_left hrest')).2.symm
    refine .inr (.inl ⟨u', hsplit, ?_⟩)
    rw [hrest', hsame hcontent] at h
    rw [← hu, hsame hcontent]
    exact h

/-- Both go on from the same place. -/
theorem within_of_runs {u u' : Bytes} {program alone : Prog Reading α} {a : α} {next next' : α → Prog Reading β}
    (hprogram : program { rest := u ++ more } = .ok (a, { rest := u' ++ more }))
    (halone : alone { rest := u } = .ok (a, { rest := u' })) (h : Within cfg more u' (next a) (next' a)) :
    Within cfg more u (program >>= next) (alone >>= next') := by
  have hstart : (program >>= next) { rest := u ++ more } = next a { rest := u' ++ more } := bind_of_ok hprogram next
  have hstart' : (alone >>= next') { rest := u } = next' a { rest := u' } := bind_of_ok halone next'
  exact ⟨fun b u'' => by rw [hstart, hstart']; exact h.inner b u'', fun b r => by
    rw [hstart, hstart']; exact h.outer b r⟩

theorem within_bind_fails {u : Bytes} {program alone : Prog Reading α} {next next' : α → Prog Reading β}
    (h : Yields (program { rest := u ++ more }) fun _ _ => False)
    (halone : Yields (alone { rest := u }) fun _ _ => False) :
    Within cfg more u (program >>= next) (alone >>= next') :=
  within_fails (fails_bind h) (fails_bind halone)

theorem within_checkUtf8 {u : Bytes} {left left' : Nat} {ck : Utf8Checker} {next next' : Unit → Prog Reading α}
    (h : Within cfg more u (next ()) (next' ())) :
    Within cfg more u (checkUtf8 left ck >>= next) (checkUtf8 left' ck >>= next') := by
  by_cases hfailed : ck.failed = true
  · rw [checkUtf8, checkUtf8, if_pos hfailed, if_pos hfailed]
    exact within_bind_fails (yields_fail _ _) (yields_fail _ _)
  · rw [checkUtf8, checkUtf8, if_neg hfailed, if_neg hfailed]
    exact within_of_runs rfl rfl h

theorem within_checkDepth {u : Bytes} {depth : Nat} {next next' : Unit → Prog Reading α}
    (h : Within cfg more u (next ()) (next' ())) :
    Within cfg more u (checkDepth cfg depth >>= next) (checkDepth cfg depth >>= next') := by
  by_cases hdepth : cfg.maxDepth ≠ 0 ∧ cfg.maxDepth < depth + 1
  · rw [checkDepth, if_pos hdepth]
    exact within_bind_fails (yields_failHere _) (yields_failHere _)
  · rw [checkDepth, if_neg hdepth]
    exact within_of_runs rfl rfl h

/-- An escape that is decoded inside the line. -/
theorem within_decodeEscape {u : Bytes} (decoder : Bytes → Res EscapeError (Bytes × Bytes))
    {next next' : Bytes → Prog Reading α}
    (h : ∀ written u', Within cfg more u' (next written) (next' written)) :
    Within cfg more u (decodeEscape (body more.length) decoder >>= next)
      (decodeEscape (body 0) decoder >>= next') := by
  obtain ⟨hbody, hbody'⟩ := body_within u more
  have hrun : ∀ (tail : Nat) (text : Bytes), body tail { rest := text } = u →
      (∀ written rest, decoder u = .ok (written, rest) → decodeEscape (body tail) decoder { rest := text } =
          .ok (written, { rest := text.drop (u.length - rest.length) })) ∧
        (∀ error, decoder u = .error error →
          Yields (decodeEscape (body tail) decoder { rest := text }) fun _ _ => False) ∧
        (decoder u = .stuck → decodeEscape (body tail) decoder { rest := text } = .stuck) := by
    intro tail text htext
    rw [decodeEscape, bind_get, htext]
    refine ⟨fun written rest hdecoder => ?_, fun error hdecoder => ?_, fun hdecoder => ?_⟩
    · rw [hdecoder]
      rfl
    · rw [hdecoder]
      obtain ⟨code, anchor⟩ := error
      cases anchor with
      | none => exact yields_failContext _ _
      | some anchor => exact yields_fail _ _
    · rw [hdecoder]
      rfl
  obtain ⟨hok, herror, -⟩ := hrun more.length (u ++ more) hbody
  obtain ⟨hok', herror', hstuck'⟩ := hrun 0 u hbody'
  cases hdecoder : decoder u with
  | stuck =>
      refine ⟨fun a u' hfinal => ?_, fun a r _ _ => .inr (.inr ?_)⟩
      · rw [bind_apply, hstuck' hdecoder] at hfinal
        cases hfinal
      · rw [bind_apply, hstuck' hdecoder, Res.stuck_bind]
  | error error => exact within_bind_fails (herror _ hdecoder) (herror' _ hdecoder)
  | ok result =>
      obtain ⟨written, rest⟩ := result
      refine within_of_runs ?_ (hok' _ _ hdecoder) (h written _)
      rw [hok _ _ hdecoder, List.drop_append_of_le_length (Nat.sub_le _ _)]

theorem within_stringLoopJson5 (quote : UInt8) {left left' : Nat} (hleft : left = left' + more.length)
    {fuel fuel' : Nat} (hfuel : fuel' ≤ fuel) (u decoded : Bytes) (ck : Utf8Checker) :
    Within cfg more u (stringLoopJson5 cfg more.length quote left fuel decoded ck)
      (stringLoopJson5 cfg 0 quote left' fuel' decoded ck) := by
  induction fuel' generalizing fuel u decoded ck with
  | zero => exact within_stuck u _
  | succ fuel' ih =>
      obtain ⟨fuel, rfl⟩ : ∃ k, fuel = k + 1 := ⟨fuel - 1, by omega⟩
      rw [stringLoopJson5, stringLoopJson5]
      refine within_get ?_
      rw [atEnd_within]
      refine within_ite (fun _ => within_failHere u _) fun hend => ?_
      cases u with
      | nil => exact absurd rfl hend
      | cons c u =>
          have hpos : left - ((c :: u) ++ more).length = left' - (c :: u).length := by
            rw [hleft, List.length_append]
            omega
          refine within_peek (within_ite (fun _ => ?_) fun _ => ?_)
          · exact within_checkUtf8 (within_advance (within_pure u decoded))
          · simp only [hpos]
            refine within_checkUtf8 (within_ite (fun _ => ?_) fun _ => ?_)
            · exact within_decodeEscape _ fun written u' => ih (Nat.le_of_succ_le_succ hfuel) u' _ _
            · exact within_ite (fun _ => within_failHere _ _) fun _ =>
                within_advance (ih (Nat.le_of_succ_le_succ hfuel) u _ _)

theorem within_readStringJson5 (quote : UInt8) (c : UInt8) (u : Bytes) :
    Within cfg more (c :: u) (readStringJson5 cfg more.length quote) (readStringJson5 cfg 0 quote) := by
  refine within_advance (within_get ?_)
  exact within_stringLoopJson5 quote (List.length_append) (Nat.succ_le_succ (by simp)) u [] {}

theorem within_readString (hmore : Ends more) (u : Bytes) :
    Within cfg more u (readString cfg more.length) (readString cfg 0) := by
  refine within_get ?_
  rw [atEnd_within]
  refine within_ite (fun _ => within_failHere u _) fun hend => ?_
  cases u with
  | nil => exact absurd rfl hend
  | cons c u =>
      refine within_peek (within_ite (fun _ => within_failHere _ _) fun _ => within_ite (fun _ => ?_) fun _ => ?_)
      · exact within_readStringJson5 _ c u
      · exact within_advance (within_readStringBody hmore u)

theorem within_identifierLoop {fuel fuel' : Nat} (hfuel : fuel' ≤ fuel) (u : Bytes) (first : Bool) (decoded : Bytes) :
    Within cfg more u (identifierLoop more.length fuel first decoded) (identifierLoop 0 fuel' first decoded) := by
  induction fuel' generalizing fuel u first decoded with
  | zero => exact within_stuck u _
  | succ fuel' ih =>
      obtain ⟨fuel, rfl⟩ : ∃ k, fuel = k + 1 := ⟨fuel - 1, by omega⟩
      obtain ⟨hbody, hbody'⟩ := body_within u more
      rw [identifierLoop, identifierLoop]
      refine within_get ?_
      rw [hbody, hbody']
      cases identifierUnit u with
      | none => exact within_pure u decoded
      | some unit =>
          obtain ⟨cp, spelling, rest⟩ := unit
          refine within_ite (fun _ => within_pure u decoded) fun _ => ?_
          cases spelling with
          | none => exact within_fails (yields_failContext _ _) (yields_failContext _ _)
          | some written => exact within_advanceTo rest (ih (Nat.le_of_succ_le_succ hfuel) _ _ _)

theorem within_readIdentifierKey (u : Bytes) :
    Within cfg more u (readIdentifierKey more.length) (readIdentifierKey 0) := by
  have honward : ∀ (length : Nat) (key : Bytes), Onward (get >>= fun r =>
      if r.rest.length = length then failHere .expectedStringKey else pure key : Prog Reading Bytes) :=
    fun _ _ => onward_get fun _ => onward_ite (onward_failHere _) (onward_pure _)
  refine within_get (within_bind (within_identifierLoop (Nat.succ_le_succ (by simp)) u true [])
    (fun key u' => within_get ?_) (honward _) (honward _))
  have hlength : (u' ++ more).length = (u ++ more).length ↔ u'.length = u.length := by
    rw [List.length_append, List.length_append, Nat.add_right_cancel_iff]
  simp only [hlength]
  exact within_ite (fun _ => within_failHere u' _) fun _ => within_pure u' key

/-- At the end there is no key. -/
theorem readKey_end {tail : Nat} {r : Reading} (hend : r.atEnd tail = true) (hhere : r.here ≠ ascii '"') :
    Yields (readKey cfg tail r) fun _ _ => False := by
  have hinside : ¬(cfg.json5 = true ∧ r.atEnd tail = false) := by simp [hend]
  rw [readKey, bind_get, if_neg hinside, if_pos hhere]
  exact yields_failHere _

/-- What stands at the end of a line begins no token. -/
theorem here_ends (hmore : Ends more) (c : UInt8) (hc : ¬c < 0x20) : here { rest := more } ≠ c := by
  obtain ⟨d, rest, rfl, -, hd⟩ := hmore
  rintro rfl
  exact hc hd

theorem within_readKey (hmore : Ends more) (u : Bytes) :
    Within cfg more u (readKey cfg more.length) (readKey cfg 0) := by
  cases u with
  | nil =>
      exact within_fails (readKey_end (atEnd_self more) (here_ends hmore _ (by decide)))
        (readKey_end rfl (by decide))
  | cons c u =>
      refine within_get ?_
      rw [atEnd_within]
      refine within_ite (fun _ => within_ite (fun _ => within_readStringJson5 _ c u) fun _ => ?_) fun _ => ?_
      · exact within_ite (fun _ => within_readIdentifierKey _) fun _ => within_readString hmore _
      · exact within_ite (fun _ => within_failHere _ _) fun _ => within_readString hmore _

/-! ### Containers -/

/-- What follows an item: the end of the container, or the items behind a comma. -/
theorem within_comma {u : Bytes} {c : UInt8} {done : α} {loop loop' : Prog Reading α} (hloop : Onward loop)
    (hloop' : Onward loop') (h : ∀ u', Within cfg more u' loop loop') :
    Within cfg more u
      (closedAfterComma skipWhitespace cfg more.length c >>= fun closed =>
        if closed then do
          advance 1
          pure done
        else loop)
      (closedAfterComma skipWhitespace cfg 0 c >>= fun closed =>
        if closed then do
          advance 1
          pure done
        else loop') := by
  have hrest : ∀ u', Within cfg more u'
      (atByte more.length c >>= fun closed => if closed then advance 1 >>= fun _ => pure done else loop)
      (atByte 0 c >>= fun closed => if closed then advance 1 >>= fun _ => pure done else loop') := by
    intro u'
    cases u' with
    | nil =>
        have hatByte : atByte more.length c { rest := [] ++ more } = .ok (false, { rest := [] ++ more }) := by
          rw [atByte, bind_get, atEnd_within, if_pos (by rfl)]
          rfl
        exact within_of_runs hatByte rfl (h [])
    | cons d u' =>
        have hatByte : atByte more.length c { rest := d :: u' ++ more } =
            .ok (d == c, { rest := d :: u' ++ more }) := by
          rw [atByte, bind_get, atEnd_within, if_neg (by simp [atEnd])]
          rfl
        refine within_of_runs hatByte rfl ?_
        exact within_ite (fun _ => within_advance (within_pure u' done)) fun _ => h (d :: u')
  have honward : ∀ {tail : Nat} {loop : Prog Reading α}, Onward loop → Onward
      (atByte tail c >>= fun closed => if closed then advance 1 >>= fun _ => pure done else loop) := fun hloop =>
    onward_bind (onward_atByte c) fun _ => onward_closed hloop
  cases hjson5 : cfg.json5 with
  | false =>
      have hclosed : ∀ tail r, closedAfterComma skipWhitespace cfg tail c r = .ok (false, r) := fun tail r => by
        rw [closedAfterComma, hjson5, if_neg Bool.false_ne_true]
        rfl
      exact within_of_runs (hclosed _ _) (hclosed _ _) (h u)
  | true =>
      rw [closedAfterComma, closedAfterComma, if_pos hjson5, if_pos hjson5, bind_assoc, bind_assoc]
      exact within_bind (within_skipTrivia hjson5 u) (fun _ u' => hrest u') (fun _ => honward hloop)
        fun _ => honward hloop'

theorem within_elementsLoop (hmore : Ends more) {element element' : Prog Reading Ast} (honward : Onward element)
    (honward' : Onward element') (h : ∀ u, Within cfg more u element element') {fuel fuel' : Nat}
    (hfuel : fuel' ≤ fuel) (u : Bytes) (elements : List Ast) :
    Within cfg more u (elementsLoop skipWhitespace cfg more.length element fuel elements)
      (elementsLoop skipWhitespace cfg 0 element' fuel' elements) := by
  induction fuel' generalizing fuel u elements with
  | zero => exact within_stuck u _
  | succ fuel' ih =>
      obtain ⟨fuel, rfl⟩ : ∃ k, fuel = k + 1 := ⟨fuel - 1, by omega⟩
      have hloop : ∀ elements, Onward (elementsLoop skipWhitespace cfg more.length element fuel elements) :=
        onward_elementsLoop honward fuel
      have hloop' : ∀ elements, Onward (elementsLoop skipWhitespace cfg 0 element' fuel' elements) :=
        onward_elementsLoop honward' fuel'
      have hnext := fun u elements => ih (Nat.le_of_succ_le_succ hfuel) u elements
      rw [elementsLoop, elementsLoop]
      refine within_bind (h u) (fun value u' => ?_)
        (fun _ => onward_bind onward_skipWhitespace fun _ => onward_afterElement (hloop _))
        fun _ => onward_bind onward_skipWhitespace fun _ => onward_afterElement (hloop' _)
      refine within_skip hmore u' (fun c u'' => ?_) ?_ (fun _ => ?_) (onward_afterElement (hloop _))
        (onward_afterElement (hloop' _))
      · refine within_peek (within_ite (fun _ => within_advance (within_pure _ _)) fun _ => ?_)
        refine within_ite (fun _ => within_advance ?_) fun _ => within_failHere _ _
        exact within_comma (hloop _) (hloop' _) fun u => hnext u _
      · rw [bind_peek]
        exact yields_failHere _
      · have hhere := here_ends hmore
        rw [bind_peek, if_neg (hhere _ (by decide)), if_neg (hhere _ (by decide))]
        exact yields_failHere _

/-- A member behind its key. -/
theorem within_memberValue {element element' : Prog Reading Ast} (honward : Onward element)
    (honward' : Onward element') (h : ∀ u, Within cfg more u element element') (hmore : Ends more) (u key : Bytes) :
    Within cfg more u
      (skipWhitespace cfg more.length >>= fun _ => peek >>= fun c =>
        if c ≠ ascii ':' then failHere .expectedColon
        else advance 1 >>= fun _ => element >>= fun value => pure (key, value))
      (skipWhitespace cfg 0 >>= fun _ => peek >>= fun c =>
        if c ≠ ascii ':' then failHere .expectedColon
        else advance 1 >>= fun _ => element' >>= fun value => pure (key, value)) := by
  refine within_skip hmore u (fun c u' => ?_) ?_ (fun _ => ?_) (onward_memberValue honward key)
    (onward_memberValue honward' key)
  · refine within_peek (within_ite (fun _ => within_failHere _ _) fun _ => within_advance ?_)
    exact within_bind (h u') (fun value u'' => within_pure u'' (key, value)) (fun _ => onward_pure _)
      fun _ => onward_pure _
  · rw [bind_peek]
    exact yields_failHere _
  · rw [bind_peek, if_pos (here_ends hmore _ (by decide))]
    exact yields_failHere _

theorem within_readMember (hmore : Ends more) {element element' : Prog Reading Ast} (honward : Onward element)
    (honward' : Onward element') (h : ∀ u, Within cfg more u element element') (u : Bytes)
    (members : List (Bytes × Ast)) :
    Within cfg more u (readMember skipWhitespace cfg more.length element members)
      (readMember skipWhitespace cfg 0 element' members) := by
  have htail : ∀ {tail : Nat} {element : Prog Reading Ast}, Onward element → ∀ key : Bytes, Onward
      (skipWhitespace cfg tail >>= fun _ => peek >>= fun c =>
        if c ≠ ascii ':' then failHere .expectedColon
        else advance 1 >>= fun _ => element >>= fun value => pure (key, value)) := fun h key =>
    onward_bind onward_skipWhitespace fun _ => onward_memberValue h key
  have hkey : ∀ {tail : Nat} {element : Prog Reading Ast}, Onward element → Onward (readKey cfg tail >>= fun key =>
      checkDuplicateKey cfg members key >>= fun _ => skipWhitespace cfg tail >>= fun _ => peek >>= fun c =>
        if c ≠ ascii ':' then failHere .expectedColon
        else advance 1 >>= fun _ => element >>= fun value => pure (key, value)) := fun h =>
    onward_bind onward_readKey fun key => onward_bind (onward_checkDuplicateKey _ _) fun _ => htail h key
  refine within_skip hmore u (fun c u' => ?_) ?_ (fun _ => ?_) (hkey honward) (hkey honward')
  · refine within_bind (within_readKey hmore _) (fun key u'' => ?_)
      (fun key => onward_bind (onward_checkDuplicateKey _ _) fun _ => htail honward key)
      fun key => onward_bind (onward_checkDuplicateKey _ _) fun _ => htail honward' key
    refine within_bind (within_checkDuplicateKey _ _ _) (fun _ u₃ => ?_) (fun _ => htail honward key)
      fun _ => htail honward' key
    exact within_memberValue honward honward' h hmore u₃ key
  · exact fails_bind (readKey_end rfl (by decide))
  · exact fails_bind (readKey_end (atEnd_self more) (here_ends hmore _ (by decide)))

theorem within_membersLoop (hmore : Ends more) {element element' : Prog Reading Ast} (honward : Onward element)
    (honward' : Onward element') (h : ∀ u, Within cfg more u element element') {fuel fuel' : Nat}
    (hfuel : fuel' ≤ fuel) (u : Bytes) (members : List (Bytes × Ast)) :
    Within cfg more u (membersLoop skipWhitespace cfg more.length element fuel members)
      (membersLoop skipWhitespace cfg 0 element' fuel' members) := by
  induction fuel' generalizing fuel u members with
  | zero => exact within_stuck u _
  | succ fuel' ih =>
      obtain ⟨fuel, rfl⟩ : ∃ k, fuel = k + 1 := ⟨fuel - 1, by omega⟩
      have hloop : ∀ members, Onward (membersLoop skipWhitespace cfg more.length element fuel members) :=
        onward_membersLoop honward fuel
      have hloop' : ∀ members, Onward (membersLoop skipWhitespace cfg 0 element' fuel' members) :=
        onward_membersLoop honward' fuel'
      have hnext := fun u members => ih (Nat.le_of_succ_le_succ hfuel) u members
      rw [membersLoop, membersLoop]
      refine within_bind (within_readMember hmore honward honward' h u members) (fun member u' => ?_)
        (fun _ => onward_bind onward_skipWhitespace fun _ => onward_afterMember (hloop _))
        fun _ => onward_bind onward_skipWhitespace fun _ => onward_afterMember (hloop' _)
      refine within_skip hmore u' (fun c u'' => ?_) ?_ (fun _ => ?_) (onward_afterMember (hloop _))
        (onward_afterMember (hloop' _))
      · refine within_get ?_
        rw [atEnd_within]
        refine within_ite (fun _ => within_failHere _ _) fun _ => ?_
        refine within_ite (fun _ => within_advance (within_pure _ _)) fun _ => ?_
        refine within_ite (fun _ => within_advance ?_) fun _ => within_failHere _ _
        exact within_comma (hloop _) (hloop' _) fun u => hnext u _
      · exact yields_failHere _
      · rw [bind_get, if_pos (atEnd_self more)]
        exact yields_failHere _

/-! ### Values -/

theorem skipWhitespace_end : Yields (skipWhitespace cfg 0 { rest := [] }) fun _ r => r.rest = [] :=
  fun _ r h => List.suffix_nil.mp (onward_skipWhitespace _ _ r h).1

theorem skipTrivia_end (hjson5 : cfg.json5 = true) :
    Yields (skipWhitespace cfg more.length { rest := more }) fun _ r => r.rest = more := by
  have hbody : body more.length { rest := more } = [] := by rw [body, Nat.sub_self, List.take_zero]
  rw [skipWhitespace, if_pos hjson5, skipTriviaHere, bind_get, hbody]
  cases skipTrivia [] with
  | none => exact yields_stuck
  | some result =>
      obtain ⟨rest, unterminated⟩ := result
      have hrest : more.drop (([] : Bytes).length - rest.length) = more := by rw [List.length_nil, Nat.zero_sub]; rfl
      simp only
      rw [advanceTo, bind_modify, hbody, hrest]
      refine yields_ite (fun _ r h => ?_) (yields_ok rfl)
      rw [record_none rfl] at h
      obtain ⟨-, rfl⟩ := Prod.mk.inj (Res.ok.inj h)
      rfl

/-- A control byte begins no value. -/
theorem readValueAt_control {tail depth : Nat} {element : Nat → Prog Reading Ast} (unexpected : ErrorCode)
    {c : UInt8} (hc : c < 0x20) :
    readValueAt skipWhitespace platform cfg tail depth element unexpected c = failHere unexpected := by
  have hne : ∀ d : UInt8, ¬d < 0x20 → c ≠ d := fun d hd h => hd (h ▸ hc)
  have hdigit : isDigit c = false := by
    have hlo : ¬ascii '0' ≤ c := UInt8.not_le.mpr (UInt8.lt_trans hc (by decide))
    rw [isDigit, decide_eq_false hlo, Bool.false_and]
  have hliteral : ¬(c = ascii 't' ∨ c = ascii 'f' ∨ c = ascii 'n') := by
    rintro (h | h | h) <;> exact hne _ (by decide) h
  have hnumber : ¬(c = ascii '-' ∨ isDigit c = true) := by
    rw [hdigit]
    exact not_or.mpr ⟨hne _ (by decide), Bool.false_ne_true⟩
  have hquote : ¬(cfg.json5 = true ∧ c = ascii '\'') := fun h => hne _ (by decide) h.2
  have hsign : ¬(cfg.json5 = true ∧ (c = ascii '+' ∨ c = ascii '.' ∨ c = ascii 'I' ∨ c = ascii 'N')) := by
    rintro ⟨-, h | h | h | h⟩ <;> exact hne _ (by decide) h
  rw [readValueAt, if_neg (hne _ (by decide)), if_neg (hne _ (by decide)), if_neg (hne _ (by decide)),
    if_neg hliteral, if_neg hnumber, if_neg hquote, if_neg hsign]

theorem elementsLoop_ends {tail fuel : Nat} {element : Prog Reading Ast} {elements : List Ast} {r : Reading}
    (h : Yields (element r) fun _ _ => False) :
    Yields (elementsLoop skipWhitespace cfg tail element fuel elements r) fun _ _ => False := by
  cases fuel with
  | zero => exact yields_stuck
  | succ fuel => exact fails_bind h

theorem membersLoop_ends {tail fuel : Nat} {element : Prog Reading Ast} {members : List (Bytes × Ast)} {r : Reading}
    {left : Bytes} (hskip : Yields (skipWhitespace cfg tail r) fun _ r' => r'.rest = left)
    (hkey : ∀ r', r'.rest = left → Yields (readKey cfg tail r') fun _ _ => False) :
    Yields (membersLoop skipWhitespace cfg tail element fuel members r) fun _ _ => False := by
  cases fuel with
  | zero => exact yields_stuck
  | succ fuel =>
      exact fails_bind (yields_bind hskip fun _ r' hr => fails_bind (hkey r' hr))

/-- Readers of elements in a line and of the same elements alone. -/
structure Elements (cfg : Config) (more : Bytes) (element alone : Nat → Prog Reading Ast) : Prop where
  onward : ∀ depth, Onward (element depth)
  onward' : ∀ depth, Onward (alone depth)
  within : ∀ depth u, Within cfg more u (element depth) (alone depth)
  ends : cfg.json5 = true → ∀ depth, Yields (element depth { rest := more }) fun _ _ => False
  ends' : ∀ depth, Yields (alone depth { rest := [] }) fun _ _ => False

theorem within_readArray (hmore : Ends more) {element alone : Nat → Prog Reading Ast}
    (h : Elements cfg more element alone) (depth : Nat) (c : UInt8) (u : Bytes) :
    Within cfg more (c :: u) (readArray skipWhitespace cfg more.length depth element)
      (readArray skipWhitespace cfg 0 depth alone) := by
  have hfuel : (c :: u).length ≤ (c :: u ++ more).length := by rw [List.length_append]; exact Nat.le_add_right _ _
  have hitems : ∀ u', Within cfg more u'
      (elementsLoop skipWhitespace cfg more.length (element (depth + 1)) (c :: u ++ more).length [])
      (elementsLoop skipWhitespace cfg 0 (alone (depth + 1)) (c :: u).length []) := fun u' =>
    within_elementsLoop hmore (h.onward _) (h.onward' _) (h.within _) hfuel u' []
  have honward : ∀ {tail fuel : Nat} {element : Nat → Prog Reading Ast}, (∀ depth, Onward (element depth)) →
      Onward (atByte tail (ascii ']') >>= fun empty =>
        if empty then advance 1 >>= fun _ => pure (Ast.array [])
        else elementsLoop skipWhitespace cfg tail (element (depth + 1)) fuel [] >>= fun elements =>
          pure (.array elements)) :=
    fun h => onward_bind (onward_atByte _) fun _ =>
      onward_closed (onward_bind (onward_elementsLoop (h _) _ _) fun _ => onward_pure _)
  refine within_get (within_checkDepth (within_advance ?_))
  refine within_skip hmore u (fun d u' => ?_) ?_ (fun hjson5 => ?_) (honward h.onward) (honward h.onward')
  · have hatByte : atByte more.length (ascii ']') { rest := d :: u' ++ more } =
        .ok (d == ascii ']', { rest := d :: u' ++ more }) := by
      rw [atByte, bind_get, atEnd_within, if_neg (by simp [atEnd])]
      rfl
    refine within_of_runs hatByte rfl (within_ite (fun _ => within_advance (within_pure u' _)) fun _ => ?_)
    exact within_bind (hitems _) (fun elements u'' => within_pure u'' _) (fun _ => onward_pure _) fun _ => onward_pure _
  · have hatByte : atByte 0 (ascii ']') { rest := [] } = .ok (false, { rest := [] }) := rfl
    rw [bind_of_ok hatByte, if_neg Bool.false_ne_true]
    exact fails_bind (elementsLoop_ends (h.ends' _))
  · have hatByte : atByte more.length (ascii ']') { rest := more } = .ok (false, { rest := more }) := by
      rw [atByte, bind_get, if_pos (atEnd_self more)]
      rfl
    rw [bind_of_ok hatByte, if_neg Bool.false_ne_true]
    exact fails_bind (elementsLoop_ends (h.ends hjson5 _))

theorem within_readObject (hmore : Ends more) {element alone : Nat → Prog Reading Ast}
    (h : Elements cfg more element alone) (depth : Nat) (c : UInt8) (u : Bytes) :
    Within cfg more (c :: u) (readObject skipWhitespace cfg more.length depth element)
      (readObject skipWhitespace cfg 0 depth alone) := by
  have hfuel : (c :: u).length ≤ (c :: u ++ more).length := by rw [List.length_append]; exact Nat.le_add_right _ _
  have hitems : ∀ u', Within cfg more u'
      (membersLoop skipWhitespace cfg more.length (element (depth + 1)) (c :: u ++ more).length [])
      (membersLoop skipWhitespace cfg 0 (alone (depth + 1)) (c :: u).length []) := fun u' =>
    within_membersLoop hmore (h.onward _) (h.onward' _) (h.within _) hfuel u' []
  have honward : ∀ {tail fuel : Nat} {element : Nat → Prog Reading Ast}, (∀ depth, Onward (element depth)) →
      Onward (peek >>= fun c =>
        if c = ascii '}' then advance 1 >>= fun _ => pure (Ast.object [])
        else membersLoop skipWhitespace cfg tail (element (depth + 1)) fuel [] >>= fun members =>
          pure (.object members)) :=
    fun h => onward_bind onward_peek fun _ =>
      onward_ite (onward_bind (onward_advance 1) fun _ => onward_pure _)
        (onward_bind (onward_membersLoop (h _) _ _) fun _ => onward_pure _)
  refine within_get (within_checkDepth (within_advance ?_))
  refine within_skip hmore u (fun d u' => within_peek ?_) ?_ (fun hjson5 => ?_) (honward h.onward) (honward h.onward')
  · refine within_ite (fun _ => within_advance (within_pure u' _)) fun _ => ?_
    exact within_bind (hitems _) (fun members u'' => within_pure u'' _) (fun _ => onward_pure _) fun _ => onward_pure _
  · have hhere : here { rest := [] } ≠ ascii '}' := by decide
    rw [bind_peek, if_neg hhere]
    refine fails_bind (membersLoop_ends skipWhitespace_end fun r hr => ?_)
    exact readKey_end (decide_eq_true (by rw [hr]; exact le_refl 0)) (by rw [here, hr]; decide)
  · rw [bind_peek, if_neg (here_ends hmore _ (by decide))]
    refine fails_bind (membersLoop_ends (skipTrivia_end hjson5) fun r hr => ?_)
    refine readKey_end (decide_eq_true (by rw [hr])) ?_
    rw [here, hr]
    exact here_ends hmore _ (by decide)

theorem within_readValueAt (hmore : Ends more) {element alone : Nat → Prog Reading Ast}
    (h : Elements cfg more element alone) (depth : Nat) (unexpected : ErrorCode) (c : UInt8) (u : Bytes) :
    Within cfg more (c :: u) (readValueAt skipWhitespace platform cfg more.length depth element unexpected c)
      (readValueAt skipWhitespace platform cfg 0 depth alone unexpected c) := by
  have hstring : ∀ value u', Within cfg more u' (pure (Ast.string value)) (pure (Ast.string value)) :=
    fun value u' => within_pure u' _
  refine within_ite (fun _ => within_readObject hmore h depth c u) fun _ => ?_
  refine within_ite (fun _ => within_readArray hmore h depth c u) fun _ => ?_
  refine within_ite (fun _ => within_bind (within_readString hmore _) hstring (fun _ => onward_pure _)
    fun _ => onward_pure _) fun _ => ?_
  refine within_ite (fun _ => within_readLiteral hmore _) fun _ => ?_
  refine within_ite (fun _ => within_readNumber _) fun _ => ?_
  refine within_ite (fun _ => within_bind (within_readStringJson5 _ c u) hstring (fun _ => onward_pure _)
    fun _ => onward_pure _) fun _ => ?_
  exact within_ite (fun _ => within_readNumber _) fun _ => within_failHere _ _

/-- At the end there is no value. -/
theorem valueHere_ends {tail depth : Nat} {element : Nat → Prog Reading Ast} (unexpected : ErrorCode) {r : Reading}
    (hr : r.here < 0x20) :
    Yields ((peek >>= fun c => readValueAt skipWhitespace platform cfg tail depth element unexpected c) r)
      fun _ _ => False := by
  rw [bind_peek, readValueAt_control _ hr]
  exact yields_failHere _

theorem readElement_ends {tail fuel depth : Nat} {text left : Bytes} (hleft : left.headD 0 < 0x20)
    (hskip : Yields (skipWhitespace cfg tail { rest := text }) fun _ r => r.rest = left) :
    Yields (readElement skipWhitespace platform cfg tail fuel depth { rest := text }) fun _ _ => False := by
  cases fuel with
  | zero => exact yields_stuck
  | succ fuel => exact yields_bind hskip fun _ r hr => valueHere_ends _ (by rwa [here, hr])

theorem headD_ends (hmore : Ends more) : more.headD 0 < 0x20 := by
  obtain ⟨c, rest, rfl, -, hc⟩ := hmore
  exact hc

theorem within_readElement (hmore : Ends more) {fuel fuel' : Nat} (depth : Nat)
    (h : Elements cfg more (readElement skipWhitespace platform cfg more.length fuel)
      (readElement skipWhitespace platform cfg 0 fuel')) (u : Bytes) :
    Within cfg more u (readElement skipWhitespace platform cfg more.length (fuel + 1) depth)
      (readElement skipWhitespace platform cfg 0 (fuel' + 1) depth) := by
  have honward : ∀ {tail fuel : Nat}, Onward (peek >>= fun c =>
      readValueAt skipWhitespace platform cfg tail depth
        (readElement skipWhitespace platform cfg tail fuel) .unexpectedCharacter c) :=
    onward_bind onward_peek fun c => onward_readValueAt depth (onward_readElement _) _ c
  exact within_skip hmore u (fun c u' => within_peek (within_readValueAt hmore h depth _ c u'))
    (valueHere_ends _ (by decide)) (fun _ => valueHere_ends _ (headD_ends hmore)) honward honward

theorem elements_of_within (hmore : Ends more) {fuel fuel' : Nat}
    (within : ∀ depth u, Within cfg more u (readElement skipWhitespace platform cfg more.length fuel depth)
      (readElement skipWhitespace platform cfg 0 fuel' depth)) :
    Elements cfg more (readElement skipWhitespace platform cfg more.length fuel)
      (readElement skipWhitespace platform cfg 0 fuel') where
  onward := onward_readElement fuel
  onward' := onward_readElement fuel'
  within := within
  ends hjson5 _ := readElement_ends (headD_ends hmore) (skipTrivia_end hjson5)
  ends' _ := readElement_ends (by decide) skipWhitespace_end

theorem elements_readElement (hmore : Ends more) {fuel fuel' : Nat} (hfuel : fuel' ≤ fuel) :
    Elements cfg more (readElement skipWhitespace platform cfg more.length fuel)
      (readElement skipWhitespace platform cfg 0 fuel') := by
  induction fuel' generalizing fuel with
  | zero => exact elements_of_within hmore fun _ u => within_stuck u _
  | succ fuel' ih =>
      obtain ⟨fuel, rfl⟩ : ∃ k, fuel = k + 1 := ⟨fuel - 1, by omega⟩
      have hinner := ih (Nat.le_of_succ_le_succ hfuel)
      exact elements_of_within hmore fun depth u => within_readElement hmore depth hinner u

theorem rootHere_ends {tail fuel : Nat} {r : Reading} (hr : r.here < 0x20) :
    Yields ((peek >>= fun c => get >>= fun r =>
      if c = 0 ∧ r.atEnd tail then failHere .unexpectedEndOfInput
      else readValueAt skipWhitespace platform cfg tail 0
        (readElement skipWhitespace platform cfg tail fuel) .unexpectedValueCharacter c) r)
      fun _ _ => False := by
  rw [bind_peek, bind_get, readValueAt_control _ hr]
  exact yields_ite (yields_failHere _) (yields_failHere _)

/-- Behind what may be skipped there is no value when nothing else is left. -/
theorem readValue_ends {tail fuel : Nat} {text left : Bytes} (hleft : left.headD 0 < 0x20)
    (hskip : Yields (skipWhitespace cfg tail { rest := text }) fun _ r => r.rest = left) :
    Yields (readValue skipWhitespace platform cfg tail fuel { rest := text }) fun _ _ => False :=
  yields_bind hskip fun _ r hr => rootHere_ends (by rwa [here, hr])

theorem within_readValue (hmore : Ends more) {fuel fuel' : Nat} (hfuel : fuel' ≤ fuel) (u : Bytes) :
    Within cfg more u (readValue skipWhitespace platform cfg more.length fuel)
      (readValue skipWhitespace platform cfg 0 fuel') := by
  have honward : ∀ {tail fuel : Nat}, Onward (peek >>= fun c => get >>= fun r =>
      if c = 0 ∧ r.atEnd tail then failHere .unexpectedEndOfInput
      else readValueAt skipWhitespace platform cfg tail 0
        (readElement skipWhitespace platform cfg tail fuel) .unexpectedValueCharacter c) :=
    onward_bind onward_peek fun c => onward_get fun r => onward_ite (onward_failHere _)
      (onward_readValueAt 0 (onward_readElement _) _ c)
  refine within_skip hmore u (fun c u' => within_peek (within_get ?_)) (rootHere_ends (by decide))
    (fun _ => rootHere_ends (headD_ends hmore)) honward honward
  rw [atEnd_within]
  exact within_ite (fun _ => within_failHere _ _) fun _ =>
    within_readValueAt hmore (elements_readElement hmore hfuel) 0 _ c u'

/-! ### A whole line -/

theorem skipLeadingBom_keeps (hbom : cfg.stripBom = false) (tail : Nat) (r : Reading) :
    skipLeadingBom cfg tail r = .ok ((), r) := by
  rw [skipLeadingBom, modify_apply, hbom, if_neg (by simp)]

/-- A reading of a text ends behind a value and what may be skipped behind it. -/
theorem readText_eq_ok (hbom : cfg.stripBom = false) {tail : Nat} {text : Bytes} {value : Ast} :
    (∃ r, readText skipWhitespace platform cfg tail { rest := text } = .ok (value, r)) ↔
      ∃ rest rest', readValue skipWhitespace platform cfg tail text.length { rest := text } = .ok (value, { rest }) ∧
        skipWhitespace cfg tail { rest } = .ok ((), { rest := rest' }) ∧ rest'.length ≤ tail := by
  have hcheck : ∀ text, failIfRecorded { rest := text } = .ok ((), { rest := text }) := fun _ => rfl
  constructor
  · rintro ⟨r, h⟩
    rw [readText, bind_get, bind_of_ok (skipLeadingBom_keeps hbom _ _), bind_apply, Res.bind_eq_ok] at h
    obtain ⟨⟨value', rest, failure⟩, hvalue, h⟩ := h
    rw [bind_apply, Res.bind_eq_ok] at h
    obtain ⟨⟨_, r₁⟩, hrecorded, h⟩ := h
    obtain ⟨rfl, hclear⟩ := failIfRecorded_ok hrecorded
    obtain rfl : failure = none := hclear
    rw [bind_apply, Res.bind_eq_ok] at h
    obtain ⟨⟨_, rest', failure'⟩, hskip, h⟩ := h
    rw [bind_apply, Res.bind_eq_ok] at h
    obtain ⟨⟨_, r₂⟩, hrecorded', h⟩ := h
    obtain ⟨rfl, hclear'⟩ := failIfRecorded_ok hrecorded'
    obtain rfl : failure' = none := hclear'
    rw [bind_get] at h
    split at h
    · rename_i hend
      obtain ⟨rfl, -⟩ := Prod.mk.inj (Res.ok.inj h)
      exact ⟨rest, rest', hvalue, hskip, of_decide_eq_true hend⟩
    · cases h
  · rintro ⟨rest, rest', hvalue, hskip, hend⟩
    have hatEnd : atEnd tail { rest := rest' } = true := decide_eq_true hend
    refine ⟨{ rest := rest' }, ?_⟩
    rw [readText, bind_get, bind_of_ok (skipLeadingBom_keeps hbom _ _), bind_of_ok hvalue, bind_of_ok (hcheck _),
      bind_of_ok hskip, bind_of_ok (hcheck _), bind_get, if_pos hatEnd]
    rfl

/-- Behind the value the end of the line is reached in both. -/
theorem skip_to_end (u : Bytes) :
    (∃ rest, skipWhitespace cfg more.length { rest := u ++ more } = .ok ((), { rest }) ∧
        rest.length ≤ more.length) ↔
      ∃ rest, skipWhitespace cfg 0 { rest := u } = .ok ((), { rest }) ∧ rest.length ≤ 0 := by
  cases hjson5 : cfg.json5 with
  | true =>
      have hwithin : Within cfg more u (skipWhitespace cfg more.length) (skipWhitespace cfg 0) :=
        within_skipTrivia hjson5 u
      constructor
      · rintro ⟨rest, hskip, hend⟩
        rcases hwithin.outer () _ hskip rfl with hpassed | ⟨u', rfl, halone⟩ | hstuck
        · exact absurd (hjson5.symm.trans hpassed.1) (by decide)
        · exact ⟨u', halone, by rw [List.length_append] at hend; omega⟩
        · exact absurd hstuck reads_skipWhitespace.ne_stuck
      · rintro ⟨rest, hskip, hend⟩
        exact ⟨rest ++ more, hwithin.inner () rest hskip, by rw [List.length_append]; omega⟩
  | false =>
      have hskip : ∀ (tail : Nat) (text : Bytes),
          skipWhitespace cfg tail { rest := text } = .ok ((), { rest := text.dropWhile isWhitespace }) :=
        fun tail text => by rw [skipWhitespace, hjson5, if_neg Bool.false_ne_true, modify_apply]
      have hleft : ∀ {tail : Nat} {text : Bytes},
          (∃ rest, skipWhitespace cfg tail { rest := text } = .ok ((), { rest }) ∧ rest.length ≤ tail) ↔
            (text.dropWhile isWhitespace).length ≤ tail := by
        intro tail text
        rw [hskip]
        constructor
        · rintro ⟨rest, h, hend⟩
          obtain rfl : text.dropWhile isWhitespace = rest :=
            congrArg Reading.rest (Prod.mk.inj (Res.ok.inj h)).2
          exact hend
        · exact fun hend => ⟨_, rfl, hend⟩
      rw [hleft, hleft]
      cases hrest : u.dropWhile isWhitespace with
      | nil =>
          have hboth : (u ++ more).dropWhile isWhitespace = more.dropWhile isWhitespace := by
            rw [List.dropWhile_append, hrest]
            rfl
          rw [hboth]
          exact iff_of_true (List.dropWhile_suffix _).length_le (le_refl _)
      | cons c u' =>
          have hboth : (u ++ more).dropWhile isWhitespace = c :: u' ++ more := by
            rw [List.dropWhile_append, hrest]
            rfl
          rw [hboth, List.length_append, List.length_cons]
          omega

/-- Without extensions no value begins inside the line and ends behind it, when what is behind it is nested by
itself. -/
theorem not_passed (hmore : Ends more) (hnested : WellNested more) {u rest : Bytes} {fuel : Nat} {value : Ast}
    (hjson5 : cfg.json5 = false) (hblank : ∃ c ∈ u, isWhitespace c = false)
    (h : readValue skipWhitespace platform cfg more.length fuel { rest := u ++ more } = .ok (value, { rest })) :
    ¬rest.length < more.length := by
  intro hlength
  have hspaces : ∀ {ws : Bytes} {c : UInt8}, Rfc.Whitespace ws → c ∈ ws → isWhitespace c ≠ false := by
    intro ws c hws hmem
    rcases hws c hmem with rfl | rfl | rfl | rfl <;> decide
  obtain ⟨ws, text, hws, htext, hsplit, -⟩ := yields_readValue hjson5 value _ h
  simp only at hsplit
  have hsuffix : rest <:+ more := by
    refine List.suffix_of_suffix_length_le ⟨ws ++ text, ?_⟩ (List.suffix_append u more) hlength.le
    rw [List.append_assoc, hsplit]
  obtain ⟨front, hfront⟩ := hsuffix
  obtain ⟨c, tail, hcons, -, hc⟩ := hmore
  cases front with
  | nil => exact absurd (congrArg List.length hfront) hlength.ne
  | cons d front =>
      obtain rfl : d = c := (List.cons.inj (hfront.trans hcons)).1
      have hwhole : u ++ d :: front ++ rest = ws ++ text ++ rest := by
        rw [List.append_assoc, List.append_assoc, hfront]
        exact hsplit
      have hhead : u ++ d :: front = ws ++ text := List.append_cancel_right hwhole
      obtain ⟨c, hmem, hspace⟩ := hblank
      rcases List.append_eq_append_iff.mp hhead with ⟨before, rfl, -⟩ | ⟨inside, rfl, hinside⟩
      · exact hspaces hws (List.mem_append_left before hmem) hspace
      · refine value_ends_inside htext hinside ?_ hc hnested ⟨rest, hfront⟩
        rintro rfl
        rw [List.append_nil] at hmem
        exact hspaces hws hmem hspace

/-- A line is read as a text of its own, whatever ends it. -/
theorem readText_line (hmore : Ends more) (hbom : cfg.stripBom = false) {u : Bytes}
    (hblank : cfg.json5 = false → ∃ c ∈ u, isWhitespace c = false) (hnested : cfg.json5 = false → WellNested more)
    (value : Ast) :
    (∃ r, readText skipWhitespace platform cfg more.length { rest := u ++ more } = .ok (value, r)) ↔
      ∃ r, readText skipWhitespace platform cfg 0 { rest := u } = .ok (value, r) := by
  have hfuel : u.length ≤ (u ++ more).length := by rw [List.length_append]; exact Nat.le_add_right _ _
  have hwithin : Within cfg more u (readValue skipWhitespace platform cfg more.length (u ++ more).length)
      (readValue skipWhitespace platform cfg 0 u.length) := within_readValue hmore hfuel u
  have hends : Reads { rest := u } (readValue skipWhitespace platform cfg 0 u.length { rest := u }) :=
    reads_readValue (le_refl u.length)
  rw [readText_eq_ok hbom, readText_eq_ok hbom]
  constructor
  · rintro ⟨rest, rest', hvalue, hskip, hend⟩
    rcases hwithin.outer value _ hvalue rfl with ⟨hjson5, hpassed⟩ | ⟨u', rfl, halone⟩ | hstuck
    · exact absurd hpassed (not_passed hmore (hnested hjson5) hjson5 (hblank hjson5) hvalue)
    · obtain ⟨rest, hskip', hend'⟩ := (skip_to_end u').mp ⟨rest', hskip, hend⟩
      exact ⟨u', rest, halone, hskip', hend'⟩
    · exact absurd hstuck hends.ne_stuck
  · rintro ⟨u', rest', halone, hskip, hend⟩
    obtain ⟨rest, hskip', hend'⟩ := (skip_to_end u').mpr ⟨rest', hskip, hend⟩
    exact ⟨u' ++ more, rest, hwithin.inner value u' halone, hskip', hend'⟩

end PjhJson.Reading
