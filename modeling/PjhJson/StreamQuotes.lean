import PjhJson.StreamDom
import PjhJson.StrictUtf8

/-! The machine of events between two tokens stands outside of the strings of its text. So a string that it finds
open is the last of the text, and nothing closes it. -/

namespace PjhJson

open Grammar Reading

/-- The last string of the text has no closing quote. -/
def Unclosed (text : Bytes) : Prop := ∃ content, (content.length, content) ∈ stringContents text

theorem unclosed_append {before : Bytes} (h : ∀ c ∈ before, c ≠ ascii '"') (rest : Bytes) :
    Unclosed (before ++ rest) ↔ Unclosed rest := by
  rw [Unclosed, Unclosed, stringContents_append h]

theorem unclosed_skipped {rest : Bytes} (h : Unclosed (rest.dropWhile isWhitespace)) : Unclosed rest := by
  have hspace : ∀ c ∈ rest.takeWhile isWhitespace, c ≠ ascii '"' := by
    rintro c hmem rfl
    exact absurd (List.mem_takeWhile_imp hmem) (by decide)
  have happend := (unclosed_append hspace _).mpr h
  rwa [List.takeWhile_append_dropWhile] at happend

section RawContent

variable {escaped : Bool} {c : UInt8} {text : Bytes} (h : ¬(escaped = false ∧ c = ascii '"'))

include h

theorem rawContent_cons {raw rest : Bytes}
    (hraw : Pull.rawContent (!escaped && c == ascii '\\') text = some (raw, rest)) :
    Pull.rawContent escaped (c :: text) = some (c :: raw, rest) := by
  rw [Pull.rawContent, if_neg h, hraw]
  rfl

theorem rawContent_cons_none (hraw : Pull.rawContent (!escaped && c == ascii '\\') text = none) :
    Pull.rawContent escaped (c :: text) = none := by
  rw [Pull.rawContent, if_neg h, hraw]
  rfl

end RawContent

theorem rawContent_contentOf (text : Bytes) :
    Pull.rawContent false text =
        some (contentOf (ascii '"') text, text.drop ((contentOf (ascii '"') text).length + 1)) ∨
      Pull.rawContent false text = none ∧ contentOf (ascii '"') text = text := by
  fun_induction contentOf (ascii '"') text with
  | case1 => exact .inr ⟨rfl, rfl⟩
  | case2 => exact .inl rfl
  | case3 c hquote => exact .inr ⟨rawContent_cons_none (fun h => hquote h.2) rfl, rfl⟩
  | case4 d rest => exact .inl rfl
  | case5 d rest hquote ih =>
      have hescape : ¬(false = false ∧ ascii '\\' = ascii '"') := fun h => hquote h.2
      have hescaped : ¬(true = false ∧ d = ascii '"') := fun h => by cases h.1
      rcases ih with hsome | ⟨hnone, hall⟩
      · exact .inl (rawContent_cons hescape (rawContent_cons hescaped hsome))
      · rw [hall]
        exact .inr ⟨rawContent_cons_none hescape (rawContent_cons_none hescaped hnone), rfl⟩
  | case6 c d rest hquote hescape ih =>
      have hplain : ¬(false = false ∧ c = ascii '"') := fun h => hquote h.2
      have hstep : (!false && c == ascii '\\') = false := beq_eq_false_iff_ne.mpr hescape
      rw [← hstep] at ih
      rcases ih with hsome | ⟨hnone, hall⟩
      · exact .inl (rawContent_cons hplain hsome)
      · rw [hall]
        exact .inr ⟨rawContent_cons_none hplain hnone, rfl⟩

theorem stringContents_string (text : Bytes) : stringContents (ascii '"' :: text) =
    (text.length, contentOf (ascii '"') text) ::
      stringContents (text.drop ((contentOf (ascii '"') text).length + 1)) := by
  rw [stringContents, if_pos rfl]

/-- A string without a quote to end it. -/
theorem unclosed_open {text : Bytes} (h : Pull.rawContent false text = none) : Unclosed (ascii '"' :: text) := by
  rcases rawContent_contentOf text with hsome | ⟨-, hall⟩
  · rw [h] at hsome
    cases hsome
  · refine ⟨text, ?_⟩
    rw [stringContents_string, hall]
    exact List.mem_cons_self

/-- Behind a string that is closed. -/
theorem unclosed_behind {text raw rest : Bytes} (hraw : Pull.rawContent false text = some (raw, rest))
    (h : Unclosed rest) : Unclosed (ascii '"' :: text) := by
  obtain ⟨content, hmem⟩ := h
  rcases rawContent_contentOf text with hsome | ⟨hnone, -⟩
  · obtain ⟨-, rfl⟩ := Prod.mk.inj (Option.some.inj (hraw.symm.trans hsome))
    refine ⟨content, ?_⟩
    rw [stringContents_string]
    exact List.mem_cons_of_mem _ hmem
  · rw [hraw] at hnone
    cases hnone

/-! ### What fails in a closed string -/

/-- The run reports no missing quote. -/
def Spares {ε α : Type} (run : Res (ErrorCode × ε) α) : Prop :=
  ∀ failure, run = .error failure → failure.1 ≠ .unterminatedString

section Spares

variable {ε α β : Type} {code : ErrorCode}

theorem spares_ok (a : α) : Spares (.ok a : Res (ErrorCode × ε) α) := fun _ h => by cases h

theorem spares_error (hcode : code ≠ .unterminatedString) (anchor : ε) :
    Spares (.error (code, anchor) : Res (ErrorCode × ε) α) := by
  intro failure h
  cases h
  exact hcode

theorem spares_bind {run : Res (ErrorCode × ε) α} {next : α → Res (ErrorCode × ε) β} (h : Spares run)
    (hnext : ∀ a, Spares (next a)) : Spares (run >>= next) := by
  intro failure hfailure
  rcases Res.bind_eq_error.mp hfailure with hrun | ⟨a, -, hrun⟩
  · exact h failure hrun
  · exact hnext a failure hrun

theorem spares_readHexDigits (n code : Nat) (text : Bytes) : Spares (readHexDigits n code text) := by
  induction n generalizing code text with
  | zero => exact spares_ok _
  | succ n ih =>
      cases text with
      | nil => exact spares_error (by decide) _
      | cons c text =>
          rw [readHexDigits]
          split
          · exact spares_error (by decide) _
          · exact ih _ _

theorem spares_readEncoded (cp : Nat) (text : Bytes) : Spares (readEncoded cp text) := by
  rw [readEncoded]
  split
  · exact spares_ok _
  · exact spares_error (by decide) _

theorem spares_readCodeUnit (cp : Nat) (text : Bytes) : Spares (readCodeUnit cp text) := by
  rw [readCodeUnit]
  split
  · split
    · rw [readLowSurrogate]
      refine spares_bind (spares_readHexDigits _ _ _) fun found => ?_
      dsimp only
      split
      · exact spares_readEncoded _ _
      · exact spares_error (by decide) _
    · exact spares_error (by decide) _
  · split
    · exact spares_error (by decide) _
    · exact spares_readEncoded _ _

theorem spares_readEscape (text : Bytes) : Spares (readEscape text) := by
  rw [readEscape]
  split
  · exact spares_error (by decide) _
  · split
    · exact spares_ok _
    split
    · exact spares_error (by decide) _
    · exact spares_bind (spares_readHexDigits _ _ _) fun found => spares_readCodeUnit _ _

end Spares

/-- The codes of the gate are its own. -/
def Utf8Checker.Own (ck : Utf8Checker) : Prop :=
  ck.code ≠ .unterminatedString ∧ ck.failCode ≠ .unterminatedString

section Own

variable {ck : Utf8Checker}

theorem own_start : ({} : Utf8Checker).Own := ⟨by decide, by decide⟩

theorem Utf8Checker.Own.set (h : ck.Own) {code : ErrorCode} (hcode : code ≠ .unterminatedString) (pos : Nat) :
    (ck.set code pos).Own := by
  rw [Utf8Checker.set]
  split
  · exact h
  · exact ⟨hcode, h.2⟩

theorem Utf8Checker.Own.begin (h : ck.Own) (need : Nat) (c1lo c1hi : UInt8) {failCode : ErrorCode}
    (hcode : failCode ≠ .unterminatedString) (pos : Nat) : (ck.begin need c1lo c1hi failCode pos).Own := ⟨h.1, hcode⟩

theorem Utf8Checker.Own.feed (h : ck.Own) (b : UInt8) (pos : Nat) : (ck.feed b pos).Own := by
  rw [Utf8Checker.feed]
  split
  · exact h
  split
  · rw [Utf8Checker.feedLead]
    repeat' split
    all_goals first | exact h | exact h.begin _ _ _ (by decide) _ | exact h.set (by decide) _
  · rw [Utf8Checker.feedContinuation]
    repeat' split
    all_goals first | exact h | exact h.set (by decide) _ | exact h.set h.2 _

theorem Utf8Checker.Own.finish (h : ck.Own) : ck.finish.Own := by
  rw [Utf8Checker.finish]
  split
  · exact h.set (by decide) _
  · exact h

theorem Utf8Checker.Own.feedRange (h : ck.Own) (text : Bytes) (pos : Nat) : (ck.feedRange text pos).Own := by
  induction text generalizing ck pos with
  | nil => exact h
  | cons b rest ih =>
      rw [Utf8Checker.feedRange]
      split
      · exact h
      · exact ih (h.feed b pos) _

theorem Utf8Checker.Own.spares_gate (h : ck.Own) : Spares (Pull.gate ck) := by
  rw [Pull.gate]
  split
  · exact spares_error h.1 _
  · exact spares_ok _

end Own

theorem spares_decodeRaw (strict : Bool) {fuel pos : Nat} {raw decoded : Bytes} {ck : Utf8Checker} (h : ck.Own) :
    Spares (Pull.decodeRaw strict fuel pos raw decoded ck) := by
  induction fuel generalizing pos raw decoded ck with
  | zero => exact fun _ heq => by cases heq
  | succ fuel ih =>
      cases raw with
      | nil =>
          have hck : (if strict then ck.finish else ck).Own := by
            split
            · exact h.finish
            · exact h
          exact spares_bind hck.spares_gate fun _ => spares_ok _
      | cons c raw =>
          have hck : (if strict then ck.feed c pos else ck).Own := by
            split
            · exact h.feed c pos
            · exact h
          refine spares_bind hck.spares_gate fun _ => ?_
          split
          · cases hescape : readEscape (c :: raw) with
            | stuck => exact fun _ heq => by cases heq
            | error failure => exact spares_error (spares_readEscape _ _ hescape) _
            | ok result => exact ih hck
          split
          · exact spares_error (by decide) _
          · exact ih hck

theorem spares_decodeContent (strict : Bool) (raw : Bytes) : Spares (Pull.decodeContent strict raw) := by
  rw [Pull.decodeContent]
  split
  · exact spares_decodeRaw strict own_start
  split
  · exact spares_error (by decide) _
  · have hck : (if strict then checkUtf8Strict raw else {}).Own := by
      split
      · exact (own_start.feedRange raw 0).finish
      · exact own_start
    exact spares_bind hck.spares_gate fun _ => spares_ok _

theorem scanAndClassify_code {platform : Platform} {p : Bytes} {failure : ErrorCode × Bytes}
    (h : scanAndClassify platform p = .error failure) : failure.1 ≠ .unterminatedString := by
  rw [scanAndClassify] at h
  split at h
  · cases h
    rename_i reason _ _
    have hreason : numberErrorCode reason ≠ .unterminatedString := by cases reason <;> decide
    exact hreason
  · rename_i scan rest _
    rw [classifyNumber] at h
    split at h
    · cases h
    · rw [doubleOf] at h
      repeat' split at h
      all_goals cases h
      all_goals simp

/-! ### The machine -/

/-- The machine has not failed, and stands outside of the strings of `input`. -/
structure Unquoted (input : Bytes) (p : Pull) : Prop where
  failure : p.failure = none
  unclosed : Unclosed p.rest → Unclosed input

/-- The run leaves the machine outside of strings, and reports a missing quote only where one is missing. -/
def Balances (input : Bytes) {α : Type} (run : Res Pull (α × Pull)) : Prop :=
  match run with
  | .ok (_, q) => Unquoted input q
  | .error q => ∀ left, q.failure = some { code := .unterminatedString, left } → Unclosed input
  | .stuck => True

variable {platform : Platform} {cfg : Config} {mode : StreamMode} {input : Bytes} {p q : Pull} {α β : Type}

theorem Unquoted.same (hp : Unquoted input p) (hfailure : q.failure = p.failure) (hrest : q.rest = p.rest) :
    Unquoted input q :=
  ⟨hfailure.trans hp.failure, fun h => hp.unclosed (hrest ▸ h)⟩

theorem Unquoted.behind (hp : Unquoted input p) {before rest : Bytes} (hsplit : p.rest = before ++ rest)
    (h : ∀ c ∈ before, c ≠ ascii '"') : Unquoted input { p with rest } := by
  refine ⟨hp.failure, fun hrest => hp.unclosed ?_⟩
  rw [hsplit]
  exact (unclosed_append h rest).mpr hrest

theorem balances_bind {program : Prog Pull α} {next : α → Prog Pull β} (h : Balances input (program p))
    (hnext : ∀ a q, Unquoted input q → Balances input (next a q)) : Balances input ((program >>= next) p) := by
  rw [Prog.bind_apply]
  cases hrun : program p with
  | ok result =>
      rw [hrun] at h
      exact hnext result.1 result.2 h
  | error q =>
      rw [hrun] at h
      exact h
  | stuck => trivial

section Rules

variable (hp : Unquoted input p)

include hp

theorem balances_record {failure : Failure} (hcode : failure.code ≠ .unterminatedString) :
    Balances input ((Pull.record failure >>= fun _ => Prog.halt : Prog Pull α) p) := by
  have hrecord : Pull.record failure p = .ok ((), { p with failure := some failure }) := by
    rw [Pull.record, Prog.modify_apply, hp.failure]
    rfl
  rw [Prog.bind_of_ok hrecord, Prog.halt_apply]
  intro left h
  exact absurd (congrArg Failure.code (Option.some.inj h)) hcode

theorem balances_fail {code : ErrorCode} (hcode : code ≠ .unterminatedString) (left : Nat) :
    Balances input ((Pull.fail code left : Prog Pull α) p) := balances_record hp hcode

theorem balances_failHere {code : ErrorCode} (hcode : code ≠ .unterminatedString) :
    Balances input ((Pull.failHere code : Prog Pull α) p) := balances_fail hp hcode _

theorem balances_failContext {code : ErrorCode} (hcode : code ≠ .unterminatedString) :
    Balances input ((Pull.failContext code : Prog Pull α) p) := balances_record hp hcode

theorem balances_finish : Balances input ((Pull.finish : Prog Pull α) p) := by
  intro left h
  rw [show _ = p.failure from rfl, hp.failure] at h
  cases h

theorem balances_setOut (event : JsonEvent) : Balances input (Pull.setOut event p) := hp.same rfl rfl

theorem balances_setPhase (phase : Frame.Phase) : Balances input (Pull.setPhase phase p) := by
  rw [Pull.setPhase, Prog.modify_apply]
  split
  · exact hp
  · exact hp.same rfl rfl

theorem balances_completeValue : Balances input (Pull.completeValue p) := by
  rw [Pull.completeValue, Prog.modify_apply]
  split
  · exact hp.same rfl rfl
  · exact hp.same rfl rfl

theorem Unquoted.skipWs : Unquoted input { p with rest := p.rest.dropWhile isWhitespace } :=
  ⟨hp.failure, fun h => hp.unclosed (unclosed_skipped h)⟩

theorem balances_skipWs : Balances input (Pull.skipWs p) := hp.skipWs

/-- Past a byte that is no quote. -/
theorem balances_advance (hrest : p.rest ≠ []) (hc : p.rest.headD 0 ≠ ascii '"') :
    Balances input (Pull.advance 1 p) := by
  obtain ⟨c, rest, hcons⟩ := List.exists_cons_of_ne_nil hrest
  rw [hcons, List.headD_cons] at hc
  have hdrop : p.rest.drop 1 = rest := by rw [hcons, List.drop_succ_cons, List.drop_zero]
  rw [Pull.advance, Prog.modify_apply, hdrop]
  have hsplit : p.rest = [c] ++ rest := hcons
  exact hp.behind hsplit (List.forall_mem_singleton.mpr hc)

/-! ### Tokens -/

theorem balances_stringToken (strict : Bool) (hc : p.rest.headD 0 = ascii '"') (hrest : p.rest ≠ []) :
    Balances input (Pull.stringToken strict p) := by
  obtain ⟨c, text, hcons⟩ := List.exists_cons_of_ne_nil hrest
  rw [hcons, List.headD_cons] at hc
  subst hc
  have hdrop : p.rest.drop 1 = text := by rw [hcons, List.drop_succ_cons, List.drop_zero]
  rw [Pull.stringToken, Pull.advance, Prog.bind_modify, Prog.bind_get]
  simp only [hdrop]
  cases hraw : Pull.rawContent false text with
  | none => exact fun _ _ => hp.unclosed (hcons ▸ unclosed_open hraw)
  | some content =>
      obtain ⟨raw, rest⟩ := content
      have hbehind : Unquoted input { p with rest } :=
        ⟨hp.failure, fun h => hp.unclosed (hcons ▸ unclosed_behind hraw h)⟩
      simp only
      rw [Pull.moveTo, Prog.bind_modify]
      cases hcontent : Pull.decodeContent strict raw with
      | stuck => trivial
      | ok value => exact hbehind
      | error failure =>
          obtain ⟨code, pos⟩ := failure
          have hcode := spares_decodeContent strict raw _ hcontent
          cases pos with
          | none => exact balances_failContext hbehind hcode
          | some pos => exact balances_fail hbehind hcode _

theorem balances_checkAfterLiteral : Balances input (Pull.checkAfterLiteral p) := by
  rw [Pull.checkAfterLiteral, Prog.bind_get]
  split
  · exact balances_failHere hp (by decide)
  · exact hp

theorem balances_literal : Balances input (Pull.literal p) := by
  rw [Pull.literal, Prog.bind_of_ok (show Pull.peek p = .ok (p.rest.headD 0, p) from rfl), Prog.bind_get]
  split
  · rename_i htake
    obtain ⟨literal, hliteral⟩ : ∃ literal, literal = StreamReader.literalOf (p.rest.headD 0) := ⟨_, rfl⟩
    have hquotes : ∀ c ∈ literal, c ≠ ascii '"' := by
      rw [hliteral, StreamReader.literalOf]
      repeat' split
      all_goals decide +kernel
    rw [← hliteral] at htake ⊢
    have hsplit : p.rest = literal ++ p.rest.drop literal.length := by
      calc p.rest = p.rest.take literal.length ++ p.rest.drop literal.length := (List.take_append_drop _ _).symm
        _ = literal ++ p.rest.drop literal.length := by rw [htake]
    have hadvance : Balances input (Pull.advance literal.length p) := hp.behind hsplit hquotes
    apply balances_bind hadvance
    intro _ q hq
    exact balances_bind (balances_checkAfterLiteral hq) fun _ _ hq => balances_setOut hq _
  · exact balances_failHere hp (by decide)

theorem balances_number : Balances input (Pull.number platform p) := by
  rw [Pull.number, Prog.bind_get]
  cases hscan : scanAndClassify platform p.rest with
  | error failure => exact balances_fail hp (scanAndClassify_code hscan) _
  | ok result =>
      obtain ⟨number, rest⟩ := result
      obtain ⟨parts, hrest, -, -⟩ := (scanAndClassify_eq_ok platform).mp hscan
      exact balances_setOut (hp.behind hrest (number_quotes parts)) _

/-! ### Values -/

theorem balances_beginContainer (kind : Frame.Kind) (type : EventType) (hrest : p.rest ≠ [])
    (hc : p.rest.headD 0 ≠ ascii '"') : Balances input (Pull.beginContainer cfg kind type p) := by
  rw [Pull.beginContainer, Prog.bind_get]
  split
  · exact balances_failHere hp (by decide)
  · rw [Prog.bind_modify]
    have hopened : Unquoted input { p with stack := Frame.opened kind :: p.stack } := hp.same rfl rfl
    exact balances_bind (balances_advance hopened hrest hc) fun _ _ hq => balances_setOut hq _

theorem balances_expectValue (atRoot : Bool) : Balances input (Pull.expectValue platform cfg atRoot p) := by
  rw [Pull.expectValue]
  apply balances_bind (balances_skipWs hp)
  intro _ q hq
  rw [Prog.bind_get]
  split
  · exact balances_failHere hq (by cases atRoot <;> decide)
  · rename_i hrest
    rw [Prog.bind_of_ok (show Pull.peek q = .ok (q.rest.headD 0, q) from rfl)]
    split
    · rename_i hc
      exact balances_beginContainer hq _ _ hrest (hc ▸ by decide)
    split
    · rename_i hc
      exact balances_beginContainer hq _ _ hrest (hc ▸ by decide)
    split
    · rename_i hc
      apply balances_bind (balances_stringToken hq _ hc hrest)
      intro text q hq
      exact balances_bind (balances_setOut hq _) fun _ _ hq => balances_completeValue hq
    split
    · exact balances_bind (balances_literal hq) fun _ _ hq => balances_completeValue hq
    split
    · exact balances_bind (balances_number hq) fun _ _ hq => balances_completeValue hq
    · exact balances_failHere hq (by cases atRoot <;> decide)

theorem balances_endContainer (type : EventType) (hrest : p.rest ≠ []) (hc : p.rest.headD 0 ≠ ascii '"') :
    Balances input (Pull.endContainer type p) := by
  rw [Pull.endContainer]
  apply balances_bind (balances_advance hp hrest hc)
  intro _ q hq
  rw [Prog.bind_modify]
  have hclosed : Unquoted input { q with stack := q.stack.tail } := hq.same rfl rfl
  exact balances_bind (balances_setOut hclosed _) fun _ _ hq => balances_completeValue hq

/-! ### Pulls -/

theorem balances_afterRoot : Balances input (Pull.afterRoot mode p) := by
  rw [Pull.afterRoot, Prog.bind_get]
  cases mode with
  | singleRoot =>
      apply balances_bind (balances_skipWs hp)
      intro _ q hq
      rw [Prog.bind_get]
      split
      · exact balances_finish hq
      · exact balances_failHere hq (by decide)
  | multiValue =>
      dsimp only
      split
      · exact balances_finish hp
      rw [Prog.bind_of_ok (show Pull.peek p = .ok (p.rest.headD 0, p) from rfl)]
      split
      · apply balances_bind (balances_skipWs hp)
        intro _ q hq
        rw [Prog.bind_get]
        split
        · exact balances_finish hq
        · exact hq.same rfl rfl
      · exact balances_failHere hp (by decide)

theorem balances_rootValue : Balances input (Pull.rootValue platform cfg mode p) := by
  cases mode with
  | singleRoot => exact balances_expectValue hp true
  | multiValue =>
      rw [Pull.rootValue]
      apply balances_bind (balances_skipWs hp)
      intro _ q hq
      rw [Prog.bind_get]
      split
      · exact balances_finish hq
      · exact balances_expectValue hq true

theorem balances_objectKey (mayEnd : Bool) : Balances input (Pull.objectKey cfg mayEnd p) := by
  rw [Pull.objectKey]
  apply balances_bind (balances_skipWs hp)
  intro _ q hq
  rw [Prog.bind_get]
  split
  · exact balances_failHere hq (by decide)
  rename_i hrest
  rw [Prog.bind_of_ok (show Pull.peek q = .ok (q.rest.headD 0, q) from rfl)]
  split
  · rename_i hc
    exact balances_endContainer hq _ hrest (hc.1 ▸ by decide)
  split
  · exact balances_failHere hq (by decide)
  · rename_i hc
    apply balances_bind (balances_stringToken hq _ (not_not.mp hc) hrest)
    intro text q hq
    exact balances_bind (balances_setPhase hq _) fun _ _ hq => balances_setOut hq _

theorem balances_objectColon : Balances input (Pull.objectColon p) := by
  rw [Pull.objectColon]
  apply balances_bind (balances_skipWs hp)
  intro _ q hq
  rw [Prog.bind_get]
  split
  · exact balances_failHere hq (by decide)
  rename_i hrest
  rw [Prog.bind_of_ok (show Pull.peek q = .ok (q.rest.headD 0, q) from rfl)]
  split
  · exact balances_failHere hq (by decide)
  · rename_i hc
    have hcolon : q.rest.headD 0 ≠ ascii '"' := not_not.mp hc ▸ by decide
    exact balances_bind (balances_advance hq hrest hcolon) fun _ _ hq => balances_setPhase hq _

theorem balances_commaOrEnd {close : UInt8} (type : EventType) {atEnd unexpected : ErrorCode}
    (phase : Frame.Phase) (hclose : close ≠ ascii '"') (hatEnd : atEnd ≠ .unterminatedString)
    (hunexpected : unexpected ≠ .unterminatedString) :
    Balances input (Pull.commaOrEnd close type atEnd unexpected phase p) := by
  rw [Pull.commaOrEnd]
  apply balances_bind (balances_skipWs hp)
  intro _ q hq
  rw [Prog.bind_get]
  split
  · exact balances_failHere hq hatEnd
  rename_i hrest
  rw [Prog.bind_of_ok (show Pull.peek q = .ok (q.rest.headD 0, q) from rfl)]
  split
  · rename_i hc
    exact balances_bind (balances_endContainer hq _ hrest (hc ▸ hclose)) fun _ _ hq => hq
  split
  · rename_i hc
    apply balances_bind (balances_advance hq hrest (hc ▸ by decide))
    intro _ q hq
    exact balances_bind (balances_setPhase hq _) fun _ _ hq => hq
  · exact balances_failHere hq hunexpected

theorem balances_arrayValueOrEnd : Balances input (Pull.arrayValueOrEnd platform cfg p) := by
  rw [Pull.arrayValueOrEnd]
  apply balances_bind (balances_skipWs hp)
  intro _ q hq
  rw [Prog.bind_get]
  split
  · exact balances_failHere hq (by decide)
  rename_i hrest
  rw [Prog.bind_of_ok (show Pull.peek q = .ok (q.rest.headD 0, q) from rfl)]
  split
  · rename_i hc
    exact balances_endContainer hq _ hrest (hc ▸ by decide)
  · exact balances_expectValue hq false

end Rules

theorem balances_nextLoop (hp : Unquoted input p) (fuel : Nat) :
    Balances input (Pull.nextLoop platform cfg mode fuel p) := by
  induction fuel generalizing p with
  | zero => trivial
  | succ fuel ih =>
      have hround : ∀ {program : Prog Pull Bool}, Balances input (program p) →
          Balances input ((program >>= fun ended =>
            if ended then pure () else Pull.nextLoop platform cfg mode fuel) p) := by
        intro program hprogram
        apply balances_bind hprogram
        intro ended q hq
        cases ended with
        | true => exact hq
        | false => exact ih hq
      rw [Pull.nextLoop, Prog.bind_get]
      split
      · intro left h
        rw [hp.failure] at h
        cases h
      split
      · exact balances_bind (balances_afterRoot hp) fun _ _ hq => ih hq
      cases p.stack with
      | nil => exact balances_rootValue hp
      | cons f outer =>
          dsimp only
          cases f.phase with
          | objectKeyOrEnd => exact balances_objectKey hp _
          | objectKey => exact balances_objectKey hp _
          | objectColon => exact balances_bind (balances_objectColon hp) fun _ _ hq => ih hq
          | objectValue => exact balances_expectValue hp _
          | objectCommaOrEnd => exact hround (balances_commaOrEnd hp _ _ (by decide) (by decide) (by decide))
          | arrayValueOrEnd => exact balances_arrayValueOrEnd hp
          | arrayValue => exact balances_expectValue hp _
          | arrayCommaOrEnd => exact hround (balances_commaOrEnd hp _ _ (by decide) (by decide) (by decide))

/-- A pull begins and ends outside of strings. -/
theorem balances_next (hp : Unquoted input p) : Balances input (Pull.next platform cfg mode p) := by
  have hbom : Balances input (Pull.skipStartBom cfg p) := by
    rw [Pull.skipStartBom, Prog.modify_apply]
    split
    · exact hp
    split
    · rename_i hmark
      have htake : p.rest.take 3 = [0xEF, 0xBB, 0xBF] := by
        simpa [startsWithUtf8Bom] using (Bool.and_eq_true_iff.mp hmark).2
      have hbehind : Unquoted input { p with rest := p.rest.drop 3 } :=
        hp.behind (List.take_append_drop 3 p.rest).symm (by rw [htake]; decide +kernel)
      exact hbehind.same rfl rfl
    · exact hp.same rfl rfl
  exact balances_bind hbom fun _ _ hq => balances_nextLoop hq 2

/-- Whatever pulls come before: a missing quote is reported only of a text that lacks one. -/
theorem unclosed_of_pulls {events : List JsonEvent} {left : Option Nat}
    (h : Prog.LeadsTo (Pull.next platform cfg mode) Pull.out (Pull.next platform cfg mode { rest := input }) events
      (.error q)) (hq : q.failure = some { code := .unterminatedString, left }) : Unclosed input := by
  have hruns : ∀ {run last : Res Pull (Unit × Pull)} {items : List JsonEvent},
      Prog.LeadsTo (Pull.next platform cfg mode) Pull.out run items last → Balances input run →
        Balances input last := by
    intro run last items hleads hrun
    induction hleads with
    | refl => exact hrun
    | step _ ih => exact ih (balances_next hrun)
  exact hruns h (balances_next ⟨rfl, id⟩) left hq

end PjhJson
