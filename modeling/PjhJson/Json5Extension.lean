import PjhJson.ContractCopy
import PjhJson.Json5Tokens
import PjhJson.Utf8Gate

/-! JSON5 mode extends the strict mode: where the reading succeeds without JSON5, it succeeds with it,
with the same tree. The two runs go side by side. They differ in what they skip and in where a number
ends, so the strict run's success has to say which byte comes next. -/

namespace PjhJson

open Grammar Scanner

/-- The same parser settings in another mode. -/
def Config.mode (cfg : Config) (json5 : Bool) : Config := { cfg with json5 }

@[simp] theorem Config.mode_json5 (cfg : Config) (json5 : Bool) : (cfg.mode json5).json5 = json5 := rfl

@[simp] theorem Config.mode_strictUtf8 (cfg : Config) (json5 : Bool) :
    (cfg.mode json5).strictUtf8 = cfg.strictUtf8 := rfl

namespace Reading

variable {platform : Platform} {cfg : Config} {r : Reading} {α β : Type} {done : Reading → Prop}

/-- Where the strict run succeeds, in a state as described, the JSON5 run does the same. -/
def Extends (done : Reading → Prop) (strict json5 : Res Reading (α × Reading)) : Prop :=
  ∀ a r', strict = .ok (a, r') → done r' → json5 = .ok (a, r')

theorem extends_refl (run : Res Reading (α × Reading)) : Extends done run run := fun _ _ h _ => h

theorem extends_error {json5 : Res Reading (α × Reading)} (r' : Reading) :
    Extends done (.error r') json5 := fun _ _ h => by cases h

theorem extends_stuck {json5 : Res Reading (α × Reading)} : Extends done .stuck json5 :=
  fun _ _ h => by cases h

theorem extends_failHere {code : ErrorCode} {json5 : Res Reading (α × Reading)} :
    Extends done (failHere code r) json5 := extends_error _

/-- What the first part ends with is known from the success of the second part. -/
theorem extends_bind {mid : Reading → Prop} {first first' : Prog Reading α}
    {next next' : α → Prog Reading β} (h : Extends mid (first r) (first' r))
    (hmid : ∀ a r' b r'', first r = .ok (a, r') → next a r' = .ok (b, r'') → done r'' → mid r')
    (hnext : ∀ a r', first r = .ok (a, r') → Extends done (next a r') (next' a r')) :
    Extends done ((first >>= next) r) ((first' >>= next') r) := by
  intro b r'' hrun hdone
  rw [Prog.bind_apply, Res.bind_eq_ok] at hrun
  obtain ⟨⟨a, r'⟩, hfirst, hrun⟩ := hrun
  rw [Prog.bind_of_ok (h a r' hfirst (hmid a r' b r'' hfirst hrun hdone))]
  exact hnext a r' hfirst b r'' hrun hdone

/-- A first part whose success is the same success in JSON5, whatever follows. -/
theorem extends_next {first first' : Prog Reading α} {next next' : α → Prog Reading β}
    (h : Extends (fun _ => True) (first r) (first' r))
    (hnext : ∀ a r', first r = .ok (a, r') → Extends done (next a r') (next' a r')) :
    Extends done ((first >>= next) r) ((first' >>= next') r) :=
  extends_bind h (fun _ _ _ _ _ _ _ => trivial) hnext

/-- A first part that does not depend on the mode. -/
theorem extends_step {first : Prog Reading α} {next next' : α → Prog Reading β}
    (hnext : ∀ a r', first r = .ok (a, r') → Extends done (next a r') (next' a r')) :
    Extends done ((first >>= next) r) ((first >>= next') r) :=
  extends_next (extends_refl _) hnext

theorem extends_get {next next' : Reading → Prog Reading α}
    (h : Extends done (next r r) (next' r r)) :
    Extends done ((Prog.get >>= next) r) ((Prog.get >>= next') r) := h

theorem extends_peek {next next' : UInt8 → Prog Reading α}
    (h : Extends done (next r.here r) (next' r.here r)) :
    Extends done ((peek >>= next) r) ((peek >>= next') r) := h

theorem extends_ite {condition : Prop} [Decidable condition] {yes no yes' no' : Prog Reading α}
    (hyes : condition → Extends done (yes r) (yes' r))
    (hno : ¬condition → Extends done (no r) (no' r)) :
    Extends done ((if condition then yes else no) r) ((if condition then yes' else no') r) := by
  split
  · exact hyes ‹_›
  · exact hno ‹_›

/-! ### Whitespace -/

/-- The cursor is not in front of trivia that only JSON5 has. -/
def NoTrivia (r : Reading) : Prop := Stops isTriviaStart r.rest

theorem noTrivia_of_here {c : UInt8} (h : r.here = c) (hc : isTriviaStart c = false) : NoTrivia r := by
  intro b hb
  rw [here, List.headD_eq_head?_getD, hb, Option.getD_some] at h
  rw [h]
  exact hc

theorem extends_skipWhitespace : Extends NoTrivia (skipWhitespace (cfg.mode false) 0 r)
    (skipWhitespace (cfg.mode true) 0 r) := by
  intro _ r' hstrict htrivia
  rw [skipWhitespace, if_neg (show ¬(cfg.mode false).json5 = true from Bool.false_ne_true),
    Prog.modify_apply, Res.ok.injEq, Prod.mk.injEq] at hstrict
  obtain ⟨-, rfl⟩ := hstrict
  obtain ⟨ws, rest, hrest, hws, hstop⟩ := exists_run isWhitespace r.rest
  have hws' : Rfc.Whitespace ws := fun c hmem => isWhitespace_iff.mp (hws c hmem)
  have hbody : r.body 0 = ws ++ rest := by rw [body, Nat.sub_zero, List.take_length, hrest]
  have hdrop : r.rest.dropWhile isWhitespace = rest := by rw [hrest, dropWhile_run hws hstop]
  have hskip := skipTrivia_whitespace hws' hstop (show Stops isTriviaStart rest from hdrop ▸ htrivia)
  rw [skipWhitespace, if_pos (Config.mode_json5 cfg true), skipTriviaHere, Prog.bind_get, hbody, hskip]
  simp only
  rw [advanceTo, Prog.bind_modify, hbody, hdrop, hrest, List.length_append, Nat.add_sub_cancel,
    List.drop_left]
  rfl

/-! ### Strings -/

theorem body_zero (r : Reading) : r.body 0 = r.rest := by rw [body, Nat.sub_zero, List.take_length]

theorem checkUtf8_eq_ok {left : Nat} {ck : Utf8Checker} {r' : Reading} {result : Unit}
    (h : checkUtf8 left ck r = .ok (result, r')) : ck.failed = false ∧ r' = r := by
  rw [checkUtf8] at h
  split at h
  · cases h
  · rename_i hfailed
    cases h
    exact ⟨Bool.not_eq_true _ ▸ hfailed, rfl⟩

theorem decodeEscape_json5 {written : Bytes} {r' : Reading}
    (h : decodeEscape Reading.rest readEscape r = .ok (written, r')) :
    decodeEscape (body 0) handleEscapeJson5Bounded r = .ok (written, r') := by
  rw [decodeEscape, Prog.bind_get] at h ⊢
  rw [body_zero]
  cases hdecode : readEscape r.rest with
  | stuck => rw [hdecode] at h; cases h
  | error failure =>
      obtain ⟨code, anchor⟩ := failure
      rw [hdecode] at h
      cases anchor <;> cases h
  | ok result =>
      rw [hdecode] at h
      rw [handleEscapeJson5Bounded_of_read hdecode]
      exact h

theorem atEnd_of_here {c : UInt8} (hc : c ≠ 0) (h : r.here = c) : r.atEnd 0 = false := by
  obtain ⟨rest, hrest⟩ := here_cons hc h
  rw [atEnd, hrest, List.length_cons]
  exact decide_eq_false (Nat.not_succ_le_zero _)

/-- From an escape on, the strict loop and the JSON5 loop take the same steps. -/
theorem stringLoopJson5_of_decodeLoop {left fuel fuel' : Nat} {decoded value : Bytes}
    {ck : Utf8Checker} {r' : Reading} (hfuel : r.rest.length < fuel')
    (h : decodeLoop (cfg.mode false) left fuel decoded ck r = .ok (value, r')) :
    stringLoopJson5 (cfg.mode true) 0 (ascii '"') left fuel' decoded ck r = .ok (value, r') := by
  induction fuel generalizing fuel' r decoded ck with
  | zero => cases h
  | succ fuel ih =>
      obtain ⟨fuel', rfl⟩ := Nat.exists_eq_succ_of_ne_zero (Nat.ne_of_gt (Nat.zero_lt_of_lt hfuel))
      rw [decodeLoop, bind_peek, Config.mode_strictUtf8] at h
      rw [stringLoopJson5, Prog.bind_get, Config.mode_strictUtf8]
      by_cases hquote : r.here = ascii '"'
      · rw [if_pos hquote] at h
        rw [atEnd_of_here (by decide) hquote, if_neg Bool.false_ne_true, bind_peek, if_pos hquote]
        exact h
      rw [if_neg hquote, Prog.bind_get, Prog.bind_apply, Res.bind_eq_ok] at h
      obtain ⟨⟨_, r₀⟩, hcheck, h⟩ := h
      obtain ⟨hfailed, rfl⟩ := checkUtf8_eq_ok hcheck
      simp only at h
      have hstep : ∀ {r₁ : Reading} {decoded' : Bytes} {ck' : Utf8Checker},
          r₁.rest.length < r₀.rest.length →
          decodeLoop (cfg.mode false) left fuel decoded' ck' r₁ = .ok (value, r') →
          stringLoopJson5 (cfg.mode true) 0 (ascii '"') left fuel' decoded' ck' r₁ = .ok (value, r') :=
        fun hlength hrun => ih (Nat.lt_of_lt_of_le hlength (Nat.le_of_lt_succ hfuel)) hrun
      by_cases hescape : r₀.here = ascii '\\'
      · rw [if_pos hescape, Prog.bind_apply, Res.bind_eq_ok] at h
        obtain ⟨⟨written, r₁⟩, hdecode, h⟩ := h
        obtain ⟨spelling, hcharacter, hrest⟩ := yields_decodeEscape hescape written r₁ hdecode
        have hlength : r₁.rest.length < r₀.rest.length := by
          rw [hrest, List.length_append]
          have := hcharacter.length_pos
          omega
        rw [atEnd_of_here (by decide) hescape, if_neg Bool.false_ne_true, bind_peek, if_neg hquote,
          Prog.bind_of_ok hcheck, if_pos hescape, Prog.bind_of_ok (decodeEscape_json5 hdecode)]
        exact hstep hlength h
      rw [if_neg hescape] at h
      split at h
      · cases h
      rename_i hcontrol
      have hne : r₀.here ≠ 0 := fun hzero => hcontrol (by rw [hzero]; decide)
      obtain ⟨rest, hrest⟩ := here_cons hne rfl
      have hterminator : isJson5LineTerminatorAscii r₀.here = false := by
        rw [isJson5LineTerminatorAscii, Bool.or_eq_false_iff, beq_eq_false_iff_ne, beq_eq_false_iff_ne]
        refine ⟨?_, ?_⟩ <;> intro heq <;> exact hcontrol (by rw [heq]; decide)
      rw [atEnd_of_here hne rfl, if_neg Bool.false_ne_true, bind_peek, if_neg hquote,
        Prog.bind_of_ok hcheck, if_neg hescape, hterminator, if_neg Bool.false_ne_true, advance,
        Prog.bind_modify]
      refine hstep ?_ h
      rw [hrest]
      exact Nat.lt_succ_self _

/-- The JSON5 loop over plain bytes checks them one by one. -/
theorem stringLoopJson5_plain {plain rest : Bytes} {left : Nat} {ck : Utf8Checker}
    (hplain : ∀ c ∈ plain, (!isStringStop c) = true) (hleft : (plain ++ rest).length ≤ left)
    (hck : (if cfg.strictUtf8 then ck.feedRange plain (left - (plain ++ rest).length)
      else ck).failed = false) (fuel : Nat) (decoded : Bytes) (failure : Option Failure) :
    stringLoopJson5 (cfg.mode true) 0 (ascii '"') left (plain.length + fuel) decoded ck
        ⟨plain ++ rest, failure⟩ =
      stringLoopJson5 (cfg.mode true) 0 (ascii '"') left fuel (decoded ++ plain)
        (if cfg.strictUtf8 then ck.feedRange plain (left - (plain ++ rest).length) else ck)
        ⟨rest, failure⟩ := by
  induction plain generalizing decoded ck with
  | nil =>
      rw [List.length_nil, Nat.zero_add, List.append_nil]
      cases cfg.strictUtf8 <;> rfl
  | cons c plain ih =>
      rw [List.forall_mem_cons] at hplain
      have hc := hplain.1
      simp only [isStringStop, Bool.not_eq_true', Bool.or_eq_false_iff, beq_eq_false_iff_ne,
        decide_eq_false_iff_not] at hc
      obtain ⟨⟨hquote, hescape⟩, hcontrol⟩ := hc
      rw [List.cons_append, List.length_cons] at hleft hck ⊢
      rw [List.length_cons]
      obtain ⟨pos, hpos⟩ : ∃ pos, pos = left - ((plain ++ rest).length + 1) := ⟨_, rfl⟩
      obtain ⟨ck₁, hck₁⟩ : ∃ ck₁, ck₁ = if cfg.strictUtf8 then ck.feed c pos else ck := ⟨_, rfl⟩
      rw [← hpos] at hck ⊢
      have hnext : left - (plain ++ rest).length = pos + 1 := by omega
      have hfed : ck₁.failed = false ∧ (if cfg.strictUtf8 then ck.feedRange (c :: plain) pos else ck) =
          if cfg.strictUtf8 then ck₁.feedRange plain (pos + 1) else ck₁ := by
        rw [hck₁]
        by_cases hstrict : cfg.strictUtf8 = true
        · rw [if_pos hstrict] at hck
          rw [if_pos hstrict, if_pos hstrict, if_pos hstrict]
          exact feedRange_cons hck
        · rw [if_neg hstrict] at hck
          rw [if_neg hstrict, if_neg hstrict, if_neg hstrict]
          exact ⟨hck, rfl⟩
      rw [hfed.2] at hck ⊢
      rw [← hnext] at hck ⊢
      have hterminator : isJson5LineTerminatorAscii c = false := by
        rw [isJson5LineTerminatorAscii, Bool.or_eq_false_iff, beq_eq_false_iff_ne, beq_eq_false_iff_ne]
        refine ⟨?_, ?_⟩ <;> rintro rfl <;> exact hcontrol (by decide)
      have hihs := ih hplain.2 (Nat.le_of_succ_le hleft) hck (decoded ++ [c])
      rw [List.append_assoc, List.singleton_append] at hihs
      rw [← hihs, show plain.length + 1 + fuel = plain.length + fuel + 1 by omega, stringLoopJson5,
        Prog.bind_get, Config.mode_strictUtf8]
      have hend : Reading.atEnd 0 ⟨c :: (plain ++ rest), failure⟩ = false :=
        decide_eq_false (Nat.not_succ_le_zero _)
      rw [hend, if_neg Bool.false_ne_true, peek_cons, if_neg hquote]
      simp only [List.length_cons]
      rw [← hpos, ← hck₁, Prog.bind_of_ok (checkUtf8_ok hfed.1 _), if_neg hescape, hterminator,
        if_neg Bool.false_ne_true]
      rfl

/-- The content of a string and its closing quote. -/
theorem readStringJson5_of_body {rest value : Bytes} {failure : Option Failure} {r' : Reading}
    (h : readStringBody (cfg.mode false) 0 ⟨rest, failure⟩ = .ok (value, r')) :
    stringLoopJson5 (cfg.mode true) 0 (ascii '"') rest.length (rest.length + 1) [] {}
      ⟨rest, failure⟩ = .ok (value, r') := by
  obtain ⟨plain, more, rfl, hplain, hstop⟩ := exists_run (fun c => !isStringStop c) rest
  have hhere : (plain ++ more).takeWhile (fun c => !isStringStop c) = plain :=
    takeWhile_run hplain hstop
  rw [readStringBody, Prog.bind_get] at h
  simp only [hhere, advance, Prog.bind_modify, List.drop_left] at h
  rw [bind_peek, Config.mode_strictUtf8] at h
  have hfuel : (plain ++ more).length + 1 = plain.length + (more.length + 1) := by
    rw [List.length_append]
    omega
  obtain ⟨left, hleft⟩ : ∃ left, left = (plain ++ more).length := ⟨_, rfl⟩
  obtain ⟨ck, hck⟩ : ∃ ck, ck = if cfg.strictUtf8 then ({} : Utf8Checker).feedRange plain 0 else {} :=
    ⟨_, rfl⟩
  have hloop : ck.failed = false → stringLoopJson5 (cfg.mode true) 0 (ascii '"') left (left + 1) [] {}
      ⟨plain ++ more, failure⟩ =
      stringLoopJson5 (cfg.mode true) 0 (ascii '"') left (more.length + 1) plain ck ⟨more, failure⟩ := by
    intro hok
    have hstart : left - (plain ++ more).length = 0 := by omega
    have hrun := @stringLoopJson5_plain cfg plain more left {} hplain (Nat.le_of_eq hleft.symm)
      (by rw [hstart, ← hck]; exact hok) (more.length + 1) [] failure
    rw [hstart, ← hck, List.nil_append, ← hfuel, ← hleft] at hrun
    exact hrun
  rw [← hleft] at h ⊢
  by_cases hquote : Reading.here ⟨more, failure⟩ = ascii '"'
  · rw [if_pos hquote, Prog.bind_apply, Res.bind_eq_ok] at h
    obtain ⟨⟨_, r₁⟩, hcheck, h⟩ := h
    obtain ⟨hfailed, rfl⟩ := checkUtf8_eq_ok hcheck
    have hfinish : (if cfg.strictUtf8 then checkUtf8Strict plain else {}) =
        if cfg.strictUtf8 then ck.finish else ck := by
      rw [hck]
      cases cfg.strictUtf8 <;> rfl
    have hok : ck.failed = false := by
      by_contra hnot
      rw [Bool.not_eq_false] at hnot
      rw [hfinish, finish_failed hnot, ite_self, hnot] at hfailed
      cases hfailed
    rw [hfinish] at hfailed
    rw [hloop hok, stringLoopJson5, Prog.bind_get, atEnd_of_here (by decide) hquote,
      if_neg Bool.false_ne_true, bind_peek, if_pos hquote, Config.mode_strictUtf8,
      Prog.bind_of_ok (checkUtf8_ok hfailed _)]
    exact h
  rw [if_neg hquote] at h
  by_cases hescape : Reading.here ⟨more, failure⟩ = ascii '\\'
  · rw [if_pos hescape, ← hck, Prog.bind_apply, Res.bind_eq_ok] at h
    obtain ⟨⟨_, r₁⟩, hcheck, h⟩ := h
    obtain ⟨hfailed, rfl⟩ := checkUtf8_eq_ok hcheck
    rw [hloop hfailed]
    exact stringLoopJson5_of_decodeLoop (Nat.lt_succ_self _) h
  · rw [if_neg hescape, Prog.bind_get] at h
    split at h
    · cases h
    · cases h

theorem extends_readString : Extends done (readString (cfg.mode false) 0 r)
    (readString (cfg.mode true) 0 r) := by
  rw [readString, readString]
  refine extends_get (extends_ite (fun _ => extends_failHere) fun _ => extends_peek ?_)
  refine extends_ite (fun _ => extends_failHere) fun hquote => ?_
  rw [Config.mode_json5, Config.mode_json5, if_neg Bool.false_ne_true, if_pos rfl]
  intro value r' hstrict _
  rw [advance, Prog.bind_modify] at hstrict
  rw [readStringJson5, advance, Prog.bind_modify, Prog.bind_get]
  exact readStringJson5_of_body hstrict

/-! ### Containers -/

/-- A byte that may begin a value in the strict mode. -/
def isValueStart (c : UInt8) : Bool :=
  c == ascii '{' || c == ascii '[' || c == ascii '"' || c == ascii 't' || c == ascii 'f' ||
    c == ascii 'n' || c == ascii '-' || isDigit c

theorem isTriviaStart_of_value {c : UInt8} (h : isValueStart c = true) : isTriviaStart c = false := by
  simp only [isValueStart, Bool.or_eq_true, beq_iff_eq] at h
  rcases h with ((((((rfl | rfl) | rfl) | rfl) | rfl) | rfl) | rfl) | hdigit
  · decide
  · decide
  · decide
  · decide
  · decide
  · decide
  · decide
  · obtain ⟨hlo, hhi⟩ := (isDigit_iff c).mp hdigit
    have hne : ∀ b : UInt8, b < 0x30 → c ≠ b := fun b hb heq =>
      absurd (heq ▸ hlo) (UInt8.not_le.mpr hb)
    rw [isTriviaStart, Bool.or_eq_false_iff, Bool.or_eq_false_iff, Bool.or_eq_false_iff]
    refine ⟨⟨⟨decide_eq_false fun hle => ?_, ?_⟩, ?_⟩, ?_⟩
    · exact absurd (UInt8.le_trans hle hhi) (by decide)
    · exact beq_eq_false_iff_ne.mpr (hne 0x0B (by decide))
    · exact beq_eq_false_iff_ne.mpr (hne 0x0C (by decide))
    · exact beq_eq_false_iff_ne.mpr (hne (ascii '/') (by decide))

/-- A part of the strict reading that skips whitespace and then needs the start of a value or key. -/
structure Starts (run : Prog Reading α) : Prop where
  skips : ∀ text failure, run ⟨text.dropWhile isWhitespace, failure⟩ = run ⟨text, failure⟩
  starts : ∀ r a r', run r = .ok (a, r') →
    ∃ c rest, r.rest.dropWhile isWhitespace = c :: rest ∧ isValueStart c = true

theorem starts_bind {run : Prog Reading α} (h : Starts run) (next : α → Prog Reading β) :
    Starts (run >>= next) where
  skips text failure := Prog.bind_congr (h.skips text failure) _
  starts r b r'' hrun := by
    rw [Prog.bind_apply, Res.bind_eq_ok] at hrun
    obtain ⟨⟨a, r'⟩, hfirst, -⟩ := hrun
    exact h.starts r a r' hfirst

theorem starts_stuck : Starts (Prog.stuck : Prog Reading α) where
  skips _ _ := rfl
  starts _ _ _ h := by cases h

/-- Where the whitespace is skipped already, the value or key begins at the cursor. -/
theorem Starts.noTrivia {run : Prog Reading α} (h : Starts run) {text : Bytes}
    {failure : Option Failure} {a : α} {r' : Reading}
    (hrun : run ⟨text.dropWhile isWhitespace, failure⟩ = .ok (a, r')) :
    ∃ c rest, text.dropWhile isWhitespace = c :: rest ∧ isValueStart c = true ∧
      NoTrivia ⟨text.dropWhile isWhitespace, failure⟩ := by
  obtain ⟨c, rest, hrest, hc⟩ := h.starts _ a r' ((h.skips text failure).symm.trans hrun)
  refine ⟨c, rest, hrest, hc, ?_⟩
  rw [NoTrivia, hrest, stops_cons]
  exact isTriviaStart_of_value hc

theorem skipWhitespace_strict (text : Bytes) (failure : Option Failure) :
    skipWhitespace (cfg.mode false) 0 ⟨text, failure⟩ =
      .ok ((), ⟨text.dropWhile isWhitespace, failure⟩) :=
  skipWhitespace_eq (Config.mode_json5 cfg false) text failure

/-- What follows skipped whitespace follows the byte before it. -/
theorem follow_of_skipWhitespace {r' : Reading} {result : Unit}
    (h : skipWhitespace (cfg.mode false) 0 r = .ok (result, r')) (hfollow : Follow r'.rest) :
    Follow r.rest := by
  obtain ⟨ws, hws, hrest⟩ := yields_skipWhitespace (Config.mode_json5 cfg false) result r' h
  rw [hrest]
  exact follow_whitespace hws hfollow

theorem follow_of_here {c : UInt8} (hne : c ≠ 0) (h : r.here = c)
    (hc : c = ascii ',' ∨ c = ascii ']' ∨ c = ascii '}') : Follow r.rest := by
  obtain ⟨rest, hrest⟩ := here_cons hne h
  rw [hrest, follow_cons]
  exact .inr hc

/-- Whether the container is closed after a comma. In the strict mode it is not, and a value or key
must come. -/
theorem extends_closedAfterComma {c : UInt8} (hc : isValueStart c = false)
    {closed closed' rest rest' : Prog Reading β} (hstarts : Starts rest)
    (hrest : ∀ r, Extends done (rest r) (rest' r)) :
    Extends done
      ((closedAfterComma skipWhitespace (cfg.mode false) 0 c >>= fun isClosed => if isClosed then closed else rest) r)
      ((closedAfterComma skipWhitespace (cfg.mode true) 0 c >>= fun isClosed =>
        if isClosed then closed' else rest') r) := by
  intro a r' hstrict hdone
  obtain ⟨text, failure⟩ := r
  have hrun : rest ⟨text.dropWhile isWhitespace, failure⟩ = .ok (a, r') :=
    (hstarts.skips text failure).trans hstrict
  obtain ⟨b, more, hmore, hb, htrivia⟩ := hstarts.noTrivia hrun
  have hskip := @extends_skipWhitespace cfg _ () _ (skipWhitespace_strict text failure) htrivia
  have hnot : atByte 0 c ⟨text.dropWhile isWhitespace, failure⟩ =
      .ok (false, ⟨text.dropWhile isWhitespace, failure⟩) := by
    have hne : b ≠ c := by
      rintro rfl
      rw [hc] at hb
      cases hb
    rw [hmore, atByte_cons, beq_eq_false_iff_ne.mpr hne]
  have hopen : closedAfterComma skipWhitespace (cfg.mode true) 0 c ⟨text, failure⟩ =
      .ok (false, ⟨text.dropWhile isWhitespace, failure⟩) := by
    rw [closedAfterComma, if_pos (Config.mode_json5 cfg true), Prog.bind_of_ok hskip]
    exact hnot
  rw [Prog.bind_of_ok hopen, if_neg Bool.false_ne_true]
  exact hrest _ a r' hrun hdone

/-- An element of a container in the two modes. -/
structure ElementExtends (element element' : Prog Reading Ast) : Prop where
  starts : Starts element
  run : ∀ r, Extends (fun r' => Follow r'.rest) (element r) (element' r)

section Elements

variable {element element' : Prog Reading Ast}

theorem starts_elementsLoop (h : Starts element) (fuel : Nat) (elements : List Ast) :
    Starts (elementsLoop skipWhitespace (cfg.mode false) 0 element fuel elements) := by
  cases fuel with
  | zero => exact starts_stuck
  | succ fuel => exact starts_bind h _

theorem extends_elementsLoop (h : ElementExtends element element') {fuel : Nat}
    {elements : List Ast} :
    Extends done (elementsLoop skipWhitespace (cfg.mode false) 0 element fuel elements r)
      (elementsLoop skipWhitespace (cfg.mode true) 0 element' fuel elements r) := by
  induction fuel generalizing r elements with
  | zero => exact extends_stuck
  | succ fuel ih =>
      rw [elementsLoop, elementsLoop]
      refine extends_bind (h.run r) ?_ ?_
      · intro value r₁ b r'' _ hrun _
        rw [Prog.bind_apply, Res.bind_eq_ok] at hrun
        obtain ⟨⟨_, r₂⟩, hskip, hrun⟩ := hrun
        refine follow_of_skipWhitespace hskip ?_
        rw [bind_peek] at hrun
        split at hrun
        · exact follow_of_here (by decide) ‹_› (.inr (.inl rfl))
        split at hrun
        · exact follow_of_here (by decide) ‹_› (.inl rfl)
        · cases hrun
      intro value r₁ _
      refine extends_bind extends_skipWhitespace ?_ ?_
      · intro _ r₂ b r'' _ hrun _
        rw [bind_peek] at hrun
        split at hrun
        · exact noTrivia_of_here ‹_› (by decide)
        split at hrun
        · exact noTrivia_of_here ‹_› (by decide)
        · cases hrun
      intro _ r₂ _
      refine extends_peek (extends_ite (fun _ => extends_refl _) fun _ => ?_)
      refine extends_ite (fun _ => extends_step fun _ r₃ _ => ?_) fun _ => extends_failHere
      exact extends_closedAfterComma (by decide) (starts_elementsLoop h.starts fuel _) fun _ => ih

theorem extends_readArray {depth : Nat} {element element' : Nat → Prog Reading Ast}
    (h : ∀ depth, ElementExtends (element depth) (element' depth)) :
    Extends done (readArray skipWhitespace (cfg.mode false) 0 depth element r)
      (readArray skipWhitespace (cfg.mode true) 0 depth element' r) := by
  rw [readArray, readArray]
  refine extends_get (extends_step fun _ r₁ _ => extends_step fun _ r₂ _ => ?_)
  refine extends_bind extends_skipWhitespace ?_ ?_
  · intro _ r₃ b r'' hskip hrun _
    obtain ⟨text, failure⟩ := r₂
    obtain ⟨-, rfl⟩ := Prod.mk.inj (Res.ok.inj ((skipWhitespace_strict text failure).symm.trans hskip))
    rw [Prog.bind_apply, Res.bind_eq_ok] at hrun
    obtain ⟨⟨empty, r₄⟩, hempty, hrun⟩ := hrun
    cases empty with
    | true =>
        obtain ⟨rfl, hclose⟩ := here_of_atByte hempty
        exact noTrivia_of_here hclose (by decide)
    | false =>
        obtain rfl := state_of_atByte hempty
        have hstarts := starts_bind (@starts_elementsLoop cfg _ (h (depth + 1)).starts
          r.rest.length []) fun elements => pure (Ast.array elements)
        obtain ⟨_, _, -, -, htrivia⟩ := hstarts.noTrivia hrun
        exact htrivia
  intro _ r₃ _
  refine extends_step fun empty r₄ _ => extends_ite (fun _ => extends_refl _) fun _ => ?_
  exact extends_next (extends_elementsLoop (h (depth + 1))) fun _ _ _ => extends_refl _

/-! ### Objects -/

theorem here_of_readKey {key : Bytes} {r' : Reading}
    (h : readKey (cfg.mode false) 0 r = .ok (key, r')) : r.here = ascii '"' := by
  rw [readKey, Prog.bind_get, if_neg fun hboth => Bool.false_ne_true hboth.1] at h
  split at h
  · cases h
  · exact not_not.mp ‹_›

theorem extends_readKey : Extends done (readKey (cfg.mode false) 0 r) (readKey (cfg.mode true) 0 r) := by
  intro key r' hstrict hdone
  have hhere := here_of_readKey hstrict
  rw [readKey, Prog.bind_get, if_neg fun hboth => Bool.false_ne_true hboth.1,
    if_neg (not_not.mpr hhere)] at hstrict
  rw [readKey, Prog.bind_get, if_pos ⟨rfl, atEnd_of_here (by decide) hhere⟩, hhere,
    if_neg (by decide), if_neg (by decide)]
  exact extends_readString key r' hstrict hdone

theorem starts_readMember (members : List (Bytes × Ast)) :
    Starts (readMember skipWhitespace (cfg.mode false) 0 element members) where
  skips text failure := readMember_dropWhile (Config.mode_json5 cfg false) element members text failure
  starts r a r' h := by
    obtain ⟨text, failure⟩ := r
    rw [readMember, Prog.bind_of_ok (skipWhitespace_strict text failure), Prog.bind_apply,
      Res.bind_eq_ok] at h
    obtain ⟨⟨key, r₁⟩, hkey, -⟩ := h
    obtain ⟨rest, hrest⟩ := here_cons (by decide) (here_of_readKey hkey)
    exact ⟨_, rest, hrest, by decide⟩

theorem extends_readMember (h : ElementExtends element element') {members : List (Bytes × Ast)} :
    Extends (fun r' => Follow r'.rest) (readMember skipWhitespace (cfg.mode false) 0 element members r)
      (readMember skipWhitespace (cfg.mode true) 0 element' members r) := by
  rw [readMember, readMember]
  refine extends_bind extends_skipWhitespace ?_ ?_
  · intro _ r₁ b r'' _ hrun _
    rw [Prog.bind_apply, Res.bind_eq_ok] at hrun
    obtain ⟨⟨key, r₂⟩, hkey, -⟩ := hrun
    exact noTrivia_of_here (here_of_readKey hkey) (by decide)
  intro _ r₁ _
  refine extends_next extends_readKey fun key r₂ _ => extends_step fun _ r₃ _ => ?_
  refine extends_bind extends_skipWhitespace ?_ ?_
  · intro _ r₄ b r'' _ hrun _
    rw [bind_peek] at hrun
    split at hrun
    · cases hrun
    · exact noTrivia_of_here (not_not.mp ‹_›) (by decide)
  intro _ r₄ _
  refine extends_peek (extends_ite (fun _ => extends_failHere) fun _ => ?_)
  refine extends_step fun _ r₅ _ => extends_bind (h.run r₅) ?_ fun _ _ _ => extends_refl _
  intro value r₆ b r'' _ hrun hfollow
  cases hrun
  exact hfollow

theorem starts_membersLoop (fuel : Nat) (members : List (Bytes × Ast)) :
    Starts (membersLoop skipWhitespace (cfg.mode false) 0 element fuel members) := by
  cases fuel with
  | zero => exact starts_stuck
  | succ fuel => exact starts_bind (starts_readMember members) _

theorem extends_membersLoop (h : ElementExtends element element') {fuel : Nat}
    {members : List (Bytes × Ast)} :
    Extends done (membersLoop skipWhitespace (cfg.mode false) 0 element fuel members r)
      (membersLoop skipWhitespace (cfg.mode true) 0 element' fuel members r) := by
  induction fuel generalizing r members with
  | zero => exact extends_stuck
  | succ fuel ih =>
      rw [membersLoop, membersLoop]
      refine extends_bind (extends_readMember h) ?_ ?_
      · intro value r₁ b r'' _ hrun _
        rw [Prog.bind_apply, Res.bind_eq_ok] at hrun
        obtain ⟨⟨_, r₂⟩, hskip, hrun⟩ := hrun
        refine follow_of_skipWhitespace hskip ?_
        rw [Prog.bind_get] at hrun
        split at hrun
        · cases hrun
        split at hrun
        · exact follow_of_here (by decide) ‹_› (.inr (.inr rfl))
        split at hrun
        · exact follow_of_here (by decide) ‹_› (.inl rfl)
        · cases hrun
      intro value r₁ _
      refine extends_bind extends_skipWhitespace ?_ ?_
      · intro _ r₂ b r'' _ hrun _
        rw [Prog.bind_get] at hrun
        split at hrun
        · cases hrun
        split at hrun
        · exact noTrivia_of_here ‹_› (by decide)
        split at hrun
        · exact noTrivia_of_here ‹_› (by decide)
        · cases hrun
      intro _ r₂ _
      refine extends_get (extends_ite (fun _ => extends_failHere) fun _ => ?_)
      refine extends_ite (fun _ => extends_refl _) fun _ => ?_
      refine extends_ite (fun _ => extends_step fun _ r₃ _ => ?_) fun _ => extends_failHere
      exact extends_closedAfterComma (by decide) (starts_membersLoop fuel _) fun _ => ih

theorem extends_readObject {depth : Nat} {element element' : Nat → Prog Reading Ast}
    (h : ∀ depth, ElementExtends (element depth) (element' depth)) :
    Extends done (readObject skipWhitespace (cfg.mode false) 0 depth element r)
      (readObject skipWhitespace (cfg.mode true) 0 depth element' r) := by
  rw [readObject, readObject]
  refine extends_get (extends_step fun _ r₁ _ => extends_step fun _ r₂ _ => ?_)
  refine extends_bind extends_skipWhitespace ?_ ?_
  · intro _ r₃ b r'' hskip hrun _
    obtain ⟨text, failure⟩ := r₂
    obtain ⟨-, rfl⟩ := Prod.mk.inj (Res.ok.inj ((skipWhitespace_strict text failure).symm.trans hskip))
    rw [bind_peek] at hrun
    split at hrun
    · exact noTrivia_of_here ‹_› (by decide)
    · have hstarts := starts_bind (@starts_membersLoop cfg (element (depth + 1))
        r.rest.length []) fun members => pure (Ast.object members)
      obtain ⟨_, _, -, -, htrivia⟩ := hstarts.noTrivia hrun
      exact htrivia
  intro _ r₃ _
  refine extends_peek (extends_ite (fun _ => extends_refl _) fun _ => ?_)
  exact extends_next (extends_membersLoop (h (depth + 1))) fun _ _ _ => extends_refl _

end Elements

/-! ### Values and texts -/

theorem extends_readLiteral : Extends done (readLiteral (cfg.mode false) r)
    (readLiteral (cfg.mode true) r) := by
  rw [readLiteral, readLiteral]
  refine extends_get ?_
  cases literalHere r with
  | none => exact extends_failHere
  | some result =>
      refine extends_step fun _ r₁ _ => extends_peek ?_
      intro value r' hstrict _
      split at hstrict
      · rw [Config.mode_json5, Bool.true_or, if_pos rfl]
        exact hstrict
      · cases hstrict

theorem noHexPrefix_of_follow {rest : Bytes} (h : Follow rest) : NoHexPrefix rest :=
  h.stops (by decide) (by decide)

theorem extends_readNumber : Extends (fun r' => Follow r'.rest)
    (readNumber platform (cfg.mode false) 0 r) (readNumber platform (cfg.mode true) 0 r) := by
  intro value r' hstrict hfollow
  rw [readNumber, Prog.bind_get, body_zero, parseNumberToken, Config.mode_json5,
    if_neg Bool.false_ne_true] at hstrict
  rw [readNumber, Prog.bind_get, body_zero, parseNumberToken, if_pos (Config.mode_json5 cfg true)]
  cases hscan : scanAndClassify platform r.rest with
  | error failure => rw [hscan] at hstrict; cases hstrict
  | ok result =>
      obtain ⟨number, rest⟩ := result
      obtain ⟨parts, hrest, -, -⟩ := (scanAndClassify_eq_ok platform).mp hscan
      rw [hscan] at hstrict
      have hcursor : r'.rest = rest := by
        simp only [advanceTo, Prog.bind_modify, body_zero] at hstrict
        cases hstrict
        change r.rest.drop (r.rest.length - rest.length) = rest
        rw [hrest, List.length_append, Nat.add_sub_cancel, List.drop_left]
      rw [parseNumberJson5_of_scan hscan (noHexPrefix_of_follow (hcursor ▸ hfollow))]
      exact hstrict

theorem valueStart_of_readValueAt {depth : Nat} {element : Nat → Prog Reading Ast}
    {unexpected : ErrorCode} {value : Ast} {r' : Reading}
    (h : readValueAt skipWhitespace platform (cfg.mode false) 0 depth element unexpected r.here r = .ok (value, r')) :
    isValueStart r.here = true := by
  simp only [isValueStart, Bool.or_eq_true, beq_iff_eq]
  rw [readValueAt] at h
  split_ifs at h with hobject harray hstring hliteral hnumber hsingle hother
  · exact .inl (.inl (.inl (.inl (.inl (.inl (.inl hobject))))))
  · exact .inl (.inl (.inl (.inl (.inl (.inl (.inr harray))))))
  · exact .inl (.inl (.inl (.inl (.inl (.inr hstring)))))
  · rcases hliteral with h | h | h
    · exact .inl (.inl (.inl (.inl (.inr h))))
    · exact .inl (.inl (.inl (.inr h)))
    · exact .inl (.inl (.inr h))
  · exact hnumber.imp_left .inr
  · cases hsingle.1
  · cases hother.1
  · cases h

theorem extends_readValueAt {depth : Nat} {element element' : Nat → Prog Reading Ast}
    (h : ∀ depth, ElementExtends (element depth) (element' depth)) {unexpected : ErrorCode} :
    Extends (fun r' => Follow r'.rest)
      (readValueAt skipWhitespace platform (cfg.mode false) 0 depth element unexpected r.here r)
      (readValueAt skipWhitespace platform (cfg.mode true) 0 depth element' unexpected r.here r) := by
  rw [readValueAt, readValueAt]
  refine extends_ite (fun _ => extends_readObject h) fun _ => ?_
  refine extends_ite (fun _ => extends_readArray h) fun _ => ?_
  refine extends_ite (fun _ => extends_next extends_readString fun _ _ _ => extends_refl _) fun _ => ?_
  refine extends_ite (fun _ => extends_readLiteral) fun _ => ?_
  refine extends_ite (fun _ => extends_readNumber) fun _ => ?_
  rw [if_neg fun hboth => Bool.false_ne_true hboth.1, if_neg fun hboth => Bool.false_ne_true hboth.1]
  exact extends_failHere

theorem elementExtends_readElement (fuel depth : Nat) :
    ElementExtends (readElement skipWhitespace platform (cfg.mode false) 0 fuel depth)
      (readElement skipWhitespace platform (cfg.mode true) 0 fuel depth) := by
  induction fuel generalizing depth with
  | zero => exact ⟨starts_stuck, fun _ => extends_stuck⟩
  | succ fuel ih =>
      refine ⟨⟨fun text failure => ?_, fun r value r' hrun => ?_⟩, fun r => ?_⟩
      · exact readElement_dropWhile (Config.mode_json5 cfg false) (fuel + 1) depth text failure
      · obtain ⟨text, failure⟩ := r
        rw [readElement, Prog.bind_of_ok (skipWhitespace_strict text failure), bind_peek] at hrun
        have hstart := valueStart_of_readValueAt hrun
        obtain ⟨rest, hrest⟩ := here_cons (by rintro hzero; rw [hzero] at hstart; cases hstart) rfl
        exact ⟨_, rest, hrest, hstart⟩
      · rw [readElement, readElement]
        refine extends_bind extends_skipWhitespace ?_ ?_
        · intro _ r₁ value r'' _ hrun _
          exact noTrivia_of_here rfl (isTriviaStart_of_value (valueStart_of_readValueAt hrun))
        · exact fun _ r₁ _ => extends_peek (extends_readValueAt ih)

theorem extends_readValue {fuel : Nat} : Extends (fun r' => Follow r'.rest)
    (readValue skipWhitespace platform (cfg.mode false) 0 fuel r)
    (readValue skipWhitespace platform (cfg.mode true) 0 fuel r) := by
  rw [readValue, readValue]
  refine extends_bind extends_skipWhitespace ?_ ?_
  · intro _ r₁ value r'' _ hrun _
    rw [bind_peek, Prog.bind_get] at hrun
    split at hrun
    · cases hrun
    · exact noTrivia_of_here rfl (isTriviaStart_of_value (valueStart_of_readValueAt hrun))
  · intro _ r₁ _
    refine extends_peek (extends_get (extends_ite (fun _ => extends_failHere) fun _ => ?_))
    exact extends_readValueAt fun depth => elementExtends_readElement fuel depth

theorem state_of_failIfRecorded {result : Unit} {r' : Reading}
    (h : failIfRecorded r = .ok (result, r')) : r' = r := by
  rw [failIfRecorded, Prog.bind_get] at h
  split at h
  · cases h
  · cases h
    rfl

theorem extends_readText : Extends (fun _ => True) (readText skipWhitespace platform (cfg.mode false) 0 r)
    (readText skipWhitespace platform (cfg.mode true) 0 r) := by
  -- nothing is left behind the text
  have hend : ∀ {value : Ast} {r₁ r'' : Reading} {b : Ast},
      (Prog.get >>= fun r => if r.atEnd 0 then (pure value : Prog Reading Ast)
        else failHere .extraCharactersAfterValue) r₁ = .ok (b, r'') → r₁.rest = [] := by
    intro value r₁ r'' b hrun
    rw [Prog.bind_get] at hrun
    split at hrun
    · rename_i hatEnd
      exact List.eq_nil_of_length_eq_zero (Nat.le_zero.mp (of_decide_eq_true hatEnd))
    · cases hrun
  rw [readText, readText]
  refine extends_get (extends_step fun _ r₁ _ => extends_bind extends_readValue ?_ ?_)
  · intro value r₂ b r'' _ hrun _
    rw [Prog.bind_apply, Res.bind_eq_ok] at hrun
    obtain ⟨⟨_, r₃⟩, hrecorded, hrun⟩ := hrun
    obtain rfl := state_of_failIfRecorded hrecorded
    rw [Prog.bind_apply, Res.bind_eq_ok] at hrun
    obtain ⟨⟨_, r₄⟩, hskip, hrun⟩ := hrun
    rw [Prog.bind_apply, Res.bind_eq_ok] at hrun
    obtain ⟨⟨_, r₅⟩, hrecorded', hrun⟩ := hrun
    obtain rfl := state_of_failIfRecorded hrecorded'
    refine follow_of_skipWhitespace hskip ?_
    rw [hend hrun]
    exact stops_nil _
  intro value r₂ _
  refine extends_step fun _ r₃ _ => extends_bind extends_skipWhitespace ?_ fun _ _ _ => extends_refl _
  intro _ r₄ b r'' _ hrun _
  rw [Prog.bind_apply, Res.bind_eq_ok] at hrun
  obtain ⟨⟨_, r₅⟩, hrecorded, hrun⟩ := hrun
  obtain rfl := state_of_failIfRecorded hrecorded
  rw [NoTrivia, hend hrun]
  exact stops_nil _

end Reading

/-! ### `parse_copy` -/

section ParseCopy

variable {platform : Platform} {cfg : Config} {json : Bytes}

/-- A number token of the strict grammar has the same value in JSON5. -/
theorem tokenNumber_mode {token : Bytes} (h : Reading.Accepted platform token) :
    tokenNumber platform (cfg.mode true) token = tokenNumber platform (cfg.mode false) token := by
  obtain ⟨number, hscan⟩ := h
  rw [tokenNumber, tokenNumber, parseNumberToken, parseNumberToken, Config.mode_json5,
    Config.mode_json5, if_pos rfl, if_neg Bool.false_ne_true, hscan,
    parseNumberJson5_of_scan hscan (stops_nil _)]

/-- What is accepted in the strict mode is accepted in JSON5 mode, with the same tree. -/
theorem parseCopy_json5 (hbom : cfg.stripBom = false) {document : Document}
    (h : parseCopy platform (cfg.mode false) json = .ok document) :
    ∃ document', parseCopy platform (cfg.mode true) json = .ok document' ∧
      document'.tree = document.tree := by
  have hfits := paddedFits_of_parseCopy h
  obtain ⟨value, r, hread, htree⟩ := (parseCopy_eq_ok hfits).mp ⟨document, h, rfl⟩
  obtain ⟨-, hvalue⟩ := Reading.yields_readText (Config.mode_json5 cfg false) hbom json value r hread
  refine (parseCopy_eq_ok hfits).mpr ⟨value, r, Reading.extends_readText value r hread trivial, ?_⟩
  rw [← htree]
  exact Ast.toJson_congr fun token hmem => tokenNumber_mode (hvalue.numbers token hmem)

end ParseCopy

theorem parseCopy_json5_half : ∃ document,
    parseCopy halfPlatform (Config.mode { strictDuplicateKeys := true } true)
      (asciiBytes "\x7b\"a\":[0.5]\x7d") = .ok document ∧
      document.tree = .object [(asciiBytes "a", .array [.double ⟨0x3FE0000000000000⟩])] := by
  have hread : Reading.readText Reading.skipWhitespace halfPlatform
      (Config.mode { strictDuplicateKeys := true } false) 0
      { rest := asciiBytes "\x7b\"a\":[0.5]\x7d" } =
      .ok (.object [(asciiBytes "a", .array [.number (asciiBytes "0.5")])], _) := rfl
  obtain ⟨document, hparse, htree⟩ := (parseCopy_eq_ok (by decide)).mpr ⟨_, _, hread, rfl⟩
  obtain ⟨document', hparse', hsame⟩ := parseCopy_json5 rfl hparse
  exact ⟨document', hparse', hsame.trans htree⟩

end PjhJson
