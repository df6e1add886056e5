import PjhJson.Json5Sound
import PjhJson.LibRecord
import PjhJson.RefineEntry

/-! The first failure of a parse. JSON5 trivia record an unterminated comment and the parse goes on;
a parse that stops there instead ends at the first failure that the whole parse records: the readers of
the parser, with `skipOrStop` between two tokens, stop at the first record. -/

namespace PjhJson.Reading

open Grammar Prog

variable (platform : Platform) (cfg : Config) (tail : Nat)

/-- Skip whitespace and stop if a failure has been recorded. -/
def skipOrStop : Prog Reading Unit := do
  skipWhitespace cfg tail
  failIfRecorded

/-! ### Stopping at the first record -/

section Stops

variable {platform : Platform} {cfg : Config} {tail : Nat}

theorem skipWhitespace_goes (r r' : Reading) : skipWhitespace cfg tail r ≠ .error r' := by
  intro h
  rw [skipWhitespace] at h
  by_cases hjson5 : cfg.json5 = true
  · rw [if_pos hjson5, skipTriviaHere, bind_get] at h
    cases hscan : skipTrivia (r.body tail) with
    | none =>
        rw [hscan] at h
        cases h
    | some pair =>
        obtain ⟨rest, unterminated⟩ := pair
        rw [hscan] at h
        cases unterminated with
        | false => cases h
        | true => cases h
  · rw [if_neg hjson5] at h
    cases h

theorem stops_skip : StopsAtFirst failure (skipOrStop cfg tail) (skipWhitespace cfg tail) :=
  stopsAtFirst_check stays_skipWhitespace skipWhitespace_goes

theorem stops_closedAfterComma (c : UInt8) :
    StopsAtFirst failure (closedAfterComma skipOrStop cfg tail c)
      (closedAfterComma skipWhitespace cfg tail c) :=
  stopsAtFirst_ite (stopsAtFirst_bind stops_skip fun _ => settles_atByte c) (settles_pure _)

section Elements

variable {element element' : Prog Reading Ast} (h : StopsAtFirst failure element element')
include h

theorem stops_elementsLoop (fuel : Nat) (elements : List Ast) :
    StopsAtFirst failure
      (elementsLoop skipOrStop cfg tail element fuel elements)
      (elementsLoop skipWhitespace cfg tail element' fuel elements) := by
  induction fuel generalizing elements with
  | zero => exact settles_stuck
  | succ fuel ih =>
      unfold elementsLoop
      refine stopsAtFirst_bind h fun value => stopsAtFirst_bind stops_skip fun _ => ?_
      refine stopsAtFirst_bind settles_peek fun c => stopsAtFirst_ite ?_ ?_
      · exact settles_bind (settles_advance 1) fun _ => settles_pure _
      refine stopsAtFirst_ite ?_ (settles_failHere _)
      refine stopsAtFirst_bind (settles_advance 1) fun _ => ?_
      refine stopsAtFirst_bind (stops_closedAfterComma _) fun closed => stopsAtFirst_ite ?_ (ih _)
      exact settles_bind (settles_advance 1) fun _ => settles_pure _

theorem stops_readMember (members : List (Bytes × Ast)) :
    StopsAtFirst failure (readMember skipOrStop cfg tail element members)
      (readMember skipWhitespace cfg tail element' members) := by
  refine stopsAtFirst_bind stops_skip fun _ => stopsAtFirst_bind settles_readKey fun key => ?_
  refine stopsAtFirst_bind (settles_checkDuplicateKey _ _) fun _ => ?_
  refine stopsAtFirst_bind stops_skip fun _ => stopsAtFirst_bind settles_peek fun c => ?_
  refine stopsAtFirst_ite (settles_failHere _) (stopsAtFirst_bind (settles_advance 1) fun _ => ?_)
  exact stopsAtFirst_bind h fun value => settles_pure _

theorem stops_membersLoop (fuel : Nat) (members : List (Bytes × Ast)) :
    StopsAtFirst failure (membersLoop skipOrStop cfg tail element fuel members)
      (membersLoop skipWhitespace cfg tail element' fuel members) := by
  induction fuel generalizing members with
  | zero => exact settles_stuck
  | succ fuel ih =>
      unfold membersLoop
      refine stopsAtFirst_bind (stops_readMember h _) fun member => ?_
      refine stopsAtFirst_bind stops_skip fun _ => stopsAtFirst_bind settles_get fun r => ?_
      refine stopsAtFirst_ite (settles_failHere _) (stopsAtFirst_ite ?_ ?_)
      · exact settles_bind (settles_advance 1) fun _ => settles_pure _
      refine stopsAtFirst_ite ?_ (settles_failHere _)
      refine stopsAtFirst_bind (settles_advance 1) fun _ => ?_
      refine stopsAtFirst_bind (stops_closedAfterComma _) fun closed => stopsAtFirst_ite ?_ (ih _)
      exact settles_bind (settles_advance 1) fun _ => settles_pure _

end Elements

section Values

variable {element element' : Nat → Prog Reading Ast}
  (h : ∀ depth, StopsAtFirst failure (element depth) (element' depth))
include h

theorem stops_readArray (depth : Nat) :
    StopsAtFirst failure (readArray skipOrStop cfg tail depth element)
      (readArray skipWhitespace cfg tail depth element') := by
  refine stopsAtFirst_bind settles_get fun start => ?_
  refine stopsAtFirst_bind (settles_checkDepth _) fun _ => ?_
  refine stopsAtFirst_bind (settles_advance 1) fun _ => stopsAtFirst_bind stops_skip fun _ => ?_
  refine stopsAtFirst_bind (settles_atByte _) fun empty => stopsAtFirst_ite ?_ ?_
  · exact settles_bind (settles_advance 1) fun _ => settles_pure _
  · exact stopsAtFirst_bind (stops_elementsLoop (h _) _ _) fun _ => settles_pure _

theorem stops_readObject (depth : Nat) :
    StopsAtFirst failure (readObject skipOrStop cfg tail depth element)
      (readObject skipWhitespace cfg tail depth element') := by
  refine stopsAtFirst_bind settles_get fun start => ?_
  refine stopsAtFirst_bind (settles_checkDepth _) fun _ => ?_
  refine stopsAtFirst_bind (settles_advance 1) fun _ => stopsAtFirst_bind stops_skip fun _ => ?_
  refine stopsAtFirst_bind settles_peek fun c => stopsAtFirst_ite ?_ ?_
  · exact settles_bind (settles_advance 1) fun _ => settles_pure _
  · exact stopsAtFirst_bind (stops_membersLoop (h _) _ _) fun _ => settles_pure _

theorem stops_readValueAt (depth : Nat) (unexpected : ErrorCode) (c : UInt8) :
    StopsAtFirst failure
      (readValueAt skipOrStop platform cfg tail depth element unexpected c)
      (readValueAt skipWhitespace platform cfg tail depth element' unexpected c) := by
  refine stopsAtFirst_ite (stops_readObject h depth) (stopsAtFirst_ite (stops_readArray h depth) ?_)
  refine settles_ite (settles_bind settles_readString fun _ => settles_pure _) ?_
  refine settles_ite settles_readLiteral (settles_ite settles_readNumber (settles_ite ?_ ?_))
  · exact settles_bind (settles_readStringJson5 _) fun _ => settles_pure _
  · exact settles_ite settles_readNumber (settles_failHere _)

end Values

theorem stops_readElement (fuel depth : Nat) :
    StopsAtFirst failure
      (readElement skipOrStop platform cfg tail fuel depth)
      (readElement skipWhitespace platform cfg tail fuel depth) := by
  induction fuel generalizing depth with
  | zero => exact settles_stuck
  | succ fuel ih =>
      unfold readElement
      refine stopsAtFirst_bind stops_skip fun _ => stopsAtFirst_bind settles_peek fun c => ?_
      exact stops_readValueAt ih depth _ c

theorem stops_readValue (fuel : Nat) :
    StopsAtFirst failure (readValue skipOrStop platform cfg tail fuel)
      (readValue skipWhitespace platform cfg tail fuel) := by
  refine stopsAtFirst_bind stops_skip fun _ => stopsAtFirst_bind settles_peek fun c => ?_
  refine stopsAtFirst_bind settles_get fun r => stopsAtFirst_ite (settles_failHere _) ?_
  exact stops_readValueAt (stops_readElement fuel) 0 _ c

theorem settles_skipLeadingBom : Settles failure (skipLeadingBom cfg tail) := by
  refine settles_modify fun r => ?_
  split
  · rfl
  · rfl

/-- The reading of a whole text, made to stop at its first failure. -/
theorem stops_readText :
    StopsAtFirst failure (readText skipOrStop platform cfg tail)
      (readText skipWhitespace platform cfg tail) := by
  refine stopsAtFirst_bind settles_get fun r => ?_
  refine stopsAtFirst_bind settles_skipLeadingBom fun _ => ?_
  refine stopsAtFirst_bind (stops_readValue _) fun value => ?_
  refine stopsAtFirst_bind settles_stopIfRecorded fun _ => stopsAtFirst_bind stops_skip fun _ => ?_
  refine stopsAtFirst_bind settles_stopIfRecorded fun _ => ?_
  exact settles_bind settles_get fun r => settles_ite (settles_pure _) (settles_failHere _)

end Stops

end PjhJson.Reading

namespace PjhJson

open Reading

variable {platform : Platform} {cfg : Config} {w : Window} {p : Parser} {r : Reading}

/-- A parse of a part of the buffer, in JSON5 mode, against the reading that stops at the first
failure. If that reading ends with a value, the parse has recorded nothing and returns the value, and
a whole input is a document of the grammar, where every block comment is closed. If it stops, the
parse fails and `error()` is the failure it stopped at, however far the recursion went on. -/
theorem Parser.parse_firstFailure (hjson5 : cfg.json5 = true) (htracks : Tracks w 0 p r)
    (hstart : p.mCurr = p.mBegin) (hpadded : p.mAssumePadded = true) (hclear : r.failure = none) :
    (∃ value r' p',
      readText skipOrStop platform cfg w.tail r = .ok (value, r') ∧
      Parser.parse platform cfg p = .ok ((), p') ∧ p'.mError = none ∧
      HoldsJson platform cfg p' p'.out value ∧
      (w.tail = 0 → ∃ tokens,
        Json5.Document tokens r.rest ∧ Json5.Value platform cfg tokens value)) ∨
    ∃ failure r' p',
      readText skipOrStop platform cfg w.tail r = .error r' ∧
      r'.failure = some failure ∧ Parser.parse platform cfg p = .error p' ∧
      p'.error = failure.error w := by
  have hmatches : Matches w (Parser.parse platform cfg p)
      (Reading.readText Reading.skipWhitespace platform cfg w.tail r) fun _ p' value r' =>
        ValueStep platform cfg w 0 p p' value r' :=
    matches_parse htracks hstart hpadded
  have hends : Reads r (readText Reading.skipWhitespace platform cfg w.tail r) := reads_readText
  have hhalted := (@stops_readText platform cfg w.tail).halted r hclear
  cases hstops : readText skipOrStop platform cfg w.tail r with
  | stuck =>
      rw [hstops] at hhalted
      exact absurd hhalted hends.ne_stuck
  | ok pair =>
      obtain ⟨value, r'⟩ := pair
      rw [hstops] at hhalted
      obtain ⟨hnone, hread⟩ := hhalted
      rw [hread] at hmatches
      obtain ⟨_, p', hparse, hvalue⟩ := hmatches
      refine .inl ⟨value, r', p', rfl, hparse, ?_, hvalue.out, fun htail => ?_⟩
      · rw [hvalue.tracks.error, hnone]
        rfl
      · obtain ⟨rest, recorded⟩ := r
        obtain rfl : recorded = none := hclear
        rw [htail] at hread
        exact (Json5.document_of_readText hjson5 hread).2
  | error r' =>
      rw [hstops] at hhalted
      obtain ⟨failure, hmark, hleaves⟩ := hhalted
      cases hread : readText Reading.skipWhitespace platform cfg w.tail r with
      | stuck => exact absurd hread hends.ne_stuck
      | ok pair =>
          -- the last check of the parse finds the record
          rw [hread] at hleaves
          have hnone : pair.2.failure = none := clear_of_readText hread
          exact absurd (hnone.symm.trans hleaves) (by simp)
      | error r'' =>
          rw [hread] at hmatches hleaves
          obtain hfalse | ⟨p', hparse, hfailed⟩ := hmatches
          · exact hfalse.elim
          · refine .inr ⟨failure, r', p', rfl, hmark, hparse, ?_⟩
            rw [Parser.error, show p'.mError = _ from hfailed, show r''.failure = _ from hleaves]
            rfl

/-- The bracket inside the comment closes the array, and the parse fails all the same. -/
theorem Parser.parse_firstFailure_comment : ∃ p',
    Parser.parse halfPlatform { json5 := true }
      { buffer := padded (asciiBytes "[1/*]"), mBegin := 0, mCurr := 0, mEnd := 5 } = .error p' ∧
    p'.error = { code := .unexpectedEndOfInput, position := 5, positioned := true } := by
  have hstops : Reading.readText skipOrStop halfPlatform { json5 := true } 0
      { rest := asciiBytes "[1/*]" } =
      .error { rest := asciiBytes "]",
               failure := some { code := .unexpectedEndOfInput, left := some 0 } } := rfl
  have htracks : Tracks (Window.whole (asciiBytes "[1/*]")) 0 _ _ := tracks_whole (asciiBytes "[1/*]")
  obtain ⟨_, _, _, hread, _⟩ | ⟨failure, r', p', hread, hfailure, hparse, herror⟩ :=
    @Parser.parse_firstFailure halfPlatform { json5 := true } _ _ _ rfl htracks rfl rfl rfl
  · cases hstops.symm.trans hread
  · obtain rfl := Res.error.inj (hstops.symm.trans hread)
    obtain rfl := Option.some.inj hfailure
    exact ⟨p', hparse, herror⟩

end PjhJson
