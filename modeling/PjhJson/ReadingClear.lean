import PjhJson.LibRecord
import PjhJson.ReadingValue

/-! A failure that has been recorded stays recorded: a reading that ends without one has begun
without one. Only JSON5 trivia record a failure and go on. -/

namespace PjhJson.Reading

open Grammar Prog

variable {platform : Platform} {cfg : Config} {tail : Nat} {α : Type}

/-- No failure has been recorded. -/
def Clear (r : Reading) : Prop := r.failure = none

theorem settles_peek : Settles failure peek :=
  ⟨fun _ _ hmark => hmark, fun _ hnone => ⟨hnone, rfl⟩⟩

theorem settles_advance (count : Nat) : Settles failure (advance count) :=
  settles_modify fun _ => rfl

theorem settles_advanceTo (rest : Bytes) : Settles failure (advanceTo tail rest) :=
  settles_modify fun _ => rfl

theorem record_some {f : Failure} {r : Reading} {value : Failure} (h : r.failure = some value) :
    record f r = .ok ((), r) := by
  rw [record, modify_apply, h]
  rfl

theorem record_none {f : Failure} {r : Reading} (h : r.failure = none) :
    record f r = .ok ((), { r with failure := some f }) := by
  rw [record, modify_apply, h]
  rfl

theorem stays_record (f : Failure) : Stays failure (record f) := by
  intro r value hmark
  rw [record_some hmark]
  exact hmark

/-- A failure that is recorded on the way out. -/
theorem settles_recorded (f : Failure) :
    Settles failure (record f >>= fun _ => (halt : Prog Reading α)) := by
  refine ⟨stays_bind (stays_record f) fun _ _ _ hmark => hmark, fun r hnone => ?_⟩
  rw [bind_of_ok (record_none hnone)]
  exact ⟨f, rfl, rfl⟩

theorem settles_fail (code : ErrorCode) (left : Nat) :
    Settles failure (fail code left : Prog Reading α) := settles_recorded _

theorem settles_failHere (code : ErrorCode) : Settles failure (failHere code : Prog Reading α) :=
  settles_bind settles_get fun _ => settles_fail code _

theorem settles_failContext (code : ErrorCode) (detail : Bytes) :
    Settles failure (failContext code detail : Prog Reading α) := settles_recorded _

theorem stays_skipWhitespace : Stays failure (skipWhitespace cfg tail) := by
  rw [skipWhitespace]
  split
  · refine stays_bind settles_get.stays fun r => ?_
    split
    · exact settles_stuck.stays
    · refine stays_bind (settles_advanceTo _).stays fun _ => ?_
      split
      · exact stays_record _
      · exact (settles_pure ()).stays
  · exact (settles_modify fun _ => rfl).stays

/-! ### Tokens -/

theorem settles_readLiteral : Settles failure (readLiteral cfg) := by
  refine settles_bind settles_get fun r => ?_
  split
  · exact settles_failHere _
  · refine settles_bind (settles_advance _) fun _ => settles_bind settles_peek fun next => ?_
    exact settles_ite (settles_pure _) (settles_failHere _)

theorem settles_readNumber : Settles failure (readNumber platform cfg tail) := by
  refine settles_bind settles_get fun r => ?_
  split
  · exact settles_fail _ _
  · exact settles_bind (settles_advanceTo _) fun _ => settles_pure _

theorem settles_checkUtf8 (left : Nat) (ck : Utf8Checker) : Settles failure (checkUtf8 left ck) :=
  settles_ite (settles_fail _ _) (settles_pure _)

theorem settles_decodeEscape (text : Reading → Bytes)
    (decoder : Bytes → Res EscapeError (Bytes × Bytes)) :
    Settles failure (decodeEscape text decoder) := by
  refine settles_bind settles_get fun r => ?_
  split
  · exact settles_stuck
  · exact settles_failContext _ _
  · exact settles_fail _ _
  · exact settles_bind (settles_advance _) fun _ => settles_pure _

theorem settles_decodeLoop (left fuel : Nat) (decoded : Bytes) (ck : Utf8Checker) :
    Settles failure (decodeLoop cfg left fuel decoded ck) := by
  induction fuel generalizing decoded ck with
  | zero => exact settles_stuck
  | succ fuel ih =>
      unfold decodeLoop
      refine settles_bind settles_peek fun c => settles_ite ?_ (settles_bind settles_get fun r => ?_)
      · exact settles_bind (settles_checkUtf8 _ _) fun _ => settles_bind (settles_advance 1) fun _ =>
          settles_pure _
      · refine settles_bind (settles_checkUtf8 _ _) fun _ => settles_ite ?_ (settles_ite ?_ ?_)
        · exact settles_bind (settles_decodeEscape _ _) fun _ => ih _ _
        · exact settles_failHere _
        · exact settles_bind (settles_advance 1) fun _ => ih _ _

theorem settles_readStringBody : Settles failure (readStringBody cfg tail) := by
  refine settles_bind settles_get fun start => settles_bind (settles_advance _) fun _ => ?_
  refine settles_bind settles_peek fun c => settles_ite ?_ (settles_ite ?_ ?_)
  · exact settles_bind (settles_checkUtf8 _ _) fun _ => settles_bind (settles_advance 1) fun _ =>
      settles_pure _
  · exact settles_bind (settles_checkUtf8 _ _) fun _ => settles_decodeLoop _ _ _ _
  · exact settles_bind settles_get fun _ => settles_ite (settles_failHere _) (settles_failHere _)

theorem settles_stringLoopJson5 (quote : UInt8) (left fuel : Nat) (decoded : Bytes)
    (ck : Utf8Checker) : Settles failure (stringLoopJson5 cfg tail quote left fuel decoded ck) := by
  induction fuel generalizing decoded ck with
  | zero => exact settles_stuck
  | succ fuel ih =>
      unfold stringLoopJson5
      refine settles_bind settles_get fun r => settles_ite (settles_failHere _) ?_
      refine settles_bind settles_peek fun c => settles_ite ?_ ?_
      · exact settles_bind (settles_checkUtf8 _ _) fun _ => settles_bind (settles_advance 1) fun _ =>
          settles_pure _
      refine settles_bind (settles_checkUtf8 _ _) fun _ => settles_ite ?_ (settles_ite ?_ ?_)
      · exact settles_bind (settles_decodeEscape _ _) fun _ => ih _ _
      · exact settles_failHere _
      · exact settles_bind (settles_advance 1) fun _ => ih _ _

theorem settles_readStringJson5 (quote : UInt8) : Settles failure (readStringJson5 cfg tail quote) :=
  settles_bind (settles_advance 1) fun _ => settles_bind settles_get fun _ =>
    settles_stringLoopJson5 _ _ _ _ _

theorem settles_readString : Settles failure (readString cfg tail) := by
  refine settles_bind settles_get fun r => settles_ite (settles_failHere _) ?_
  refine settles_bind settles_peek fun c => settles_ite (settles_failHere _) ?_
  exact settles_ite (settles_readStringJson5 _)
    (settles_bind (settles_advance 1) fun _ => settles_readStringBody)

theorem settles_identifierLoop (fuel : Nat) (first : Bool) (decoded : Bytes) :
    Settles failure (identifierLoop tail fuel first decoded) := by
  induction fuel generalizing first decoded with
  | zero => exact settles_stuck
  | succ fuel ih =>
      unfold identifierLoop
      refine settles_bind settles_get fun r => ?_
      split
      · exact settles_pure _
      refine settles_ite (settles_pure _) ?_
      split
      · exact settles_failContext _ _
      · exact settles_bind (settles_advanceTo _) fun _ => ih _ _

theorem settles_readIdentifierKey : Settles failure (readIdentifierKey tail) := by
  refine settles_bind settles_get fun start => ?_
  refine settles_bind (settles_identifierLoop _ _ _) fun key => settles_bind settles_get fun r => ?_
  exact settles_ite (settles_failHere _) (settles_pure _)

theorem settles_readKey : Settles failure (readKey cfg tail) := by
  refine settles_bind settles_get fun r => settles_ite (settles_ite ?_ ?_) ?_
  · exact settles_readStringJson5 _
  · exact settles_ite settles_readIdentifierKey settles_readString
  · exact settles_ite (settles_failHere _) settles_readString

theorem settles_checkDepth (depth : Nat) : Settles failure (checkDepth cfg depth) :=
  settles_ite (settles_failHere _) (settles_pure _)

theorem settles_atByte (c : UInt8) : Settles failure (atByte tail c) :=
  settles_bind settles_get fun _ => settles_ite (settles_pure _) (settles_pure _)

theorem settles_checkDuplicateKey (members : List (Bytes × Ast)) (key : Bytes) :
    Settles failure (checkDuplicateKey cfg members key) :=
  settles_ite (settles_failContext _ _) (settles_pure _)

/-! ### Containers -/

theorem clear_skipWhitespace : Reflects Clear (skipWhitespace cfg tail) :=
  stays_skipWhitespace.reflects

theorem clear_closedAfterComma (c : UInt8) : Reflects Clear (closedAfterComma skipWhitespace cfg tail c) :=
  reflects_ite (reflects_bind clear_skipWhitespace fun _ => (settles_atByte c).reflects)
    (reflects_pure _)

section Elements

variable {element : Prog Reading Ast} (h : Reflects Clear element)
include h

theorem clear_elementsLoop (fuel : Nat) (elements : List Ast) :
    Reflects Clear (elementsLoop skipWhitespace cfg tail element fuel elements) := by
  induction fuel generalizing elements with
  | zero => exact reflects_stuck
  | succ fuel ih =>
      unfold elementsLoop
      refine reflects_bind h fun value => reflects_bind clear_skipWhitespace fun _ => ?_
      refine reflects_bind settles_peek.reflects fun c => reflects_ite ?_ (reflects_ite ?_
        (settles_failHere _).reflects)
      · exact reflects_bind (settles_advance 1).reflects fun _ => reflects_pure _
      · refine reflects_bind (settles_advance 1).reflects fun _ => ?_
        refine reflects_bind (clear_closedAfterComma _) fun closed => reflects_ite ?_ (ih _)
        exact reflects_bind (settles_advance 1).reflects fun _ => reflects_pure _

/-- A member behind its key. -/
theorem clear_memberValue (key : Bytes) : Reflects Clear (do
    skipWhitespace cfg tail
    let c ← peek
    if c ≠ ascii ':' then failHere .expectedColon
    else
      advance 1
      let value ← element
      pure (key, value) : Prog Reading (Bytes × Ast)) := by
  refine reflects_bind clear_skipWhitespace fun _ => reflects_bind settles_peek.reflects fun c => ?_
  refine reflects_ite (settles_failHere _).reflects (reflects_bind
    (settles_advance 1).reflects fun _ => ?_)
  exact reflects_bind h fun value => reflects_pure _

theorem clear_readMember (members : List (Bytes × Ast)) :
    Reflects Clear (readMember skipWhitespace cfg tail element members) := by
  refine reflects_bind clear_skipWhitespace fun _ =>
    reflects_bind settles_readKey.reflects fun key => ?_
  exact reflects_bind (settles_checkDuplicateKey _ _).reflects fun _ => clear_memberValue h key

theorem clear_membersLoop (fuel : Nat) (members : List (Bytes × Ast)) :
    Reflects Clear (membersLoop skipWhitespace cfg tail element fuel members) := by
  induction fuel generalizing members with
  | zero => exact reflects_stuck
  | succ fuel ih =>
      unfold membersLoop
      refine reflects_bind (clear_readMember h _) fun member => ?_
      refine reflects_bind clear_skipWhitespace fun _ => reflects_bind reflects_get fun r => ?_
      refine reflects_ite (settles_failHere _).reflects (reflects_ite ?_ (reflects_ite ?_
        (settles_failHere _).reflects))
      · exact reflects_bind (settles_advance 1).reflects fun _ => reflects_pure _
      · refine reflects_bind (settles_advance 1).reflects fun _ => ?_
        refine reflects_bind (clear_closedAfterComma _) fun closed => reflects_ite ?_ (ih _)
        exact reflects_bind (settles_advance 1).reflects fun _ => reflects_pure _

end Elements

theorem clear_readArray (depth : Nat) {element : Nat → Prog Reading Ast}
    (h : ∀ depth, Reflects Clear (element depth)) :
    Reflects Clear (readArray skipWhitespace cfg tail depth element) := by
  refine reflects_bind reflects_get fun start => reflects_bind
    (settles_checkDepth _).reflects fun _ => ?_
  refine reflects_bind (settles_advance 1).reflects fun _ =>
    reflects_bind clear_skipWhitespace fun _ => ?_
  refine reflects_bind (settles_atByte _).reflects fun empty => reflects_ite ?_ ?_
  · exact reflects_bind (settles_advance 1).reflects fun _ => reflects_pure _
  · exact reflects_bind (clear_elementsLoop (h _) _ _) fun _ => reflects_pure _

theorem clear_readObject (depth : Nat) {element : Nat → Prog Reading Ast}
    (h : ∀ depth, Reflects Clear (element depth)) :
    Reflects Clear (readObject skipWhitespace cfg tail depth element) := by
  refine reflects_bind reflects_get fun start => reflects_bind
    (settles_checkDepth _).reflects fun _ => ?_
  refine reflects_bind (settles_advance 1).reflects fun _ =>
    reflects_bind clear_skipWhitespace fun _ => ?_
  refine reflects_bind settles_peek.reflects fun c => reflects_ite ?_ ?_
  · exact reflects_bind (settles_advance 1).reflects fun _ => reflects_pure _
  · exact reflects_bind (clear_membersLoop (h _) _ _) fun _ => reflects_pure _

theorem clear_readValueAt (depth : Nat) {element : Nat → Prog Reading Ast}
    (h : ∀ depth, Reflects Clear (element depth)) (unexpected : ErrorCode) (c : UInt8) :
    Reflects Clear (readValueAt skipWhitespace platform cfg tail depth element unexpected c) := by
  refine reflects_ite (clear_readObject depth h) (reflects_ite (clear_readArray depth h) ?_)
  refine reflects_ite (reflects_bind settles_readString.reflects fun _ => reflects_pure _) ?_
  refine reflects_ite settles_readLiteral.reflects (reflects_ite settles_readNumber.reflects
    (reflects_ite ?_ ?_))
  · exact reflects_bind (settles_readStringJson5 _).reflects fun _ => reflects_pure _
  · exact reflects_ite settles_readNumber.reflects (settles_failHere _).reflects

theorem clear_readElement (fuel depth : Nat) :
    Reflects Clear (readElement skipWhitespace platform cfg tail fuel depth) := by
  induction fuel generalizing depth with
  | zero => exact reflects_stuck
  | succ fuel ih =>
      unfold readElement
      refine reflects_bind clear_skipWhitespace fun _ =>
        reflects_bind settles_peek.reflects fun c => ?_
      exact clear_readValueAt depth ih _ c

theorem clear_failIfRecorded : Reflects Clear failIfRecorded :=
  reflects_bind reflects_get fun _ => reflects_ite reflects_halt (reflects_pure _)

/-- A reading that goes on behind the check has recorded nothing. -/
theorem failIfRecorded_ok {r r' : Reading} (h : failIfRecorded r = .ok ((), r')) :
    r' = r ∧ Clear r := by
  rw [failIfRecorded, Prog.bind_get] at h
  split at h
  · cases h
  · rename_i hnone
    obtain ⟨-, rfl⟩ := Prod.mk.inj (Res.ok.inj h)
    exact ⟨rfl, Option.not_isSome_iff_eq_none.mp hnone⟩

/-- A text that is read to its end records no failure. -/
theorem clear_of_readText {value : Ast} {r r' : Reading}
    (h : readText skipWhitespace platform cfg tail r = .ok (value, r')) : Clear r' := by
  rw [readText, Prog.bind_get, Prog.bind_apply, Res.bind_eq_ok] at h
  obtain ⟨⟨_, r₁⟩, -, h⟩ := h
  rw [Prog.bind_apply, Res.bind_eq_ok] at h
  obtain ⟨⟨_, r₂⟩, -, h⟩ := h
  rw [Prog.bind_apply, Res.bind_eq_ok] at h
  obtain ⟨⟨_, r₃⟩, -, h⟩ := h
  rw [Prog.bind_apply, Res.bind_eq_ok] at h
  obtain ⟨⟨_, r₄⟩, -, h⟩ := h
  rw [Prog.bind_apply, Res.bind_eq_ok] at h
  obtain ⟨⟨_, r₅⟩, hcheck, h⟩ := h
  obtain ⟨rfl, hclear⟩ := failIfRecorded_ok hcheck
  rw [Prog.bind_get] at h
  split at h
  · obtain ⟨-, rfl⟩ := Prod.mk.inj (Res.ok.inj h)
    exact hclear
  · cases h

end PjhJson.Reading
