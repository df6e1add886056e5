import PjhJson.ReadingClear
import PjhJson.ReadingTotal

/-! A reading goes forward: what is left when it returns is the end of what was left before, and a recorded
failure stays. Unlike the totality of the reading this does not depend on the fuel of its loops. -/

namespace PjhJson.Reading

open Grammar Prog

variable {platform : Platform} {cfg : Config} {tail : Nat} {α β : Type}

/-- Where the program returns, it has gone forward and has not dropped a failure. -/
def Onward (program : Prog Reading α) : Prop :=
  ∀ r a r', program r = .ok (a, r') → r'.rest <:+ r.rest ∧ (Clear r' → Clear r)

theorem onward_pure (a : α) : Onward (pure a : Prog Reading α) := by
  intro r a' r' h
  obtain ⟨-, rfl⟩ := Prod.mk.inj (Res.ok.inj h)
  exact ⟨List.suffix_refl _, id⟩

theorem onward_stuck : Onward (stuck : Prog Reading α) := fun _ _ _ h => by cases h

theorem onward_bind {program : Prog Reading α} {next : α → Prog Reading β} (h : Onward program)
    (hnext : ∀ a, Onward (next a)) : Onward (program >>= next) := by
  intro r b r'' hrun
  rw [bind_apply, Res.bind_eq_ok] at hrun
  obtain ⟨⟨a, r'⟩, hprogram, hrest⟩ := hrun
  obtain ⟨hsuffix, hclear⟩ := h r a r' hprogram
  obtain ⟨hsuffix', hclear'⟩ := hnext a r' b r'' hrest
  exact ⟨hsuffix'.trans hsuffix, hclear ∘ hclear'⟩

theorem onward_get {next : Reading → Prog Reading α} (h : ∀ r, Onward (next r)) : Onward (get >>= next) :=
  fun r => h r r

theorem onward_ite {c : Prop} [Decidable c] {program other : Prog Reading α} (h : Onward program)
    (hother : Onward other) : Onward (if c then program else other) := by
  split
  · exact h
  · exact hother

theorem onward_of_reads {program : Prog Reading α} (hreads : ∀ r, Reads r (program r))
    (hclear : Reflects Clear program) : Onward program := by
  intro r a r' h
  have hsuffix := hreads r
  rw [h] at hsuffix
  exact ⟨hsuffix, hclear r a r' h⟩

theorem onward_failHere (code : ErrorCode) : Onward (failHere code : Prog Reading α) :=
  onward_of_reads (fun _ => reads_failHere code) (settles_failHere code).reflects

theorem onward_peek : Onward peek := by
  intro r a r' h
  obtain ⟨-, rfl⟩ := Prod.mk.inj (Res.ok.inj h)
  exact ⟨List.suffix_refl _, id⟩

theorem onward_advance (count : Nat) : Onward (advance count) :=
  onward_of_reads (fun _ => reads_advance count) (settles_advance count).reflects

theorem onward_skipWhitespace : Onward (skipWhitespace cfg tail) :=
  onward_of_reads (fun _ => reads_skipWhitespace) clear_skipWhitespace

theorem onward_readLiteral : Onward (readLiteral cfg) :=
  onward_of_reads (fun _ => reads_readLiteral) settles_readLiteral.reflects

theorem onward_readNumber : Onward (readNumber platform cfg tail) :=
  onward_of_reads (fun _ => reads_readNumber) settles_readNumber.reflects

theorem onward_readString : Onward (readString cfg tail) :=
  onward_of_reads (fun _ => reads_readString) settles_readString.reflects

theorem onward_readStringJson5 (quote : UInt8) : Onward (readStringJson5 cfg tail quote) :=
  onward_of_reads (fun _ => reads_readStringJson5 quote) (settles_readStringJson5 quote).reflects

theorem onward_readKey : Onward (readKey cfg tail) :=
  onward_of_reads (fun _ => reads_readKey) settles_readKey.reflects

theorem onward_checkDepth (depth : Nat) : Onward (checkDepth cfg depth) :=
  onward_ite (onward_failHere _) (onward_pure ())

theorem onward_atByte (c : UInt8) : Onward (atByte tail c) :=
  onward_get fun _ => onward_ite (onward_pure _) (onward_pure _)

theorem onward_closedAfterComma (c : UInt8) : Onward (closedAfterComma skipWhitespace cfg tail c) :=
  onward_of_reads (fun _ => reads_closedAfterComma c) (clear_closedAfterComma c)

theorem onward_checkDuplicateKey (members : List (Bytes × Ast)) (key : Bytes) :
    Onward (checkDuplicateKey cfg members key) :=
  onward_ite (onward_of_reads (fun _ => reads_failContext _ _) (settles_failContext _ _).reflects) (onward_pure ())

/-- The end of a container behind a comma, or the items that follow. -/
theorem onward_closed {closed : Bool} {done : α} {loop : Prog Reading α} (h : Onward loop) :
    Onward (if closed then do
        advance 1
        pure done
      else loop) :=
  onward_ite (onward_bind (onward_advance 1) fun _ => onward_pure done) h

/-- What follows an element, given the loop over the elements behind it. -/
theorem onward_afterElement {elements : List Ast} {loop : Prog Reading (List Ast)} (hloop : Onward loop) :
    Onward (peek >>= fun c =>
      if c = ascii ']' then do
        advance 1
        pure elements
      else if c = ascii ',' then do
        advance 1
        let closed ← closedAfterComma skipWhitespace cfg tail (ascii ']')
        if closed then do
            advance 1
            pure elements
          else loop
      else failHere .expectedCommaOrBracket) := by
  refine onward_bind onward_peek fun c => onward_ite ?_ (onward_ite ?_ (onward_failHere _))
  · exact onward_bind (onward_advance 1) fun _ => onward_pure _
  · refine onward_bind (onward_advance 1) fun _ => onward_bind (onward_closedAfterComma _) fun closed => ?_
    exact onward_closed hloop

/-- What follows a member, given the loop over the members behind it. -/
theorem onward_afterMember {members : List (Bytes × Ast)} {loop : Prog Reading (List (Bytes × Ast))}
    (hloop : Onward loop) :
    Onward (get >>= fun r =>
      if r.atEnd tail then failHere .unexpectedEndOfObject
      else if r.here = ascii '}' then do
        advance 1
        pure members
      else if r.here = ascii ',' then do
        advance 1
        let closed ← closedAfterComma skipWhitespace cfg tail (ascii '}')
        if closed then do
            advance 1
            pure members
          else loop
      else failHere .expectedCommaOrBrace) := by
  refine onward_get fun r => onward_ite (onward_failHere _) (onward_ite ?_ (onward_ite ?_ (onward_failHere _)))
  · exact onward_bind (onward_advance 1) fun _ => onward_pure _
  · refine onward_bind (onward_advance 1) fun _ => onward_bind (onward_closedAfterComma _) fun closed => ?_
    exact onward_closed hloop

section Elements

variable {element : Prog Reading Ast} (h : Onward element)
include h

theorem onward_elementsLoop (fuel : Nat) (elements : List Ast) :
    Onward (elementsLoop skipWhitespace cfg tail element fuel elements) := by
  induction fuel generalizing elements with
  | zero => exact onward_stuck
  | succ fuel ih =>
      unfold elementsLoop
      exact onward_bind h fun value => onward_bind onward_skipWhitespace fun _ => onward_afterElement (ih _)

theorem onward_memberValue (key : Bytes) : Onward (do
    let c ← peek
    if c ≠ ascii ':' then failHere .expectedColon
    else
      advance 1
      let value ← element
      pure (key, value) : Prog Reading (Bytes × Ast)) := by
  refine onward_bind onward_peek fun c => onward_ite (onward_failHere _) ?_
  exact onward_bind (onward_advance 1) fun _ => onward_bind h fun value => onward_pure _

theorem onward_readMember (members : List (Bytes × Ast)) :
    Onward (readMember skipWhitespace cfg tail element members) := by
  refine onward_bind onward_skipWhitespace fun _ => onward_bind onward_readKey fun key => ?_
  exact onward_bind (onward_checkDuplicateKey _ _) fun _ =>
    onward_bind onward_skipWhitespace fun _ => onward_memberValue h key

theorem onward_membersLoop (fuel : Nat) (members : List (Bytes × Ast)) :
    Onward (membersLoop skipWhitespace cfg tail element fuel members) := by
  induction fuel generalizing members with
  | zero => exact onward_stuck
  | succ fuel ih =>
      unfold membersLoop
      exact onward_bind (onward_readMember h _) fun member =>
        onward_bind onward_skipWhitespace fun _ => onward_afterMember (ih _)

end Elements

theorem onward_readArray (depth : Nat) {element : Nat → Prog Reading Ast} (h : ∀ depth, Onward (element depth)) :
    Onward (readArray skipWhitespace cfg tail depth element) := by
  refine onward_get fun start => onward_bind (onward_checkDepth _) fun _ => ?_
  refine onward_bind (onward_advance 1) fun _ => onward_bind onward_skipWhitespace fun _ => ?_
  refine onward_bind (onward_atByte _) fun empty => onward_closed ?_
  exact onward_bind (onward_elementsLoop (h _) _ _) fun _ => onward_pure _

theorem onward_readObject (depth : Nat) {element : Nat → Prog Reading Ast} (h : ∀ depth, Onward (element depth)) :
    Onward (readObject skipWhitespace cfg tail depth element) := by
  refine onward_get fun start => onward_bind (onward_checkDepth _) fun _ => ?_
  refine onward_bind (onward_advance 1) fun _ => onward_bind onward_skipWhitespace fun _ => ?_
  refine onward_bind onward_peek fun c => onward_ite ?_ ?_
  · exact onward_bind (onward_advance 1) fun _ => onward_pure _
  · exact onward_bind (onward_membersLoop (h _) _ _) fun _ => onward_pure _

theorem onward_readValueAt (depth : Nat) {element : Nat → Prog Reading Ast} (h : ∀ depth, Onward (element depth))
    (unexpected : ErrorCode) (c : UInt8) :
    Onward (readValueAt skipWhitespace platform cfg tail depth element unexpected c) := by
  refine onward_ite (onward_readObject depth h) (onward_ite (onward_readArray depth h) ?_)
  refine onward_ite (onward_bind onward_readString fun _ => onward_pure _) ?_
  refine onward_ite onward_readLiteral (onward_ite onward_readNumber (onward_ite ?_ ?_))
  · exact onward_bind (onward_readStringJson5 _) fun _ => onward_pure _
  · exact onward_ite onward_readNumber (onward_failHere _)

theorem onward_readElement (fuel depth : Nat) : Onward (readElement skipWhitespace platform cfg tail fuel depth) := by
  induction fuel generalizing depth with
  | zero => exact onward_stuck
  | succ fuel ih =>
      unfold readElement
      refine onward_bind onward_skipWhitespace fun _ => onward_bind onward_peek fun c => ?_
      exact onward_readValueAt depth ih _ c

end PjhJson.Reading
