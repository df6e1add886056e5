import PjhJson.NumberValue
import PjhJson.ReadingClear
import PjhJson.RefineEntry

/-! Repeated keys. The strict run of a reading does what the lenient one does as long as no key
repeats an earlier key of its object, and stops at the first that does. -/

namespace PjhJson

open Grammar Prog

/-- The same parser settings with the duplicate check off or on. -/
def Config.unique (cfg : Config) (strictDuplicateKeys : Bool) : Config :=
  { cfg with strictDuplicateKeys }

namespace Ast

mutual

/-- The keys that repeat an earlier key of their object, in text order. -/
def repeats : Ast → List Bytes
  | array elements => repeatsElements elements
  | object members => repeatsMembers [] members
  | _ => []

def repeatsElements : List Ast → List Bytes
  | [] => []
  | value :: rest => value.repeats ++ repeatsElements rest

def repeatsMembers (earlier : List Bytes) : List (Bytes × Ast) → List Bytes
  | [] => []
  | (key, value) :: rest =>
    (if key ∈ earlier then [key] else []) ++
      (value.repeats ++ repeatsMembers (earlier ++ [key]) rest)

end

/-- No object has two members with the same key. -/
inductive DistinctKeys : Ast → Prop where
  | null : DistinctKeys null
  | boolean (value : Bool) : DistinctKeys (boolean value)
  | number (token : Bytes) : DistinctKeys (number token)
  | string (value : Bytes) : DistinctKeys (string value)
  | array (elements : List Ast) : (∀ value ∈ elements, DistinctKeys value) →
      DistinctKeys (array elements)
  | object (members : List (Bytes × Ast)) : (members.map (·.1)).Nodup →
      (∀ member ∈ members, DistinctKeys member.2) → DistinctKeys (object members)

theorem repeatsElements_append (elements more : List Ast) :
    repeatsElements (elements ++ more) = repeatsElements elements ++ repeatsElements more := by
  induction elements with
  | nil => rfl
  | cons value rest ih =>
      rw [List.cons_append, repeatsElements, repeatsElements, ih, List.append_assoc]

theorem repeatsMembers_append (earlier : List Bytes) (members more : List (Bytes × Ast)) :
    repeatsMembers earlier (members ++ more) =
      repeatsMembers earlier members ++ repeatsMembers (earlier ++ members.map (·.1)) more := by
  induction members generalizing earlier with
  | nil => rw [List.nil_append, List.map_nil, List.append_nil, repeatsMembers, List.nil_append]
  | cons member rest ih =>
      obtain ⟨key, value⟩ := member
      rw [List.cons_append, repeatsMembers, repeatsMembers, ih, List.map_cons, List.append_assoc,
        List.append_assoc, List.append_assoc, List.singleton_append]

theorem repeatsElements_eq_nil {elements : List Ast} :
    repeatsElements elements = [] ↔ ∀ value ∈ elements, value.repeats = [] := by
  induction elements with
  | nil => simp [repeatsElements]
  | cons value rest ih => rw [repeatsElements, List.append_eq_nil_iff, ih, List.forall_mem_cons]

theorem repeatsMembers_eq_nil {earlier : List Bytes} {members : List (Bytes × Ast)} :
    repeatsMembers earlier members = [] ↔
      (members.map (·.1)).Nodup ∧ (∀ member ∈ members, member.1 ∉ earlier) ∧
        ∀ member ∈ members, member.2.repeats = [] := by
  induction members generalizing earlier with
  | nil => simp [repeatsMembers]
  | cons member rest ih =>
      obtain ⟨key, value⟩ := member
      have hkey : (if key ∈ earlier then [key] else []) = [] ↔ key ∉ earlier := by
        split <;> simp_all
      have hrest : (∀ member ∈ rest, member.1 ∉ earlier ++ [key]) ↔
          (∀ member ∈ rest, member.1 ∉ earlier) ∧ key ∉ rest.map (·.1) := by
        simp only [List.mem_append, List.mem_singleton, not_or, List.mem_map, not_exists, not_and]
        exact forall₂_and
      rw [repeatsMembers, List.append_eq_nil_iff, List.append_eq_nil_iff, ih, hkey, hrest,
        List.map_cons, List.nodup_cons, List.forall_mem_cons, List.forall_mem_cons]
      tauto

/-- Nothing is repeated when the keys of each object differ. -/
theorem repeats_eq_nil_iff (value : Ast) : value.repeats = [] ↔ value.DistinctKeys := by
  induction value using Ast.induct with
  | null => exact iff_of_true rfl .null
  | boolean value => exact iff_of_true rfl (.boolean value)
  | number token => exact iff_of_true rfl (.number token)
  | string value => exact iff_of_true rfl (.string value)
  | array elements ih =>
      rw [repeats, repeatsElements_eq_nil]
      constructor
      · exact fun h => .array elements fun value hmem => (ih value hmem).mp (h value hmem)
      · rintro ⟨⟩
        rename_i h
        exact fun value hmem => (ih value hmem).mpr (h value hmem)
  | object members ih =>
      rw [repeats, repeatsMembers_eq_nil]
      constructor
      · rintro ⟨hnodup, -, h⟩
        exact .object members hnodup fun member hmem => (ih member hmem).mp (h member hmem)
      · rintro ⟨⟩
        rename_i hnodup h
        exact ⟨hnodup, fun _ _ => List.not_mem_nil, fun member hmem =>
          (ih member hmem).mpr (h member hmem)⟩

end Ast

namespace Reading

/-! ### What does not look at the check -/

section Unique

variable (cfg : Config) (on : Bool) (tail : Nat)

theorem decodeLoop_unique (left fuel : Nat) (decoded : Bytes) (ck : Utf8Checker) :
    decodeLoop (cfg.unique on) left fuel decoded ck = decodeLoop cfg left fuel decoded ck := by
  induction fuel generalizing decoded ck with
  | zero => rfl
  | succ fuel ih =>
      simp only [decodeLoop, ih]
      rfl

theorem stringLoopJson5_unique (quote : UInt8) (left fuel : Nat) (decoded : Bytes)
    (ck : Utf8Checker) : stringLoopJson5 (cfg.unique on) tail quote left fuel decoded ck =
      stringLoopJson5 cfg tail quote left fuel decoded ck := by
  induction fuel generalizing decoded ck with
  | zero => rfl
  | succ fuel ih =>
      simp only [stringLoopJson5, ih]
      rfl

theorem readStringJson5_unique (quote : UInt8) :
    readStringJson5 (cfg.unique on) tail quote = readStringJson5 cfg tail quote := by
  simp only [readStringJson5, stringLoopJson5_unique]

theorem readString_unique : readString (cfg.unique on) tail = readString cfg tail := by
  simp only [readString, readStringJson5_unique, readStringBody, decodeLoop_unique]
  rfl

theorem readKey_unique : readKey (cfg.unique on) tail = readKey cfg tail := by
  simp only [readKey, readStringJson5_unique, readString_unique]
  rfl

end Unique

/-- What the strict run makes of the lenient run: a value that repeats no key is read all the same,
and otherwise the strict run stops at the first repeated key. -/
structure Screened {α : Type} (keys : α → List Bytes) (lenient strict : Res Reading (α × Reading)) :
    Prop where
  same : ∀ a r', lenient = .ok (a, r') → keys a = [] → strict = .ok (a, r')
  stops : ∀ a r' key more, lenient = .ok (a, r') → keys a = key :: more →
    ∃ q, strict = .error q ∧ (Clear r' → q.failure = some { code := .duplicateKey, detail := key })
  back : ∀ a r', strict = .ok (a, r') → lenient = .ok (a, r')

variable {α β : Type} {keys : α → List Bytes} {keys' : β → List Bytes} {r : Reading}

theorem Screened.ok_iff {lenient strict : Res Reading (α × Reading)} (h : Screened keys lenient strict)
    {a : α} {r' : Reading} : strict = .ok (a, r') ↔ lenient = .ok (a, r') ∧ keys a = [] := by
  constructor
  · intro hstrict
    have hlenient := h.back a r' hstrict
    refine ⟨hlenient, ?_⟩
    cases hkeys : keys a with
    | nil => rfl
    | cons key more =>
        obtain ⟨q, hq, -⟩ := h.stops a r' key more hlenient hkeys
        rw [hq] at hstrict
        cases hstrict
  · rintro ⟨hlenient, hkeys⟩
    exact h.same a r' hlenient hkeys

/-- A run that repeats no key and does not check. -/
theorem screened_same {run : Res Reading (α × Reading)}
    (h : ∀ a r', run = .ok (a, r') → keys a = []) : Screened keys run run where
  same _ _ hrun _ := hrun
  stops a r' key more hrun hkeys := by
    rw [h a r' hrun] at hkeys
    cases hkeys
  back _ _ hrun := hrun

theorem screened_failHere {code : ErrorCode} :
    Screened keys (failHere code r) (failHere code r) := screened_same fun _ _ h => by cases h

theorem screened_stuck : Screened keys .stuck .stuck := screened_same fun _ _ h => by cases h

theorem screened_step {program : Prog Reading β} {next next' : β → Prog Reading α}
    (h : ∀ b r', program r = .ok (b, r') → Screened keys (next b r') (next' b r')) :
    Screened keys ((program >>= next) r) ((program >>= next') r) := by
  rw [Prog.bind_apply, Prog.bind_apply]
  cases hprogram : program r with
  | ok pair => exact h pair.1 pair.2 hprogram
  | error r' => exact screened_same fun _ _ h => by cases h
  | stuck => exact screened_stuck

/-- The first part may repeat keys; they come first in the whole. -/
theorem screened_bind {lenient strict : Prog Reading β} {next next' : β → Prog Reading α}
    (h : Screened keys' (lenient r) (strict r)) (hclear : ∀ b, Reflects Clear (next b))
    (hnext : ∀ b r', keys' b = [] → Screened keys (next b r') (next' b r'))
    (hfirst : ∀ b r' a r'', next b r' = .ok (a, r'') → keys' b <+: keys a) :
    Screened keys ((lenient >>= next) r) ((strict >>= next') r) := by
  have hsplit : ∀ {first : Prog Reading β} {rest : β → Prog Reading α} {a : α} {r'' : Reading},
      (first >>= rest) r = .ok (a, r'') → ∃ b r', first r = .ok (b, r') ∧ rest b r' = .ok (a, r'') := by
    intro first rest a r'' hrun
    rw [Prog.bind_apply, Res.bind_eq_ok] at hrun
    obtain ⟨⟨b, r'⟩, hrun⟩ := hrun
    exact ⟨b, r', hrun⟩
  constructor
  case same =>
    intro a r'' hrun hkeys
    obtain ⟨b, r', hlenient, hrest⟩ := hsplit hrun
    have hpre := hfirst b r' a r'' hrest
    rw [hkeys, List.prefix_nil] at hpre
    rw [Prog.bind_of_ok (h.same b r' hlenient hpre)]
    exact (hnext b r' hpre).same a r'' hrest hkeys
  case stops =>
    intro a r'' key more hrun hkeys
    obtain ⟨b, r', hlenient, hrest⟩ := hsplit hrun
    cases hfirstKeys : keys' b with
    | nil =>
        rw [Prog.bind_of_ok (h.same b r' hlenient hfirstKeys)]
        exact (hnext b r' hfirstKeys).stops a r'' key more hrest hkeys
    | cons key' more' =>
        obtain ⟨q, hq, hfailure⟩ := h.stops b r' key' more' hlenient hfirstKeys
        obtain ⟨others, hothers⟩ := hfirst b r' a r'' hrest
        rw [hfirstKeys, hkeys, List.cons_append] at hothers
        obtain ⟨rfl, -⟩ := List.cons.inj hothers
        exact ⟨q, Prog.bind_of_error hq _, fun hr'' => hfailure (hclear b r' a r'' hrest hr'')⟩
  case back =>
    intro a r'' hrun
    obtain ⟨b, r', hstrict, hrest⟩ := hsplit hrun
    have hlenient := h.back b r' hstrict
    have hnone : keys' b = [] := by
      cases hfirstKeys : keys' b with
      | nil => rfl
      | cons key more =>
          obtain ⟨q, hq, -⟩ := h.stops b r' key more hlenient hfirstKeys
          rw [hq] at hstrict
          cases hstrict
    rw [Prog.bind_of_ok hlenient]
    exact (hnext b r' hnone).back a r'' hrest

theorem screened_ite {condition : Prop} [Decidable condition] {yes no yes' no' : Prog Reading α}
    (hyes : Screened keys (yes r) (yes' r)) (hno : Screened keys (no r) (no' r)) :
    Screened keys ((if condition then yes else no) r) ((if condition then yes' else no') r) := by
  split
  · exact hyes
  · exact hno

/-! ### Containers -/

variable {platform : Platform} {cfg : Config} {tail : Nat}

/-- What the loop over elements does behind an element. -/
def afterElement (cfg : Config) (tail : Nat) (element : Prog Reading Ast) (fuel : Nat)
    (elements : List Ast) : Prog Reading (List Ast) := do
  skipWhitespace cfg tail
  let c ← peek
  if c = ascii ']' then
    advance 1
    pure elements
  else if c = ascii ',' then
    advance 1
    let closed ← closedAfterComma skipWhitespace cfg tail (ascii ']')
    if closed then
      advance 1
      pure elements
    else elementsLoop skipWhitespace cfg tail element fuel elements
  else failHere .expectedCommaOrBracket

theorem elementsLoop_succ (element : Prog Reading Ast) (fuel : Nat) (elements : List Ast) :
    elementsLoop skipWhitespace cfg tail element (fuel + 1) elements =
      element >>= fun value => afterElement cfg tail element fuel (elements ++ [value]) := rfl

theorem clear_afterElement {element : Prog Reading Ast} (h : Reflects Clear element) (fuel : Nat)
    (elements : List Ast) : Reflects Clear (afterElement cfg tail element fuel elements) := by
  refine reflects_bind clear_skipWhitespace fun _ => reflects_bind settles_peek.reflects fun c => ?_
  refine reflects_ite ?_ (reflects_ite ?_ (settles_failHere _).reflects)
  · exact reflects_bind (settles_advance 1).reflects fun _ => reflects_pure _
  · refine reflects_bind (settles_advance 1).reflects fun _ => ?_
    refine reflects_bind (clear_closedAfterComma _) fun closed => reflects_ite ?_ ?_
    · exact reflects_bind (settles_advance 1).reflects fun _ => reflects_pure _
    · exact clear_elementsLoop h _ _

/-- The elements that are read come behind those that are there. -/
theorem prefix_of_afterElement {element : Prog Reading Ast} {fuel : Nat} {elements : List Ast}
    (h : ∀ elements r, Yields (elementsLoop skipWhitespace cfg tail element fuel elements r) fun result _ =>
      elements <+: result) :
    Yields (afterElement cfg tail element fuel elements r) fun result _ => elements <+: result := by
  have hdone : ∀ r : Reading, Yields ((advance 1 >>= fun _ => pure elements : Prog Reading _) r)
      fun result _ => elements <+: result :=
    fun _ => yields_of_next fun _ _ => yields_ok (List.prefix_refl elements)
  refine yields_of_next fun _ r₁ => yields_of_next fun c r₂ => ?_
  refine yields_ite (hdone r₂) (yields_ite ?_ (yields_error _))
  refine yields_of_next fun _ r₃ => yields_of_next fun closed r₄ => ?_
  exact yields_ite (hdone r₄) (h elements r₄)

theorem prefix_of_elementsLoop {element : Prog Reading Ast} {fuel : Nat} (elements : List Ast)
    (r : Reading) : Yields (elementsLoop skipWhitespace cfg tail element fuel elements r) fun result _ =>
      elements <+: result := by
  induction fuel generalizing r elements with
  | zero => exact yields_stuck
  | succ fuel ih =>
      rw [elementsLoop_succ]
      refine yields_of_next fun value r₁ => yields_mono (prefix_of_afterElement ih) fun result _ hpre => ?_
      exact (List.prefix_append elements [value]).trans hpre

theorem screened_elementsLoop {element element' : Prog Reading Ast}
    (helement : ∀ r, Screened Ast.repeats (element r) (element' r))
    (hclear : Reflects Clear element) {fuel : Nat} {elements : List Ast}
    (hnone : Ast.repeatsElements elements = []) :
    Screened Ast.repeatsElements (elementsLoop skipWhitespace (cfg.unique false) tail element fuel elements r)
      (elementsLoop skipWhitespace (cfg.unique true) tail element' fuel elements r) := by
  induction fuel generalizing r elements with
  | zero => exact screened_stuck
  | succ fuel ih =>
      have hone : ∀ value : Ast, Ast.repeatsElements (elements ++ [value]) = value.repeats := by
        intro value
        rw [Ast.repeatsElements_append, hnone, List.nil_append, Ast.repeatsElements,
          Ast.repeatsElements, List.append_nil]
      rw [elementsLoop_succ, elementsLoop_succ]
      refine screened_bind (helement r) (fun value => clear_afterElement hclear _ _) ?_ ?_
      · intro value r₁ hvalue
        have hdone : ∀ r : Reading, Screened Ast.repeatsElements
            ((advance 1 >>= fun _ => pure (elements ++ [value]) : Prog Reading _) r)
            ((advance 1 >>= fun _ => pure (elements ++ [value]) : Prog Reading _) r) := by
          refine fun r => screened_same fun result r' hrun => ?_
          cases hrun
          rw [hone, hvalue]
        refine screened_step fun _ r₂ _ => screened_step fun c r₃ _ => ?_
        refine screened_ite (hdone r₃) (screened_ite ?_ screened_failHere)
        refine screened_step fun _ r₄ _ => screened_step fun closed r₅ _ => ?_
        exact screened_ite (hdone r₅) (ih ((hone value).trans hvalue))
      · intro value r₁ result r₂ hrun
        obtain ⟨more, rfl⟩ := prefix_of_afterElement prefix_of_elementsLoop result r₂ hrun
        rw [Ast.repeatsElements_append, hone]
        exact List.prefix_append _ _

theorem screened_readArray {depth : Nat} {element element' : Nat → Prog Reading Ast}
    (helement : ∀ depth r, Screened Ast.repeats (element depth r) (element' depth r))
    (hclear : ∀ depth, Reflects Clear (element depth)) :
    Screened Ast.repeats (readArray skipWhitespace (cfg.unique false) tail depth element r)
      (readArray skipWhitespace (cfg.unique true) tail depth element' r) := by
  refine screened_step fun start r₁ _ => screened_step fun _ r₂ _ => ?_
  refine screened_step fun _ r₃ _ => screened_step fun _ r₄ _ => screened_step fun empty r₅ _ => ?_
  refine screened_ite ?_ ?_
  · refine screened_same fun value r' hrun => ?_
    cases hrun
    rfl
  · refine screened_bind (screened_elementsLoop (helement _) (hclear _) rfl)
      (fun _ => reflects_pure _) ?_ ?_
    · intro elements r₆ hnone
      refine screened_same fun value r' hrun => ?_
      cases hrun
      exact hnone
    · intro elements r₆ value r₇ hrun
      cases hrun
      exact List.prefix_refl _

/-! ### Objects -/

/-- What reading a member does behind its key. -/
def memberValue (cfg : Config) (tail : Nat) (element : Prog Reading Ast) (key : Bytes) :
    Prog Reading (Bytes × Ast) := do
  skipWhitespace cfg tail
  let c ← peek
  if c ≠ ascii ':' then failHere .expectedColon
  else
    advance 1
    let value ← element
    pure (key, value)

theorem key_memberValue {element : Prog Reading Ast} {key : Bytes} :
    Yields (memberValue cfg tail element key r) fun member _ => member.1 = key := by
  refine yields_of_next fun _ r₁ => yields_of_next fun c r₂ => yields_ite (yields_error _) ?_
  exact yields_of_next fun _ r₃ => yields_of_next fun value r₄ => yields_ok rfl

theorem screened_readMember {element element' : Prog Reading Ast}
    (helement : ∀ r, Screened Ast.repeats (element r) (element' r))
    (hclear : Reflects Clear element) {members : List (Bytes × Ast)} :
    Screened (fun member => Ast.repeatsMembers (members.map (·.1)) [member])
      (readMember skipWhitespace (cfg.unique false) tail element members r)
      (readMember skipWhitespace (cfg.unique true) tail element' members r) := by
  refine screened_step fun _ r₁ _ => ?_
  rw [readKey_unique, readKey_unique]
  refine screened_step fun key r₂ _ => ?_
  by_cases hrepeats : key ∈ members.map (·.1)
  · -- the strict run stops here
    obtain ⟨q, hstop, hfailure⟩ : ∃ q, checkDuplicateKey (cfg.unique true) members key r₂ = .error q ∧
        (r₂.failure = none → q.failure = some { code := .duplicateKey, detail := key }) := by
      refine ⟨if r₂.failure.isSome then r₂ else
        { r₂ with failure := some { code := .duplicateKey, detail := key } }, ?_, fun hr₂ => ?_⟩
      · rw [checkDuplicateKey, if_pos ⟨rfl, hrepeats⟩]
        rfl
      · rw [hr₂]
        rfl
    have hmember : ∀ member r', (do
          checkDuplicateKey (cfg.unique false) members key
          memberValue (cfg.unique false) tail element key : Prog Reading _) r₂ = .ok (member, r') →
        (Clear r' → Clear r₂) ∧
          Ast.repeatsMembers (members.map (·.1)) [member] = key :: (member.2.repeats ++ []) := by
      intro member r' hrun
      have hrun' : memberValue (cfg.unique false) tail element key r₂ = .ok (member, r') := hrun
      refine ⟨clear_memberValue hclear key r₂ member r' hrun', ?_⟩
      rw [Ast.repeatsMembers, key_memberValue member r' hrun', if_pos hrepeats]
      rfl
    constructor
    · intro member r' hrun hnil
      exact absurd ((hmember member r' hrun).2.symm.trans hnil) (List.cons_ne_nil _ _)
    · intro member r' key' more hrun hmore
      obtain ⟨hback, hkeys⟩ := hmember member r' hrun
      obtain ⟨rfl, -⟩ := List.cons.inj (hkeys.symm.trans hmore)
      exact ⟨q, Prog.bind_of_error hstop _, fun hr' => hfailure (hback hr')⟩
    · intro member r' hrun
      rw [Prog.bind_of_error hstop] at hrun
      cases hrun
  · have hskip : ∀ on, checkDuplicateKey (cfg.unique on) members key r₂ = .ok ((), r₂) := by
      intro on
      rw [checkDuplicateKey, if_neg fun h => hrepeats h.2, Prog.pure_apply]
    have hkeys : ∀ value : Ast, Ast.repeatsMembers (members.map (·.1)) [(key, value)] = value.repeats := by
      intro value
      rw [Ast.repeatsMembers, if_neg hrepeats, Ast.repeatsMembers, List.append_nil, List.nil_append]
    rw [Prog.bind_of_ok (hskip false), Prog.bind_of_ok (hskip true)]
    refine screened_step fun _ r₃ _ => screened_step fun c r₄ _ => ?_
    refine screened_ite screened_failHere (screened_step fun _ r₅ _ => ?_)
    refine screened_bind (helement r₅) (fun _ => reflects_pure _) ?_ ?_
    · intro value r₆ hvalue
      refine screened_same fun member r' hrun => ?_
      cases hrun
      rw [hkeys, hvalue]
    · intro value r₆ member r₇ hrun
      cases hrun
      rw [hkeys]

/-- What the loop over members does behind a member. -/
def afterMember (cfg : Config) (tail : Nat) (element : Prog Reading Ast) (fuel : Nat)
    (members : List (Bytes × Ast)) : Prog Reading (List (Bytes × Ast)) := do
  skipWhitespace cfg tail
  let r ← .get
  if r.atEnd tail then failHere .unexpectedEndOfObject
  else if r.here = ascii '}' then
    advance 1
    pure members
  else if r.here = ascii ',' then
    advance 1
    let closed ← closedAfterComma skipWhitespace cfg tail (ascii '}')
    if closed then
      advance 1
      pure members
    else membersLoop skipWhitespace cfg tail element fuel members
  else failHere .expectedCommaOrBrace

theorem membersLoop_succ (element : Prog Reading Ast) (fuel : Nat) (members : List (Bytes × Ast)) :
    membersLoop skipWhitespace cfg tail element (fuel + 1) members =
      readMember skipWhitespace cfg tail element members >>= fun member =>
        afterMember cfg tail element fuel (members ++ [member]) := rfl

theorem clear_afterMember {element : Prog Reading Ast} (h : Reflects Clear element) (fuel : Nat)
    (members : List (Bytes × Ast)) : Reflects Clear (afterMember cfg tail element fuel members) := by
  refine reflects_bind clear_skipWhitespace fun _ => reflects_bind reflects_get fun r => ?_
  refine reflects_ite (settles_failHere _).reflects (reflects_ite ?_ (reflects_ite ?_
    (settles_failHere _).reflects))
  · exact reflects_bind (settles_advance 1).reflects fun _ => reflects_pure _
  · refine reflects_bind (settles_advance 1).reflects fun _ => ?_
    refine reflects_bind (clear_closedAfterComma _) fun closed => reflects_ite ?_ ?_
    · exact reflects_bind (settles_advance 1).reflects fun _ => reflects_pure _
    · exact clear_membersLoop h _ _

/-- The members that are read come behind those that are there. -/
theorem prefix_of_afterMember {element : Prog Reading Ast} {fuel : Nat} {members : List (Bytes × Ast)}
    (h : ∀ members r, Yields (membersLoop skipWhitespace cfg tail element fuel members r) fun result _ =>
      members <+: result) :
    Yields (afterMember cfg tail element fuel members r) fun result _ => members <+: result := by
  have hdone : ∀ r : Reading, Yields ((advance 1 >>= fun _ => pure members : Prog Reading _) r)
      fun result _ => members <+: result :=
    fun _ => yields_of_next fun _ _ => yields_ok (List.prefix_refl members)
  refine yields_of_next fun _ r₁ => yields_of_next fun r₂ r₃ => yields_ite (yields_error _) ?_
  refine yields_ite (hdone r₃) (yields_ite ?_ (yields_error _))
  refine yields_of_next fun _ r₄ => yields_of_next fun closed r₅ => ?_
  exact yields_ite (hdone r₅) (h members r₅)

theorem prefix_of_membersLoop {element : Prog Reading Ast} {fuel : Nat}
    (members : List (Bytes × Ast)) (r : Reading) :
    Yields (membersLoop skipWhitespace cfg tail element fuel members r) fun result _ => members <+: result := by
  induction fuel generalizing r members with
  | zero => exact yields_stuck
  | succ fuel ih =>
      rw [membersLoop_succ]
      refine yields_of_next fun member r₁ => yields_mono (prefix_of_afterMember ih) fun result _ hpre => ?_
      exact (List.prefix_append members [member]).trans hpre

theorem screened_membersLoop {element element' : Prog Reading Ast}
    (helement : ∀ r, Screened Ast.repeats (element r) (element' r))
    (hclear : Reflects Clear element) {fuel : Nat} {members : List (Bytes × Ast)}
    (hnone : Ast.repeatsMembers [] members = []) :
    Screened (Ast.repeatsMembers []) (membersLoop skipWhitespace (cfg.unique false) tail element fuel members r)
      (membersLoop skipWhitespace (cfg.unique true) tail element' fuel members r) := by
  induction fuel generalizing r members with
  | zero => exact screened_stuck
  | succ fuel ih =>
      have hone : ∀ member, Ast.repeatsMembers [] (members ++ [member]) =
          Ast.repeatsMembers (members.map (·.1)) [member] := by
        intro member
        rw [Ast.repeatsMembers_append, hnone, List.nil_append, List.nil_append]
      rw [membersLoop_succ, membersLoop_succ]
      refine screened_bind (screened_readMember helement hclear)
        (fun member => clear_afterMember hclear _ _) ?_ ?_
      · intro member r₁ hmember
        have hdone : ∀ r : Reading, Screened (Ast.repeatsMembers [])
            ((advance 1 >>= fun _ => pure (members ++ [member]) : Prog Reading _) r)
            ((advance 1 >>= fun _ => pure (members ++ [member]) : Prog Reading _) r) := by
          refine fun r => screened_same fun result r' hrun => ?_
          cases hrun
          rw [hone, hmember]
        refine screened_step fun _ r₂ _ => screened_step fun r₃ r₄ _ => ?_
        refine screened_ite screened_failHere ?_
        refine screened_ite (hdone r₄) (screened_ite ?_ screened_failHere)
        refine screened_step fun _ r₅ _ => screened_step fun closed r₆ _ => ?_
        exact screened_ite (hdone r₆) (ih ((hone member).trans hmember))
      · intro member r₁ result r₂ hrun
        obtain ⟨more, rfl⟩ := prefix_of_afterMember prefix_of_membersLoop result r₂ hrun
        rw [Ast.repeatsMembers_append, hone]
        exact List.prefix_append _ _

theorem screened_readObject {depth : Nat} {element element' : Nat → Prog Reading Ast}
    (helement : ∀ depth r, Screened Ast.repeats (element depth r) (element' depth r))
    (hclear : ∀ depth, Reflects Clear (element depth)) :
    Screened Ast.repeats (readObject skipWhitespace (cfg.unique false) tail depth element r)
      (readObject skipWhitespace (cfg.unique true) tail depth element' r) := by
  refine screened_step fun start r₁ _ => screened_step fun _ r₂ _ => ?_
  refine screened_step fun _ r₃ _ => screened_step fun _ r₄ _ => screened_step fun c r₅ _ => ?_
  refine screened_ite ?_ ?_
  · refine screened_same fun value r' hrun => ?_
    cases hrun
    rfl
  · refine screened_bind (screened_membersLoop (helement _) (hclear _) rfl)
      (fun _ => reflects_pure _) ?_ ?_
    · intro members r₆ hnone
      refine screened_same fun value r' hrun => ?_
      cases hrun
      exact hnone
    · intro members r₆ value r₇ hrun
      cases hrun
      exact List.prefix_refl _

/-! ### Values and texts -/

theorem screened_string {program : Prog Reading Bytes} :
    Screened Ast.repeats ((do pure (.string (← program)) : Prog Reading Ast) r)
      ((do pure (.string (← program)) : Prog Reading Ast) r) := by
  refine screened_step fun value r₁ _ => screened_same fun value' r' hrun => ?_
  cases hrun
  rfl

theorem repeats_readLiteral : Yields (readLiteral cfg r) fun value _ => value.repeats = [] := by
  refine yields_of_next fun start r₁ => ?_
  cases hliteral : literalHere start with
  | none => exact yields_error _
  | some result =>
      obtain ⟨value, length⟩ := result
      have hvalue : value.repeats = [] := by
        rw [literalHere] at hliteral
        split_ifs at hliteral <;> cases hliteral <;> rfl
      refine yields_of_next fun _ r₂ => yields_of_next fun next r₃ => ?_
      exact yields_ite (yields_ok hvalue) (yields_error _)

theorem repeats_readNumber :
    Yields (readNumber platform cfg tail r) fun value _ => value.repeats = [] := by
  refine yields_of_next fun start r₁ => ?_
  cases parseNumberToken platform cfg (start.body tail) with
  | error failure => exact yields_error _
  | ok result => exact yields_of_next fun _ r₂ => yields_ok rfl

theorem screened_readValueAt {depth : Nat} {element element' : Nat → Prog Reading Ast}
    (helement : ∀ depth r, Screened Ast.repeats (element depth r) (element' depth r))
    (hclear : ∀ depth, Reflects Clear (element depth)) {unexpected : ErrorCode} {c : UInt8} :
    Screened Ast.repeats (readValueAt skipWhitespace platform (cfg.unique false) tail depth element unexpected c r)
      (readValueAt skipWhitespace platform (cfg.unique true) tail depth element' unexpected c r) := by
  have hnumber : Screened Ast.repeats (readNumber platform cfg tail r)
      (readNumber platform cfg tail r) := screened_same repeats_readNumber
  unfold readValueAt
  rw [readString_unique, readString_unique, readStringJson5_unique, readStringJson5_unique]
  refine screened_ite (screened_readObject helement hclear) ?_
  refine screened_ite (screened_readArray helement hclear) (screened_ite screened_string ?_)
  refine screened_ite (screened_same repeats_readLiteral) (screened_ite hnumber ?_)
  exact screened_ite screened_string (screened_ite hnumber screened_failHere)

theorem screened_readElement {fuel depth : Nat} :
    Screened Ast.repeats (readElement skipWhitespace platform (cfg.unique false) tail fuel depth r)
      (readElement skipWhitespace platform (cfg.unique true) tail fuel depth r) := by
  induction fuel generalizing r depth with
  | zero => exact screened_stuck
  | succ fuel ih =>
      refine screened_step fun _ r₁ _ => screened_step fun c r₂ _ => ?_
      exact screened_readValueAt (fun _ _ => ih) fun depth => clear_readElement fuel depth

theorem screened_readValue {fuel : Nat} :
    Screened Ast.repeats (readValue skipWhitespace platform (cfg.unique false) tail fuel r)
      (readValue skipWhitespace platform (cfg.unique true) tail fuel r) := by
  refine screened_step fun _ r₁ _ => screened_step fun c r₂ _ => screened_step fun start r₃ _ => ?_
  refine screened_ite screened_failHere ?_
  exact screened_readValueAt (fun _ _ => screened_readElement) fun depth => clear_readElement fuel depth

/-- What reading a text does behind the value. -/
def afterValue (cfg : Config) (tail : Nat) (value : Ast) : Prog Reading Ast := do
  failIfRecorded
  skipWhitespace cfg tail
  failIfRecorded
  let r ← .get
  if r.atEnd tail then pure value else failHere .extraCharactersAfterValue

theorem clear_afterValue (value : Ast) : Reflects Clear (afterValue cfg tail value) := by
  refine reflects_bind clear_failIfRecorded fun _ => reflects_bind clear_skipWhitespace fun _ => ?_
  refine reflects_bind clear_failIfRecorded fun _ => reflects_bind reflects_get fun r => ?_
  exact reflects_ite (reflects_pure _) (settles_failHere _).reflects

theorem value_afterValue {value : Ast} :
    Yields (afterValue cfg tail value r) fun result _ => result = value := by
  refine yields_of_next fun _ r₁ => yields_of_next fun _ r₂ => yields_of_next fun _ r₃ => ?_
  exact yields_of_next fun _ r₄ => yields_ite (yields_ok rfl) (yields_error _)

theorem screened_readText :
    Screened Ast.repeats (readText skipWhitespace platform (cfg.unique false) tail r)
      (readText skipWhitespace platform (cfg.unique true) tail r) := by
  refine screened_step fun start r₁ _ => screened_step fun _ r₂ _ => ?_
  refine screened_bind screened_readValue (fun value => @clear_afterValue cfg tail value) ?_ ?_
  · intro value r₃ hvalue
    refine screened_same fun result r' hrun => ?_
    rw [@value_afterValue r₃ cfg tail value result r' hrun, hvalue]
  · intro value r₃ result r₄ hrun
    rw [@value_afterValue r₃ cfg tail value result r₄ hrun]

/-- With the check a run is the one without it, where no key is repeated. -/
theorem screened_unique_iff {run : Config → Res Reading (Ast × Reading)}
    (h : Screened Ast.repeats (run (cfg.unique false)) (run (cfg.unique true))) {value : Ast}
    {r' : Reading} : run cfg = .ok (value, r') ↔ run (cfg.unique false) = .ok (value, r') ∧
      (cfg.strictDuplicateKeys = true → value.DistinctKeys) := by
  have hcfg : ∀ {on : Bool}, cfg.strictDuplicateKeys = on → cfg.unique on = cfg := by
    rintro on rfl
    rfl
  rw [← Ast.repeats_eq_nil_iff]
  cases hstrict : cfg.strictDuplicateKeys with
  | false => simp [hcfg hstrict]
  | true =>
      have hiff := @Screened.ok_iff _ _ _ _ h value r'
      rw [hcfg hstrict] at hiff
      simp [hiff]

theorem readValue_unique_iff {fuel : Nat} {value : Ast} {r' : Reading} :
    readValue skipWhitespace platform cfg tail fuel r = .ok (value, r') ↔
      readValue skipWhitespace platform (cfg.unique false) tail fuel r = .ok (value, r') ∧
        (cfg.strictDuplicateKeys = true → value.DistinctKeys) :=
  @screened_unique_iff cfg (fun cfg => readValue skipWhitespace platform cfg tail fuel r) screened_readValue _ _

/-- A text is read when it is read without the check and passes it. -/
theorem readText_unique_iff {value : Ast} :
    (∃ r', readText skipWhitespace platform cfg tail r = .ok (value, r')) ↔
      (∃ r', readText skipWhitespace platform (cfg.unique false) tail r = .ok (value, r')) ∧
        (cfg.strictDuplicateKeys = true → value.DistinctKeys) := by
  rw [← exists_and_right]
  refine exists_congr fun r' => ?_
  exact @screened_unique_iff cfg (fun cfg => readText skipWhitespace platform cfg tail r) screened_readText _ _

/-- The syntax tree of a text: every member of its objects, in text order. -/
def IsTree (platform : Platform) (cfg : Config) (json : Bytes) (value : Ast) : Prop :=
  paddedFits json.length = true ∧
    ∃ r, readText skipWhitespace platform (cfg.unique false) 0 { rest := json } = .ok (value, r)

end Reading

/-- `parse_copy` succeeds with this tree. -/
def Parses (platform : Platform) (cfg : Config) (json : Bytes) (tree : Json Bytes) : Prop :=
  ∃ document, parseCopy platform cfg json = .ok document ∧ document.tree = tree

theorem tokenNumber_unique (platform : Platform) (cfg : Config) (on : Bool) :
    tokenNumber platform (cfg.unique on) = tokenNumber platform cfg := rfl

theorem parses_iff {platform : Platform} {cfg : Config} {json : Bytes} {tree : Json Bytes} :
    Parses platform cfg json tree ↔ paddedFits json.length = true ∧
      ∃ value r, Reading.readText Reading.skipWhitespace platform cfg 0 { rest := json } = .ok (value, r) ∧
        value.toJson (tokenNumber platform cfg) = tree := by
  constructor
  · rintro ⟨document, hparse, htree⟩
    have hfits := paddedFits_of_parseCopy hparse
    exact ⟨hfits, (parseCopy_eq_ok hfits).mp ⟨document, hparse, htree⟩⟩
  · rintro ⟨hfits, hread⟩
    exact (parseCopy_eq_ok hfits).mpr hread

/-- With the check on, a text is parsed exactly when it is parsed without and the keys of each of its
objects differ, and then to the same tree; a text that is parsed without it and repeats a key fails
for the first key that it repeats. -/
theorem parseCopy_strictDuplicateKeys (platform : Platform) (cfg : Config) (json : Bytes) :
    (∀ tree, Parses platform (cfg.unique false) json tree ↔
      ∃ value, Reading.IsTree platform cfg json value ∧
        value.toJson (tokenNumber platform cfg) = tree) ∧
    (∀ tree, Parses platform (cfg.unique true) json tree ↔
      Parses platform (cfg.unique false) json tree ∧
        ∀ value, Reading.IsTree platform cfg json value → value.DistinctKeys) ∧
    ∀ value key more, Reading.IsTree platform cfg json value → value.repeats = key :: more →
      parseCopy platform (cfg.unique true) json = .error { code := .duplicateKey, detail := key } := by
  have hscreened := @Reading.screened_readText { rest := json } platform cfg 0
  have htrees : ∀ tree, Parses platform (cfg.unique false) json tree ↔
      ∃ value, Reading.IsTree platform cfg json value ∧
        value.toJson (tokenNumber platform cfg) = tree := by
    intro tree
    rw [parses_iff, tokenNumber_unique]
    constructor
    · rintro ⟨hfits, value, r, hread, htree⟩
      exact ⟨value, ⟨hfits, r, hread⟩, htree⟩
    · rintro ⟨value, ⟨hfits, r, hread⟩, htree⟩
      exact ⟨hfits, value, r, hread, htree⟩
  refine ⟨htrees, fun tree => ?_, ?_⟩
  · rw [htrees, parses_iff, tokenNumber_unique]
    constructor
    · rintro ⟨hfits, value, r, hread, htree⟩
      have hlenient := hscreened.back value r hread
      refine ⟨⟨value, ⟨hfits, r, hlenient⟩, htree⟩, fun value' hvalue' => ?_⟩
      obtain ⟨-, r', hread'⟩ := hvalue'
      obtain ⟨rfl, rfl⟩ := Prod.mk.inj (Res.ok.inj (hlenient.symm.trans hread'))
      rw [← Ast.repeats_eq_nil_iff]
      cases hkeys : value.repeats with
      | nil => rfl
      | cons key more =>
          obtain ⟨q, hq, -⟩ := hscreened.stops value r key more hlenient hkeys
          rw [hq] at hread
          cases hread
    · rintro ⟨⟨value, hvalue, htree⟩, hdistinct⟩
      have hkeys := (Ast.repeats_eq_nil_iff value).mpr (hdistinct value hvalue)
      obtain ⟨hfits, r, hread⟩ := hvalue
      exact ⟨hfits, value, r, hscreened.same value r hread hkeys, htree⟩
  · rintro value key more ⟨hfits, r, hread⟩ hkeys
    obtain ⟨q, hq, hfailure⟩ := hscreened.stops value r key more hread hkeys
    obtain ⟨_, _, hstrict, -⟩ | ⟨failure, q', hstrict, hfailure', hparse⟩ :=
      @parseCopy_spec platform (cfg.unique true) json hfits
    · rw [hq] at hstrict
      cases hstrict
    · obtain rfl := Res.error.inj (hq.symm.trans hstrict)
      rw [hfailure (Reading.clear_of_readText hread)] at hfailure'
      rw [hparse, ← Option.some.inj hfailure']
      rfl

/-! ### Last wins -/

section LastWins

variable {platform : Platform} {cfg : Config} {w : Window} {depth : Nat} {p : Parser} {r : Reading}

theorem Reading.object_readObject {element : Nat → Prog Reading Ast} :
    Yields (readObject skipWhitespace cfg w.tail depth element r) fun value _ =>
      ∃ members, value = .object members := by
  refine yields_of_next fun start r₁ => yields_of_next fun _ r₂ => yields_of_next fun _ r₃ => ?_
  refine yields_of_next fun _ r₄ => yields_of_next fun c r₅ => yields_ite ?_ ?_
  · exact yields_of_next fun _ r₆ => yields_ok ⟨[], rfl⟩
  · exact yields_of_next fun members r₆ => yields_ok ⟨members, rfl⟩

/-- An entry with its key and strings read out of the buffer. -/
def readEntry (buffer : Bytes) (entry : View × Json View) : Bytes × Json Bytes :=
  (entry.1.read buffer, entry.2.map (View.read buffer))

/-- An object is parsed to the entries that its members leave, one after the other: a member
overwrites the first entry with its key, or is appended. The hash function has no part in it. -/
theorem parseObjectInplace_lastWins (h : Tracks w depth p r) (hhere : r.here = ascii '{') {fuel : Nat}
    (hfuel : r.rest.length ≤ fuel) :
    (∃ members r', Reading.readObject Reading.skipWhitespace cfg w.tail depth
        (Reading.readElement Reading.skipWhitespace platform cfg w.tail fuel) r = .ok (.object members, r') ∧
      ∃ p' entries, Parser.parseObjectInplace platform cfg
          (Parser.parseValueInplace platform cfg fuel) p = .ok ((), p') ∧
        p'.out = .object entries ∧ entries.map (readEntry p'.buffer) =
          members.foldl (fun entries member =>
            putEntry entries member.1 (member.2.toJson (tokenNumber platform cfg))) []) ∨
    (∃ r', Reading.readObject Reading.skipWhitespace cfg w.tail depth
        (Reading.readElement Reading.skipWhitespace platform cfg w.tail fuel) r = .error r') ∧
      ∃ p', Parser.parseObjectInplace platform cfg
        (Parser.parseValueInplace platform cfg fuel) p = .error p' := by
  obtain ⟨rest, hrest⟩ := Tracks.here_cons (r := r) (by rw [hhere]; decide)
  have hne : r.rest ≠ [] := by
    rw [hrest]
    exact List.cons_ne_nil _ _
  have hmatches := @matches_parseObjectInplace platform cfg w depth p r _
    (Reading.readElement Reading.skipWhitespace platform cfg w.tail fuel)
    (follows_parseValueInplace platform cfg w (Nat.le_refl fuel) (depth + 1)) h hne
  have hreads := @Reading.reads_readObject cfg w.tail r depth fuel
    (Reading.readElement Reading.skipWhitespace platform cfg w.tail fuel)
    (Reading.total_readElement fuel (depth + 1)) hfuel hne
  cases hread : Reading.readObject Reading.skipWhitespace cfg w.tail depth
      (Reading.readElement Reading.skipWhitespace platform cfg w.tail fuel) r with
  | stuck => exact absurd hread hreads.ne_stuck
  | error r' =>
      rw [hread] at hmatches
      obtain hfalse | ⟨p', hp', -⟩ := hmatches
      · exact hfalse.elim
      · exact .inr ⟨⟨r', rfl⟩, p', hp'⟩
  | ok result =>
      obtain ⟨value, r'⟩ := result
      obtain ⟨members, rfl⟩ := Reading.object_readObject value r' hread
      rw [hread] at hmatches
      obtain ⟨_, p', hp', hstep⟩ := hmatches
      have hout := hstep.out.1
      rw [Ast.toJson_object] at hout
      refine .inl ⟨members, r', rfl, p', ?_⟩
      cases hjson : p'.out with
      | object entries =>
          rw [hjson, Json.map_object, Json.object.injEq, lastWins, List.foldl_map] at hout
          exact ⟨entries, hp', rfl, hout⟩
      | _ => rw [hjson] at hout; cases hout

end LastWins

namespace Reading

/-- The text `{"a":null,"\u0061":true}`, where the second key is spelled another way. -/
def repeatedText : Bytes := asciiBytes "\x7b\"a\":null,\"\\u0061\":true\x7d"

theorem readObject_repeatedText :
    readObject skipWhitespace {} 0 0 (readElement skipWhitespace halfPlatform {} 0 24) { rest := repeatedText } =
      .ok (.object [(asciiBytes "a", .null), (asciiBytes "a", .boolean true)], { rest := [] }) := by
  have hlength : repeatedText.length = 24 := by decide
  have hopen : (advance 1 : Prog Reading Unit) { rest := repeatedText } =
      .ok ((), { rest := asciiBytes "\"a\":null,\"\\u0061\":true\x7d" }) := rfl
  have hskip : skipWhitespace {} 0 { rest := asciiBytes "\"a\":null,\"\\u0061\":true\x7d" } =
      .ok ((), { rest := asciiBytes "\"a\":null,\"\\u0061\":true\x7d" }) := rfl
  have hfirst : readMember skipWhitespace {} 0 (readElement skipWhitespace halfPlatform {} 0 24 1) []
      { rest := asciiBytes "\"a\":null,\"\\u0061\":true\x7d" } =
      .ok ((asciiBytes "a", .null), { rest := asciiBytes ",\"\\u0061\":true\x7d" }) := rfl
  have hcomma : ∀ element fuel members, afterMember {} 0 element fuel members
      { rest := asciiBytes ",\"\\u0061\":true\x7d" } = membersLoop skipWhitespace {} 0 element fuel members
      { rest := asciiBytes "\"\\u0061\":true\x7d" } := fun _ _ _ => rfl
  have hskip' : skipWhitespace {} 0 { rest := asciiBytes "\"\\u0061\":true\x7d" } =
      .ok ((), { rest := asciiBytes "\"\\u0061\":true\x7d" }) := rfl
  have hkey : readKey {} 0 { rest := asciiBytes "\"\\u0061\":true\x7d" } =
      .ok (asciiBytes "a", { rest := asciiBytes ":true\x7d" }) := by decide +kernel
  have hsecond : readMember skipWhitespace {} 0
      (readElement skipWhitespace halfPlatform {} 0 24 1) [(asciiBytes "a", .null)]
      { rest := asciiBytes "\"\\u0061\":true\x7d" } =
      .ok ((asciiBytes "a", .boolean true), { rest := asciiBytes "\x7d" }) := by
    rw [readMember, Prog.bind_of_ok hskip', Prog.bind_of_ok hkey]
    rfl
  have hloop : membersLoop skipWhitespace {} 0 (readElement skipWhitespace halfPlatform {} 0 24 1) 24 []
      { rest := asciiBytes "\"a\":null,\"\\u0061\":true\x7d" } =
      .ok ([(asciiBytes "a", .null), (asciiBytes "a", .boolean true)], { rest := [] }) := by
    rw [membersLoop_succ, Prog.bind_of_ok hfirst, List.nil_append, hcomma, membersLoop_succ,
      Prog.bind_of_ok hsecond]
    rfl
  rw [readObject, Prog.bind_get]
  simp only [hlength]
  rw [checkDepth, if_neg (by decide), Prog.bind_of_ok (Prog.pure_apply _ _), Prog.bind_of_ok hopen,
    Prog.bind_of_ok hskip, Prog.bind_apply, peek, Res.ok_bind, if_neg (by decide +kernel),
    Prog.bind_of_ok hloop, Prog.pure_apply]

end Reading

/-- The object of that text has one entry. -/
theorem parseObjectInplace_repeatedText : ∃ p' entries,
    Parser.parseObjectInplace halfPlatform {} (Parser.parseValueInplace halfPlatform {} 24)
      { buffer := padded Reading.repeatedText, mBegin := 0, mCurr := 0, mEnd := 24 } = .ok ((), p') ∧
    p'.out = .object entries ∧
    entries.map (readEntry p'.buffer) = [(asciiBytes "a", .boolean true)] := by
  have htracks : Tracks (Window.whole Reading.repeatedText) 0 _ _ := tracks_whole Reading.repeatedText
  obtain ⟨members, r', hread, hparse⟩ | ⟨⟨r', hread⟩, -⟩ :=
    @parseObjectInplace_lastWins halfPlatform {} _ _ _ _ htracks (by decide +kernel) 24
      (by decide +kernel)
  · obtain ⟨hmembers, -⟩ :=
      Prod.mk.inj (Res.ok.inj (Reading.readObject_repeatedText.symm.trans hread))
    obtain rfl := Ast.object.inj hmembers
    exact hparse
  · cases Reading.readObject_repeatedText.symm.trans hread

end PjhJson
