import PjhJson.Json

/-! The syntax tree of a JSON text: numbers keep their token and objects every member of the text,
repeated keys included. `Ast.toJson` is the value it denotes. -/

namespace PjhJson

inductive Ast where
  | null
  | boolean (value : Bool)
  | number (token : Bytes)
  | string (value : Bytes)
  | array (elements : List Ast)
  | object (members : List (Bytes × Ast))

/-- Give `key` a value: the first entry with the key is overwritten, a new key is appended. -/
def putEntry {κ ν : Type} [DecidableEq κ] : List (κ × ν) → κ → ν → List (κ × ν)
  | [], key, value => [(key, value)]
  | entry :: rest, key, value =>
    if entry.1 = key then (entry.1, value) :: rest else entry :: putEntry rest key value

/-- The entries of an object with these members: the last value of a repeated key, at the position
of its first occurrence. -/
def lastWins {κ ν : Type} [DecidableEq κ] (members : List (κ × ν)) : List (κ × ν) :=
  members.foldl (fun entries member => putEntry entries member.1 member.2) []

namespace Ast

mutual

/-- The value denoted, given the value of each number token. -/
def toJson (numberOf : Bytes → Number) : Ast → Json Bytes
  | null => .null
  | boolean value => .boolean value
  | number token => (numberOf token).toJson
  | string value => .string value
  | array elements => .array (toJsonElements numberOf elements)
  | object members => .object (lastWins (toJsonMembers numberOf members))

def toJsonElements (numberOf : Bytes → Number) : List Ast → List (Json Bytes)
  | [] => []
  | value :: rest => value.toJson numberOf :: toJsonElements numberOf rest

def toJsonMembers (numberOf : Bytes → Number) : List (Bytes × Ast) → List (Bytes × Json Bytes)
  | [] => []
  | (key, value) :: rest => (key, value.toJson numberOf) :: toJsonMembers numberOf rest

end

mutual

/-- The number of containers open around the deepest container, that one included. -/
def nesting : Ast → Nat
  | array elements => nestingElements elements + 1
  | object members => nestingMembers members + 1
  | _ => 0

def nestingElements : List Ast → Nat
  | [] => 0
  | value :: rest => max value.nesting (nestingElements rest)

def nestingMembers : List (Bytes × Ast) → Nat
  | [] => 0
  | (_, value) :: rest => max value.nesting (nestingMembers rest)

end

mutual

/-- The number tokens, in text order. -/
def numbers : Ast → List Bytes
  | number token => [token]
  | array elements => numbersElements elements
  | object members => numbersMembers members
  | _ => []

def numbersElements : List Ast → List Bytes
  | [] => []
  | value :: rest => value.numbers ++ numbersElements rest

def numbersMembers : List (Bytes × Ast) → List Bytes
  | [] => []
  | (_, value) :: rest => value.numbers ++ numbersMembers rest

end

/-- An induction principle that follows the tree: the lists of children are visited by membership. -/
theorem induct {motive : Ast → Prop}
    (null : motive null)
    (boolean : ∀ value, motive (boolean value))
    (number : ∀ token, motive (number token))
    (string : ∀ value, motive (string value))
    (array : ∀ elements, (∀ value ∈ elements, motive value) → motive (array elements))
    (object : ∀ members, (∀ member ∈ members, motive member.2) → motive (object members)) :
    ∀ value, motive value := by
  refine @Ast.rec motive (fun elements => ∀ value ∈ elements, motive value)
    (fun members => ∀ member ∈ members, motive member.2) (fun member => motive member.2)
    null boolean number string array object ?_ ?_ ?_ ?_ (fun _ _ h => h)
  · exact fun _ hmem => absurd hmem List.not_mem_nil
  · exact fun _ _ hvalue hrest => List.forall_mem_cons.mpr ⟨hvalue, hrest⟩
  · exact fun _ hmem => absurd hmem List.not_mem_nil
  · exact fun _ _ hmember hrest => List.forall_mem_cons.mpr ⟨hmember, hrest⟩

theorem nestingElements_le {elements : List Ast} {n : Nat} :
    nestingElements elements ≤ n ↔ ∀ value ∈ elements, value.nesting ≤ n := by
  induction elements with
  | nil => simp [nestingElements]
  | cons value rest ih => rw [nestingElements, Nat.max_le, ih, List.forall_mem_cons]

theorem nestingMembers_eq (members : List (Bytes × Ast)) :
    nestingMembers members = nestingElements (members.map (·.2)) := by
  induction members with
  | nil => rfl
  | cons member rest ih => rw [nestingMembers, ih, List.map_cons, nestingElements]

theorem mem_numbersElements {elements : List Ast} {token : Bytes} :
    token ∈ numbersElements elements ↔ ∃ value ∈ elements, token ∈ value.numbers := by
  induction elements with
  | nil => simp [numbersElements]
  | cons value rest ih => simp [numbersElements, ih]

theorem numbersMembers_eq (members : List (Bytes × Ast)) :
    numbersMembers members = numbersElements (members.map (·.2)) := by
  induction members with
  | nil => rfl
  | cons member rest ih => rw [numbersMembers, ih, List.map_cons, numbersElements]

theorem toJsonElements_eq (numberOf : Bytes → Number) (elements : List Ast) :
    toJsonElements numberOf elements = elements.map (toJson numberOf) := by
  induction elements with
  | nil => rfl
  | cons value rest ih => rw [toJsonElements, ih, List.map_cons]

theorem toJsonMembers_eq (numberOf : Bytes → Number) (members : List (Bytes × Ast)) :
    toJsonMembers numberOf members =
      members.map fun member => (member.1, member.2.toJson numberOf) := by
  induction members with
  | nil => rfl
  | cons member rest ih => rw [toJsonMembers, ih, List.map_cons]

@[simp] theorem toJson_array (numberOf : Bytes → Number) (elements : List Ast) :
    (array elements).toJson numberOf = .array (elements.map (toJson numberOf)) := by
  rw [toJson, toJsonElements_eq]

@[simp] theorem toJson_object (numberOf : Bytes → Number) (members : List (Bytes × Ast)) :
    (object members).toJson numberOf =
      .object (lastWins (members.map fun member => (member.1, member.2.toJson numberOf))) := by
  rw [toJson, toJsonMembers_eq]

/-- The value depends on the values of the number tokens in the tree only. -/
theorem toJson_congr {numberOf numberOf' : Bytes → Number} {value : Ast}
    (h : ∀ token ∈ value.numbers, numberOf token = numberOf' token) :
    value.toJson numberOf = value.toJson numberOf' := by
  induction value using Ast.induct with
  | null => rfl
  | boolean value => rfl
  | number token => rw [toJson, toJson, h token (by simp [numbers])]
  | string value => rfl
  | array elements ih =>
      rw [numbers] at h
      rw [toJson_array, toJson_array]
      congr 1
      exact List.map_congr_left fun value hmem => ih value hmem fun token htoken =>
        h token (mem_numbersElements.mpr ⟨value, hmem, htoken⟩)
  | object members ih =>
      rw [numbers, numbersMembers_eq] at h
      rw [toJson_object, toJson_object]
      congr 2
      refine List.map_congr_left fun member hmem => ?_
      rw [ih member hmem fun token htoken => h token (mem_numbersElements.mpr
        ⟨member.2, List.mem_map_of_mem hmem, htoken⟩)]

end Ast

/-! ### Collecting entries -/

section Entries

variable {κ ν : Type} [DecidableEq κ]

theorem lastWins_append (members : List (κ × ν)) (member : κ × ν) :
    lastWins (members ++ [member]) = putEntry (lastWins members) member.1 member.2 := by
  rw [lastWins, List.foldl_append]
  rfl

theorem putEntry_of_not_mem {entries : List (κ × ν)} {key : κ} (value : ν)
    (h : key ∉ entries.map (·.1)) : putEntry entries key value = entries ++ [(key, value)] := by
  induction entries with
  | nil => rfl
  | cons entry rest ih =>
      rw [List.map_cons, List.mem_cons, not_or] at h
      rw [putEntry, if_neg (Ne.symm h.1), ih h.2, List.cons_append]

/-- A key that is there keeps its position. -/
theorem putEntry_of_mem {entries : List (κ × ν)} {key : κ} (value : ν)
    (h : key ∈ entries.map (·.1)) :
    putEntry entries key value =
      entries.set ((entries.map (·.1)).findIdx (· = key)) (key, value) := by
  induction entries with
  | nil => cases h
  | cons entry rest ih =>
      rw [putEntry, List.map_cons, List.findIdx_cons]
      by_cases heq : entry.1 = key
      · rw [if_pos heq, heq, decide_eq_true rfl, cond_true, List.set_cons_zero]
      · have hmem : key ∈ rest.map (·.1) := by
          rw [List.map_cons, List.mem_cons] at h
          exact h.resolve_left (Ne.symm heq)
        rw [if_neg heq, ih hmem, decide_eq_false heq, cond_false, List.set_cons_succ]

/-- The keys of the entries are the keys of the members, without repetition. -/
theorem mem_keys_putEntry {entries : List (κ × ν)} {key other : κ} (value : ν) :
    other ∈ (putEntry entries key value).map (·.1) ↔ other ∈ entries.map (·.1) ∨ other = key := by
  induction entries with
  | nil => simp [putEntry]
  | cons entry rest ih =>
      rw [putEntry]
      split
      · rename_i h
        simp only [List.map_cons, List.mem_cons, h]
        tauto
      · simp only [List.map_cons, List.mem_cons, ih, or_assoc]

theorem nodup_putEntry {entries : List (κ × ν)} (key : κ) (value : ν)
    (h : (entries.map (·.1)).Nodup) : ((putEntry entries key value).map (·.1)).Nodup := by
  induction entries with
  | nil => simp [putEntry]
  | cons entry rest ih =>
      rw [List.map_cons, List.nodup_cons] at h
      rw [putEntry]
      split
      · rw [List.map_cons, List.nodup_cons]
        exact h
      · rename_i hne
        rw [List.map_cons, List.nodup_cons, mem_keys_putEntry]
        refine ⟨?_, ih h.2⟩
        rintro (hmem | heq)
        · exact h.1 hmem
        · exact hne heq

theorem nodup_lastWins (members : List (κ × ν)) : ((lastWins members).map (·.1)).Nodup := by
  induction members using List.reverseRecOn with
  | nil => exact List.nodup_nil
  | append_singleton members member ih =>
      rw [lastWins_append]
      exact nodup_putEntry _ _ ih

theorem mem_keys_lastWins {members : List (κ × ν)} {key : κ} :
    key ∈ (lastWins members).map (·.1) ↔ key ∈ members.map (·.1) := by
  induction members using List.reverseRecOn with
  | nil => rfl
  | append_singleton members member ih =>
      rw [lastWins_append, mem_keys_putEntry, ih, List.map_append, List.mem_append]
      simp

theorem mem_lastWins {members : List (κ × ν)} {entry : κ × ν} (h : entry ∈ lastWins members) :
    entry ∈ members := by
  induction members using List.reverseRecOn generalizing entry with
  | nil => exact h
  | append_singleton members member ih =>
      rw [lastWins_append] at h
      have hput : ∀ {entries : List (κ × ν)}, entry ∈ putEntry entries member.1 member.2 →
          entry ∈ entries ∨ entry = member := by
        intro entries hmem
        induction entries with
        | nil => exact .inr (List.mem_singleton.mp hmem)
        | cons first rest ihrest =>
            rw [putEntry] at hmem
            split at hmem
            · rename_i hkey
              rcases List.mem_cons.mp hmem with rfl | hmem
              · exact .inr (by rw [hkey])
              · exact .inl (List.mem_cons_of_mem _ hmem)
            · rcases List.mem_cons.mp hmem with rfl | hmem
              · exact .inl List.mem_cons_self
              · exact (ihrest hmem).imp_left (List.mem_cons_of_mem _)
      rcases hput h with hmem | rfl
      · exact List.mem_append_left _ (ih hmem)
      · exact List.mem_append_right _ (List.mem_singleton_self _)

/-- A further member adds its key, unless an entry has it. -/
theorem keys_lastWins_append (members : List (κ × ν)) (member : κ × ν) :
    (lastWins (members ++ [member])).map (·.1) =
      if member.1 ∈ (lastWins members).map (·.1) then (lastWins members).map (·.1)
      else (lastWins members).map (·.1) ++ [member.1] := by
  rw [lastWins_append]
  split
  · rename_i hmem
    rw [putEntry_of_mem _ hmem, List.map_set]
    refine List.ext_getElem? fun i => ?_
    by_cases hi : ((lastWins members).map (·.1)).findIdx (· = member.1) = i
    · subst hi
      have hlt : ((lastWins members).map (·.1)).findIdx (· = member.1) <
          ((lastWins members).map (·.1)).length :=
        List.findIdx_lt_length_of_exists ⟨_, hmem, by simp⟩
      have hfound := List.findIdx_getElem (w := hlt)
      rw [List.getElem?_set_self hlt, List.getElem?_eq_getElem hlt]
      exact congrArg some (of_decide_eq_true hfound).symm
    · rw [List.getElem?_set_ne hi]
  · rename_i hmem
    rw [putEntry_of_not_mem _ hmem, List.map_append, List.map_singleton]

/-- Members with different keys are their own entries. -/
theorem lastWins_of_nodup {members : List (κ × ν)} (h : (members.map (·.1)).Nodup) :
    lastWins members = members := by
  induction members using List.reverseRecOn with
  | nil => rfl
  | append_singleton members member ih =>
      rw [List.map_append, List.nodup_append] at h
      obtain ⟨hmembers, _, hdisjoint⟩ := h
      rw [lastWins_append, ih hmembers, putEntry_of_not_mem]
      intro hmem
      exact hdisjoint _ hmem _ (List.mem_singleton_self _) rfl

end Entries

end PjhJson
