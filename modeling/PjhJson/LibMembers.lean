import Mathlib

/-! Members in order: a list of named values in which the first one with a name counts. -/

namespace Members

variable {α β γ : Type} [DecidableEq α]

/-- The value of the first member with the name. -/
def get? (name : α) : List (α × β) → Option β
  | [] => none
  | (other, value) :: rest => if other = name then some value else get? name rest

/-- Replace the value of the first member with the name in its place, or append a new member. -/
def set (name : α) (value : β) : List (α × β) → List (α × β)
  | [] => [(name, value)]
  | (other, old) :: rest => if other = name then (other, value) :: rest else (other, old) :: set name value rest

/-- Leave out the members with the name. -/
def remove (name : α) (members : List (α × β)) : List (α × β) := members.filter (·.1 ≠ name)

/-- Apply a function to every value. -/
def mapValues (f : β → γ) (members : List (α × β)) : List (α × γ) :=
  members.map fun member => (member.1, f member.2)

omit [DecidableEq α] in
@[simp] theorem mapValues_cons (f : β → γ) (member : α × β) (rest : List (α × β)) :
    mapValues f (member :: rest) = (member.1, f member.2) :: mapValues f rest := rfl

section Lookup

variable {members : List (α × β)} {name other : α} {value : β}

theorem get?_eq_none : get? name members = none ↔ name ∉ members.map (·.1) := by
  induction members with
  | nil => simp [get?]
  | cons member rest ih =>
      rw [get?, List.map_cons, List.mem_cons, not_or, ← ih]
      split
      · rename_i hsame
        exact ⟨fun h => absurd h (Option.some_ne_none _), fun h => absurd hsame.symm h.1⟩
      · rename_i hother
        exact ⟨fun h => ⟨Ne.symm hother, h⟩, fun h => h.2⟩

theorem get?_mem (h : get? name members = some value) : (name, value) ∈ members := by
  induction members with
  | nil => cases h
  | cons member rest ih =>
      rw [get?] at h
      split at h
      · rename_i hsame
        rw [← hsame, ← Option.some.inj h]
        exact List.mem_cons_self
      · exact List.mem_cons_of_mem _ (ih h)

/-- Without repeated names, every member is the first one with its name. -/
theorem get?_of_mem (hnodup : (members.map (·.1)).Nodup) (h : (name, value) ∈ members) :
    get? name members = some value := by
  induction members with
  | nil => cases h
  | cons member rest ih =>
      rw [List.map_cons, List.nodup_cons] at hnodup
      rw [get?]
      rcases List.mem_cons.mp h with rfl | h
      · exact if_pos rfl
      · rw [if_neg, ih hnodup.2 h]
        rintro rfl
        exact hnodup.1 (List.mem_map_of_mem (f := (·.1)) h)

theorem get?_mapValues (f : β → γ) : get? name (mapValues f members) = (get? name members).map f := by
  induction members with
  | nil => rfl
  | cons member rest ih =>
      rw [mapValues, List.map_cons, get?, get?]
      split
      · rfl
      · exact ih

theorem get?_set_self : get? name (set name value members) = some value := by
  induction members with
  | nil => exact if_pos rfl
  | cons member rest ih =>
      rw [set]
      split
      · rename_i hsame
        exact if_pos hsame
      · rename_i hother
        rw [get?, if_neg hother, ih]

theorem get?_set_of_ne (hne : other ≠ name) :
    get? other (set name value members) = get? other members := by
  induction members with
  | nil => exact if_neg hne.symm
  | cons member rest ih =>
      rw [set]
      split
      · rename_i hsame
        rw [get?, get?, if_neg (hsame ▸ hne.symm), if_neg (hsame ▸ hne.symm)]
      · rw [get?, get?, ih]

theorem get?_remove_of_ne (hne : other ≠ name) :
    get? other (remove name members) = get? other members := by
  induction members with
  | nil => rfl
  | cons member rest ih =>
      rw [remove, List.filter_cons]
      split
      · rw [get?, get?]
        exact ite_congr rfl (fun _ => rfl) fun _ => ih
      · rename_i hsame
        rw [decide_eq_true_iff, not_not] at hsame
        rw [get?, if_neg (hsame ▸ hne.symm)]
        exact ih

end Lookup

section Update

variable {members : List (α × β)} {name : α} {value : β}

theorem set_eq_append (h : name ∉ members.map (·.1)) :
    set name value members = members ++ [(name, value)] := by
  induction members with
  | nil => rfl
  | cons member rest ih =>
      rw [List.map_cons, List.mem_cons, not_or] at h
      rw [set, if_neg (Ne.symm h.1), ih h.2, List.cons_append]

theorem remove_eq_self (h : name ∉ members.map (·.1)) : remove name members = members := by
  rw [remove, List.filter_eq_self]
  intro member hmem
  refine decide_eq_true fun hsame => h ?_
  rw [← hsame]
  exact List.mem_map_of_mem (f := (·.1)) hmem

/-- The names, in their order, stay when the name is there. -/
theorem map_fst_set (h : name ∈ members.map (·.1)) :
    (set name value members).map (·.1) = members.map (·.1) := by
  induction members with
  | nil => cases h
  | cons member rest ih =>
      rw [set]
      split
      · rfl
      · rename_i hother
        rcases List.mem_cons.mp h with rfl | h
        · exact absurd rfl hother
        · rw [List.map_cons, List.map_cons, ih h]

theorem nodup_set (h : (members.map (·.1)).Nodup) : ((set name value members).map (·.1)).Nodup := by
  by_cases hmem : name ∈ members.map (·.1)
  · rwa [map_fst_set hmem]
  · rw [set_eq_append hmem, List.map_append, List.nodup_append]
    refine ⟨h, List.nodup_singleton _, fun other hother last hlast hsame => ?_⟩
    rw [List.map_singleton, List.mem_singleton] at hlast
    rw [hsame, hlast] at hother
    exact hmem hother

theorem nodup_remove (h : (members.map (·.1)).Nodup) : ((remove name members).map (·.1)).Nodup :=
  h.sublist (List.filter_sublist.map _)

theorem mem_set {member : α × β} (h : member ∈ set name value members) :
    member ∈ members ∨ member = (name, value) := by
  induction members with
  | nil => exact .inr (List.mem_singleton.mp h)
  | cons first rest ih =>
      rw [set] at h
      split at h
      · rename_i hsame
        rcases List.mem_cons.mp h with rfl | h
        · exact .inr (by rw [hsame])
        · exact .inl (List.mem_cons_of_mem _ h)
      · rcases List.mem_cons.mp h with rfl | h
        · exact .inl List.mem_cons_self
        · exact (ih h).imp (List.mem_cons_of_mem _) id

theorem set_set (old : β) : set name value (set name old members) = set name value members := by
  induction members with
  | nil => exact if_pos rfl
  | cons member rest ih =>
      rw [set, set]
      split
      · rename_i hsame
        exact if_pos hsame
      · rename_i hother
        rw [set, if_neg hother, ih]

theorem length_set_of_mem (h : name ∈ members.map (·.1)) :
    (set name value members).length = members.length := by
  have hlength := congrArg List.length (@map_fst_set _ _ _ members name value h)
  rwa [List.length_map, List.length_map] at hlength

theorem length_remove_of_mem (hnodup : (members.map (·.1)).Nodup) (h : name ∈ members.map (·.1)) :
    (remove name members).length = members.length - 1 := by
  induction members with
  | nil => cases h
  | cons member rest ih =>
      rw [List.map_cons, List.nodup_cons] at hnodup
      rw [remove, List.filter_cons]
      by_cases hsame : member.1 = name
      · rw [if_neg (by simpa using hsame)]
        exact congrArg List.length (remove_eq_self (hsame ▸ hnodup.1))
      · rw [if_pos (decide_eq_true hsame)]
        have hrest : name ∈ rest.map (·.1) := (List.mem_cons.mp h).resolve_left (Ne.symm hsame)
        have hlength := ih hnodup.2 hrest
        have hpos : 0 < rest.length := by
          rw [← List.length_map (·.1)]
          exact List.length_pos_of_mem hrest
        rw [List.length_cons, List.length_cons, Nat.add_sub_cancel]
        rw [remove] at hlength
        omega

theorem mapValues_set (f : β → γ) :
    mapValues f (set name value members) = set name (f value) (mapValues f members) := by
  induction members with
  | nil => rfl
  | cons member rest ih =>
      rw [set, mapValues, mapValues, List.map_cons, set]
      split
      · rfl
      · rw [List.map_cons]
        exact congrArg _ ih

theorem mapValues_remove (f : β → γ) :
    mapValues f (remove name members) = remove name (mapValues f members) := by
  rw [mapValues, mapValues, remove, remove, List.filter_map]
  rfl

end Update

section Positions

variable {members : List (α × β)} {name : α} {value : β} {pos : Nat}

/-- The first member with a name stands where the names have it first. -/
theorem get?_of_getElem? (hget : members[pos]? = some (name, value))
    (hfirst : ∀ before < pos, (members.map (·.1))[before]? ≠ some name) :
    get? name members = some value := by
  induction members generalizing pos with
  | nil => cases hget
  | cons member rest ih =>
      rw [get?]
      cases pos with
      | zero =>
          obtain rfl := Option.some.inj hget
          exact if_pos rfl
      | succ pos =>
          have hne : member.1 ≠ name := fun hsame => hfirst 0 (Nat.succ_pos _) (by simp [hsame])
          rw [if_neg hne]
          exact ih hget fun before hbefore => hfirst (before + 1) (Nat.succ_lt_succ hbefore)

theorem set_eq_modify (hget : members[pos]? = some (name, value))
    (hfirst : ∀ before < pos, (members.map (·.1))[before]? ≠ some name) (new : β) :
    (members.modify pos fun member => (member.1, new)) = set name new members := by
  induction members generalizing pos with
  | nil => cases hget
  | cons member rest ih =>
      rw [set]
      cases pos with
      | zero =>
          obtain rfl := Option.some.inj hget
          rw [if_pos rfl, List.modify_zero_cons]
      | succ pos =>
          have hne : member.1 ≠ name := fun hsame => hfirst 0 (Nat.succ_pos _) (by simp [hsame])
          rw [if_neg hne, List.modify_succ_cons]
          exact congrArg _ (ih hget fun before hbefore => hfirst (before + 1) (Nat.succ_lt_succ hbefore))

theorem remove_eq_eraseIdx (hnodup : (members.map (·.1)).Nodup)
    (hget : members[pos]? = some (name, value)) : members.eraseIdx pos = remove name members := by
  induction members generalizing pos with
  | nil => cases hget
  | cons member rest ih =>
      rw [List.map_cons, List.nodup_cons] at hnodup
      cases pos with
      | zero =>
          obtain rfl := Option.some.inj hget
          rw [List.eraseIdx_cons_zero, remove, List.filter_cons, if_neg (by simp)]
          exact (remove_eq_self hnodup.1).symm
      | succ pos =>
          have hmem : (name, value) ∈ rest := List.mem_of_getElem? hget
          have hne : member.1 ≠ name := fun hsame =>
            hnodup.1 (hsame ▸ List.mem_map_of_mem (f := (·.1)) hmem)
          rw [List.eraseIdx_cons_succ, remove, List.filter_cons, if_pos (decide_eq_true hne)]
          exact congrArg _ (ih hnodup.2 hget)

end Positions

end Members
