import PjhJson.LibMembers

/-! Updating members by other members: each entry says what becomes of the member with its name, from
the value that the member has, if it is there. Without repeated names the entries do not see one
another, so that the outcome is known name by name. -/

namespace Members

variable {α β γ : Type} [DecidableEq α]

/-- Give the member with the name this value, or leave it out. -/
def put (name : α) : Option β → List (α × β) → List (α × β)
  | some value => set name value
  | none => remove name

/-- One entry after the other: `f` makes the new value from the old one. -/
def update (f : Option β → γ → Option β) (members : List (α × β)) :
    List (α × γ) → List (α × β)
  | [] => members
  | (name, given) :: rest => update f (put name (f (get? name members) given) members) rest

section Put

variable {members : List (α × β)} {name other : α} {value : Option β}

theorem get?_remove_self : get? name (remove name members) = none := by
  rw [get?_eq_none]
  intro hmem
  obtain ⟨member, hmember, rfl⟩ := List.mem_map.mp hmem
  exact absurd rfl (of_decide_eq_true (List.mem_filter.mp hmember).2)

theorem get?_put (members : List (α × β)) (name other : α) (value : Option β) :
    get? other (put name value members) = if other = name then value else get? other members := by
  split
  · rename_i hsame
    subst hsame
    cases value with
    | some value => exact get?_set_self
    | none => exact get?_remove_self
  · rename_i hother
    cases value with
    | some value => exact get?_set_of_ne hother
    | none => exact get?_remove_of_ne hother

theorem nodup_put (h : (members.map (·.1)).Nodup) : ((put name value members).map (·.1)).Nodup := by
  cases value with
  | some value => exact nodup_set h
  | none => exact nodup_remove h

theorem set_get? {old : β} (h : get? name members = some old) : set name old members = members := by
  induction members with
  | nil => cases h
  | cons member rest ih =>
      rw [get?] at h
      rw [set]
      split
      · rename_i hsame
        rw [if_pos hsame] at h
        rw [← Option.some.inj h]
      · rename_i hother
        rw [if_neg hother] at h
        rw [ih h]

/-- Putting what is there changes nothing. -/
theorem put_get? : put name (get? name members) members = members := by
  cases h : get? name members with
  | some old => exact set_get? h
  | none => exact remove_eq_self (get?_eq_none.mp h)

end Put

section Update

variable {f : Option β → γ → Option β} {members : List (α × β)} {entries entries' : List (α × γ)}
  {name : α}

theorem nodup_update (h : (members.map (·.1)).Nodup) :
    ((update f members entries).map (·.1)).Nodup := by
  induction entries generalizing members with
  | nil => exact h
  | cons entry rest ih => exact ih (nodup_put h)

/-- The outcome, name by name. -/
theorem get?_update (hnodup : (entries.map (·.1)).Nodup) (name : α) :
    get? name (update f members entries) = match get? name entries with
      | some given => f (get? name members) given
      | none => get? name members := by
  induction entries generalizing members with
  | nil => rfl
  | cons entry rest ih =>
      rw [List.map_cons, List.nodup_cons] at hnodup
      rw [update, ih hnodup.2, get?_put, get?]
      by_cases hsame : entry.1 = name
      · rw [if_pos hsame, if_pos hsame.symm, get?_eq_none.mpr (hsame ▸ hnodup.1), hsame]
      · rw [if_neg hsame, if_neg (Ne.symm hsame)]

theorem update_eq_self (h : ∀ entry ∈ entries, f (get? entry.1 members) entry.2 = get? entry.1 members) :
    update f members entries = members := by
  induction entries with
  | nil => rfl
  | cons entry rest ih =>
      rw [List.forall_mem_cons] at h
      rw [update, h.1, put_get?]
      exact ih h.2

/-- A second update by the same entries changes nothing, the order of the members included, when no
second value differs from the first. -/
theorem update_update (hnodup : (entries.map (·.1)).Nodup)
    (hidem : ∀ entry ∈ entries, f (f (get? entry.1 members) entry.2) entry.2 =
      f (get? entry.1 members) entry.2) :
    update f (update f members entries) entries = update f members entries := by
  refine update_eq_self fun entry hmem => ?_
  rw [get?_update hnodup, get?_of_mem hnodup hmem]
  exact hidem entry hmem

end Update

/-- Without repeated names, the lookups decide everything but the order. -/
theorem perm_of_get? {xs ys : List (α × β)} (hx : (xs.map (·.1)).Nodup) (hy : (ys.map (·.1)).Nodup)
    (h : ∀ name, get? name xs = get? name ys) : xs.Perm ys := by
  refine (List.perm_ext_iff_of_nodup hx.of_map hy.of_map).mpr fun member => ?_
  constructor
  · intro hmem
    exact get?_mem ((h member.1).symm.trans (get?_of_mem hx hmem))
  · intro hmem
    exact get?_mem ((h member.1).trans (get?_of_mem hy hmem))

theorem get?_perm {xs ys : List (α × β)} (hx : (xs.map (·.1)).Nodup) (h : xs.Perm ys) (name : α) :
    get? name xs = get? name ys := by
  have hy : (ys.map (·.1)).Nodup := (h.map _).nodup_iff.mp hx
  cases hget : get? name xs with
  | some value => exact (get?_of_mem hy (h.mem_iff.mp (get?_mem hget))).symm
  | none =>
      rw [get?_eq_none] at hget
      rw [get?_eq_none.mpr fun hmem => hget ((h.map _).mem_iff.mpr hmem)]

/-! ### The members that were there, and the new ones -/

section Shape

variable {f : Option β → γ → β} {members : List (α × β)} {entries : List (α × γ)}

/-- The members of the two lists that an update without deletions leaves: those that were there, in
their places, and the new ones in the order of the entries. -/
def merged (f : Option β → γ → β) (members : List (α × β)) (entries : List (α × γ)) :
    List (α × β) :=
  members.map (fun member =>
    (member.1, (get? member.1 entries).elim member.2 (f (some member.2)))) ++
  (entries.filter (·.1 ∉ members.map (·.1))).map fun entry => (entry.1, f none entry.2)

/-- A set name that is there changes one value, in its place. -/
theorem set_eq_map {name : α} {value : β} (hnodup : (members.map (·.1)).Nodup)
    (hmem : name ∈ members.map (·.1)) :
    set name value members =
      members.map fun member => (member.1, if member.1 = name then value else member.2) := by
  induction members with
  | nil => cases hmem
  | cons member rest ih =>
      rw [List.map_cons, List.nodup_cons] at hnodup
      rw [set, List.map_cons]
      split
      · rename_i hsame
        congr 1
        refine (List.map_id' rest).symm.trans (List.map_congr_left fun other hother => ?_)
        rw [if_neg]
        rintro rfl
        exact hnodup.1 (hsame ▸ List.mem_map_of_mem (f := (·.1)) hother)
      · rename_i hother
        rw [ih hnodup.2 ((List.mem_cons.mp hmem).resolve_left (Ne.symm hother))]

/-- What is merged for an entry whose member is there already. -/
theorem merged_cons_of_mem {name : α} {given : γ} {rest : List (α × γ)} {old : β}
    (hnodup : (members.map (·.1)).Nodup) (hold : get? name members = some old)
    (hrest : name ∉ rest.map (·.1)) :
    merged f members ((name, given) :: rest) = merged f (set name (f (some old) given) members) rest := by
  have hmem : name ∈ members.map (·.1) := by
    by_contra hnew
    rw [get?_eq_none.mpr hnew] at hold
    cases hold
  rw [merged, merged, map_fst_set hmem, set_eq_map hnodup hmem, List.map_map,
    List.filter_cons_of_neg (by simpa using hmem)]
  congr 1
  refine List.map_congr_left fun member hmember => ?_
  simp only [Function.comp_apply, get?]
  by_cases hsame : name = member.1
  · have hvalue : get? member.1 members = some member.2 := get?_of_mem hnodup hmember
    rw [if_pos hsame, if_pos hsame.symm, get?_eq_none.mpr (hsame ▸ hrest)]
    rw [← hsame, hold] at hvalue
    rw [← Option.some.inj hvalue]
    rfl
  · rw [if_neg hsame, if_neg (Ne.symm hsame)]

/-- What is merged for an entry with a new name. -/
theorem merged_cons_of_not_mem {name : α} {given : γ} {rest : List (α × γ)}
    (hnew : name ∉ members.map (·.1)) (hrest : name ∉ rest.map (·.1)) :
    merged f members ((name, given) :: rest) = merged f (members ++ [(name, f none given)]) rest := by
  have hadded : rest.filter (·.1 ∉ (members ++ [(name, f none given)]).map (·.1)) =
      rest.filter (·.1 ∉ members.map (·.1)) := by
    refine List.filter_congr fun entry hentry => ?_
    have hne : entry.1 ≠ name := fun hsame =>
      hrest (hsame ▸ List.mem_map_of_mem (f := (·.1)) hentry)
    simp [hne]
  rw [merged, merged, List.map_append, hadded, List.filter_cons_of_pos (by simpa using hnew),
    List.map_cons, List.map_singleton, get?_eq_none.mpr hrest, List.append_assoc,
    List.singleton_append]
  congr 1
  refine List.map_congr_left fun member hmember => ?_
  rw [get?, if_neg]
  rintro rfl
  exact hnew (List.mem_map_of_mem (f := (·.1)) hmember)

theorem update_eq_merged (hmembers : (members.map (·.1)).Nodup)
    (hentries : (entries.map (·.1)).Nodup) :
    update (fun old given => some (f old given)) members entries = merged f members entries := by
  induction entries generalizing members with
  | nil => simp [update, merged, get?]
  | cons entry rest ih =>
      obtain ⟨name, given⟩ := entry
      rw [List.map_cons, List.nodup_cons] at hentries
      rw [update, put, ih (nodup_set hmembers) hentries.2]
      cases hold : get? name members with
      | some old => exact (merged_cons_of_mem hmembers hold hentries.1).symm
      | none =>
          have hnew := get?_eq_none.mp hold
          rw [set_eq_append hnew]
          exact (merged_cons_of_not_mem hnew hentries.1).symm

end Shape

end Members
