import PjhJson.ConstJson

/-! The conversion of a compile-time value to a `Json`: it ends unless an object is too large for an index,
the value it builds is sound, and without repeated keys it has the entries in order. -/

namespace PjhJson

open Node

namespace Object

variable {self self' : Object Node} {key : Bytes} {value : Node}

/-- A key that is new is inserted behind the entries. -/
theorem insert_data (h : (object self).Sound) (hnew : key ∉ self.keys)
    (hinsert : self.insert key value = some self') : self'.data = self.data ++ [(key, value)] := by
  obtain ⟨self₁, hfind, -, hdata⟩ := findSlot_spec h key true
  rw [insert, hfind, Option.bind_eq_bind, Option.bind_some, firstMatch_eq_none.mpr hnew] at hinsert
  obtain ⟨index, -, heq⟩ := Option.bind_eq_some_iff.mp hinsert
  cases heq
  rw [← hdata]

/-- An insertion appends an entry, or overwrites a value. -/
theorem insert_cases (h : (object self).Sound) (hinsert : self.insert key value = some self') :
    self'.data = self.data ++ [(key, value)] ∨
      ∃ pos, self'.data = self.data.modify pos fun entry => (entry.1, value) := by
  by_cases hnew : key ∈ self.keys
  · obtain ⟨self₁, hfind, -, hdata⟩ := findSlot_spec h key true
    obtain ⟨pos, hmatch⟩ := exists_firstMatch hnew
    rw [insert, hfind, Option.bind_eq_bind, Option.bind_some, hmatch] at hinsert
    cases hinsert
    exact .inr ⟨pos, by rw [setValue, hdata]⟩
  · exact .inl (insert_data h hnew hinsert)

/-- An insertion adds at most one entry. -/
theorem length_insert (h : (object self).Sound) (hinsert : self.insert key value = some self') :
    self'.data.length ≤ self.data.length + 1 := by
  obtain hdata | ⟨pos, hdata⟩ := insert_cases h hinsert
  · rw [hdata, List.length_append]
    exact Nat.le_refl _
  · rw [hdata, List.length_modify]
    exact Nat.le_succ _

/-- The value of an entry is the one inserted, or was there before. -/
theorem mem_insert (h : (object self).Sound) (hinsert : self.insert key value = some self')
    {entry : Bytes × Node} (hmem : entry ∈ self'.data) : entry.2 = value ∨ entry ∈ self.data := by
  obtain hdata | ⟨pos, hdata⟩ := insert_cases h hinsert
  · rw [hdata, List.mem_append, List.mem_singleton] at hmem
    exact hmem.symm.imp (fun heq => by rw [heq]) id
  · rw [hdata] at hmem
    obtain ⟨i, hget⟩ := List.getElem?_of_mem hmem
    rw [List.getElem?_modify] at hget
    obtain ⟨old, hold, heq⟩ := Option.map_eq_some_iff.mp hget
    split at heq
    · exact .inl (by rw [← heq])
    · exact .inr (heq ▸ List.mem_of_getElem? hold)

end Object

namespace ConstJson

mutual

/-- Every object of the value satisfies `P`. -/
def AllObjects (P : List (Bytes × ConstJson) → Prop) : ConstJson → Prop
  | array elems => AllObjectsElems P elems
  | object entries => P entries ∧ AllObjectsEntries P entries
  | _ => True

def AllObjectsElems (P : List (Bytes × ConstJson) → Prop) : List ConstJson → Prop
  | [] => True
  | e :: elems => AllObjects P e ∧ AllObjectsElems P elems

def AllObjectsEntries (P : List (Bytes × ConstJson) → Prop) : List (Bytes × ConstJson) → Prop
  | [] => True
  | (_, e) :: entries => AllObjects P e ∧ AllObjectsEntries P entries

end

mutual

/-- The number of containers open around the deepest container, that one included. -/
def nesting : ConstJson → Nat
  | array elems => nestingElems elems + 1
  | object entries => nestingEntries entries + 1
  | _ => 0

def nestingElems : List ConstJson → Nat
  | [] => 0
  | e :: elems => max e.nesting (nestingElems elems)

def nestingEntries : List (Bytes × ConstJson) → Nat
  | [] => 0
  | (_, e) :: entries => max e.nesting (nestingEntries entries)

end

/-- No key is repeated in an object. -/
def NoRepeats (v : ConstJson) : Prop := v.AllObjects fun entries => (entries.map (·.1)).Nodup

/-- An index can be built for every object. -/
def Indexable (v : ConstJson) : Prop := v.AllObjects fun entries => entries.length ≤ Index.kMaxIndexed

theorem allObjectsElems_iff {P : List (Bytes × ConstJson) → Prop} {elems : List ConstJson} :
    AllObjectsElems P elems ↔ ∀ e ∈ elems, e.AllObjects P := by
  induction elems with
  | nil => exact iff_of_true trivial (fun _ h => absurd h List.not_mem_nil)
  | cons e elems ih => rw [AllObjectsElems, ih, List.forall_mem_cons]

theorem allObjectsEntries_iff {P : List (Bytes × ConstJson) → Prop}
    {entries : List (Bytes × ConstJson)} :
    AllObjectsEntries P entries ↔ ∀ entry ∈ entries, entry.2.AllObjects P := by
  induction entries with
  | nil => exact iff_of_true trivial (fun _ h => absurd h List.not_mem_nil)
  | cons entry entries ih => rw [AllObjectsEntries, ih, List.forall_mem_cons]

theorem nestingElems_le {elems : List ConstJson} {n : Nat} :
    nestingElems elems ≤ n ↔ ∀ e ∈ elems, e.nesting ≤ n := by
  induction elems with
  | nil => exact iff_of_true (Nat.zero_le n) (fun _ h => absurd h List.not_mem_nil)
  | cons e elems ih => rw [nestingElems, Nat.max_le, ih, List.forall_mem_cons]

theorem nestingEntries_le {entries : List (Bytes × ConstJson)} {n : Nat} :
    nestingEntries entries ≤ n ↔ ∀ entry ∈ entries, entry.2.nesting ≤ n := by
  induction entries with
  | nil => exact iff_of_true (Nat.zero_le n) (fun _ h => absurd h List.not_mem_nil)
  | cons entry entries ih => rw [nestingEntries, Nat.max_le, ih, List.forall_mem_cons]

theorem hasDoubleElems_eq_false {elems : List ConstJson} :
    hasDoubleElems elems = false ↔ ∀ e ∈ elems, e.hasDouble = false := by
  induction elems with
  | nil => exact iff_of_true rfl (fun _ h => absurd h List.not_mem_nil)
  | cons e elems ih => rw [hasDoubleElems, Bool.or_eq_false_iff, ih, List.forall_mem_cons]

theorem hasDoubleEntries_eq_false {entries : List (Bytes × ConstJson)} :
    hasDoubleEntries entries = false ↔ ∀ entry ∈ entries, entry.2.hasDouble = false := by
  induction entries with
  | nil => exact iff_of_true rfl (fun _ h => absurd h List.not_mem_nil)
  | cons entry entries ih => rw [hasDoubleEntries, Bool.or_eq_false_iff, ih, List.forall_mem_cons]

theorem pushElems_eq_some {res : Nat} {elems : List ConstJson} {values : List Node} :
    pushElems res elems = some values ↔
      List.Forall₂ (fun e value => toRuntime res e = some value) elems values := by
  induction elems generalizing values with
  | nil =>
      rw [pushElems, List.forall₂_nil_left_iff, Option.some_inj, eq_comm]
  | cons e elems ih =>
      rw [pushElems, List.forall₂_cons_left_iff]
      simp only [Option.bind_eq_bind, Option.bind_eq_some_iff, ih, Option.some_inj]
      constructor
      · intro ⟨value, he, values, helems, heq⟩
        exact ⟨value, values, he, helems, heq.symm⟩
      · intro ⟨value, values, he, helems, heq⟩
        exact ⟨value, he, values, helems, heq.symm⟩


/-! ### Results -/

/-- What stands on the right is related to something on the left. -/
theorem forall₂_exists_left {α β : Type} {R : α → β → Prop} {xs : List α} {ys : List β}
    (h : List.Forall₂ R xs ys) {y : β} (hy : y ∈ ys) : ∃ x ∈ xs, R x y := by
  induction h with
  | nil => exact absurd hy List.not_mem_nil
  | cons hxy _ ih =>
      obtain rfl | hy := List.mem_cons.mp hy
      · exact ⟨_, List.mem_cons_self, hxy⟩
      · obtain ⟨x, hx, hR⟩ := ih hy
        exact ⟨x, List.mem_cons_of_mem _ hx, hR⟩

theorem sound_empty (res : Nat) : (Node.object { resource := res }).Sound :=
  sound_object.mpr ⟨Index.cacheHolds_none _, fun _ h => absurd h List.not_mem_nil⟩

/-- Inserting sound values into a sound object leaves a sound one. -/
theorem insertEntries_sound {res : Nat} {entries : List (Bytes × ConstJson)} {obj obj' : Object Node}
    (hvalues : ∀ entry ∈ entries, ∀ value, toRuntime res entry.2 = some value → value.Sound)
    (h : (Node.object obj).Sound) (hrun : insertEntries res obj entries = some obj') :
    (Node.object obj').Sound := by
  induction entries generalizing obj with
  | nil =>
      cases hrun
      exact h
  | cons entry entries ih =>
      obtain ⟨hentry, hentries⟩ := List.forall_mem_cons.mp hvalues
      obtain ⟨value, hvalue, hrest⟩ := Option.bind_eq_some_iff.mp hrun
      obtain ⟨obj₁, hinsert, hrest⟩ := Option.bind_eq_some_iff.mp hrest
      exact ih hentries ((Object.insert_spec h entry.1 (hentry value hvalue)).1 obj₁ hinsert) hrest

theorem toRuntime_sound {res : Nat} {v : ConstJson} {value : Node} (h : toRuntime res v = some value) :
    value.Sound := by
  induction v using ConstJson.induct generalizing value with
  | array elems ih =>
      obtain ⟨values, hvalues, rfl⟩ := Option.map_eq_some_iff.mp h
      rw [pushElems_eq_some] at hvalues
      apply sound_array.mpr
      intro child hchild
      obtain ⟨e, he, hrun⟩ := forall₂_exists_left hvalues hchild
      exact ih e he hrun
  | object entries ih =>
      obtain ⟨obj, hobj, rfl⟩ := Option.map_eq_some_iff.mp h
      exact insertEntries_sound (fun entry hmem value => ih entry hmem) (sound_empty res) hobj
  | _ =>
      cases h
      trivial

/-- Without repeated keys the entries are those of the value, in order. -/
theorem insertEntries_data {res : Nat} {entries : List (Bytes × ConstJson)} {obj obj' : Object Node}
    (h : (Node.object obj).Sound) (hkeys : (obj.keys ++ entries.map (·.1)).Nodup)
    (hrun : insertEntries res obj entries = some obj') :
    ∃ added, obj'.data = obj.data ++ added ∧
      List.Forall₂ (fun entry entry' => entry.1 = entry'.1 ∧ toRuntime res entry.2 = some entry'.2)
        entries added := by
  induction entries generalizing obj with
  | nil =>
      cases hrun
      exact ⟨[], (List.append_nil _).symm, .nil⟩
  | cons entry entries ih =>
      obtain ⟨value, hvalue, hrest⟩ := Option.bind_eq_some_iff.mp hrun
      obtain ⟨obj₁, hinsert, hrest⟩ := Option.bind_eq_some_iff.mp hrest
      have hnew : entry.1 ∉ obj.keys := fun hmem =>
        (List.nodup_append.mp hkeys).2.2 _ hmem _ List.mem_cons_self rfl
      have hdata := Object.insert_data h hnew hinsert
      have hsound := (Object.insert_spec h entry.1 (toRuntime_sound hvalue)).1 obj₁ hinsert
      have hkeys₁ : obj₁.keys = obj.keys ++ [entry.1] := by
        rw [Object.keys, hdata, List.map_append]
        rfl
      have hkeys' : (obj₁.keys ++ entries.map (·.1)).Nodup := by
        rw [hkeys₁, List.append_assoc]
        exact hkeys
      obtain ⟨added, hadded, hall⟩ := ih hsound hkeys' hrest
      refine ⟨(entry.1, value) :: added, ?_, .cons ⟨rfl, hvalue⟩ hall⟩
      rw [hadded, hdata, List.append_assoc]
      rfl

theorem toRuntime_object {res : Nat} {entries : List (Bytes × ConstJson)} {value : Node}
    (hkeys : (entries.map (·.1)).Nodup) (h : toRuntime res (object entries) = some value) :
    ∃ self, value = .object self ∧
      List.Forall₂ (fun entry entry' => entry.1 = entry'.1 ∧ toRuntime res entry.2 = some entry'.2)
        entries self.data := by
  obtain ⟨obj, hobj, rfl⟩ := Option.map_eq_some_iff.mp h
  obtain ⟨added, hadded, hall⟩ := insertEntries_data (sound_empty res) hkeys hobj
  exact ⟨obj, rfl, hadded ▸ hall⟩

theorem exists_insertEntries {res : Nat} {entries : List (Bytes × ConstJson)} {obj : Object Node}
    (h : (Node.object obj).Sound) (hlength : obj.data.length + entries.length ≤ Index.kMaxIndexed)
    (hvalues : ∀ entry ∈ entries, ∃ value, toRuntime res entry.2 = some value) :
    ∃ obj', insertEntries res obj entries = some obj' := by
  induction entries generalizing obj with
  | nil => exact ⟨obj, rfl⟩
  | cons entry entries ih =>
      obtain ⟨⟨value, hvalue⟩, hentries⟩ := List.forall_mem_cons.mp hvalues
      rw [List.length_cons] at hlength
      obtain ⟨hsound, hreturns⟩ := Object.insert_spec h entry.1 (toRuntime_sound hvalue)
      obtain ⟨obj₁, hinsert⟩ := hreturns (by omega)
      have hle := Object.length_insert h hinsert
      obtain ⟨obj', hobj'⟩ := ih (hsound obj₁ hinsert) (by omega) hentries
      refine ⟨obj', ?_⟩
      rw [insertEntries, hvalue, Option.bind_eq_bind, Option.bind_some, hinsert]
      exact hobj'

/-- A value whose objects can be indexed is converted. -/
theorem exists_toRuntime {v : ConstJson} (res : Nat) (hindex : v.Indexable) :
    ∃ value, toRuntime res v = some value := by
  induction v using ConstJson.induct with
  | array elems ih =>
      rw [Indexable, AllObjects, allObjectsElems_iff] at hindex
      have hvalues : ∃ values, pushElems res elems = some values := by
        induction elems with
        | nil => exact ⟨[], rfl⟩
        | cons e elems ih' =>
            obtain ⟨he, helems⟩ := List.forall_mem_cons.mp ih
            obtain ⟨hindexed, hindexed'⟩ := List.forall_mem_cons.mp hindex
            obtain ⟨value, hvalue⟩ := he hindexed
            obtain ⟨values, hvalues⟩ := ih' helems hindexed'
            refine ⟨value :: values, ?_⟩
            rw [pushElems, hvalue, hvalues]
            rfl
      obtain ⟨values, hvalues⟩ := hvalues
      exact ⟨.array values, by rw [toRuntime, hvalues]; rfl⟩
  | object entries ih =>
      obtain ⟨hlength, hentries⟩ := hindex
      rw [allObjectsEntries_iff] at hentries
      obtain ⟨obj, hobj⟩ := @exists_insertEntries res entries { resource := res } (sound_empty res)
        (by change 0 + entries.length ≤ _; omega) fun entry hmem => ih entry hmem (hentries entry hmem)
      exact ⟨.object obj, by rw [toRuntime, hobj]; rfl⟩
  | _ => exact ⟨_, rfl⟩

/-- What is inserted can be indexed if there are few enough entries. -/
theorem insertEntries_indexable {res : Nat} {entries : List (Bytes × ConstJson)} {obj obj' : Object Node}
    (hvalues : ∀ entry ∈ entries, ∀ value, toRuntime res entry.2 = some value → value.Indexable)
    (h : (Node.object obj).Sound) (hobj : ∀ entry ∈ obj.data, entry.2.Indexable)
    (hrun : insertEntries res obj entries = some obj') :
    obj'.data.length ≤ obj.data.length + entries.length ∧ ∀ entry ∈ obj'.data, entry.2.Indexable := by
  induction entries generalizing obj with
  | nil =>
      cases hrun
      exact ⟨Nat.le_refl _, hobj⟩
  | cons entry entries ih =>
      obtain ⟨hentry, hentries⟩ := List.forall_mem_cons.mp hvalues
      obtain ⟨value, hvalue, hrest⟩ := Option.bind_eq_some_iff.mp hrun
      obtain ⟨obj₁, hinsert, hrest⟩ := Option.bind_eq_some_iff.mp hrest
      have hsound := (Object.insert_spec h entry.1 (toRuntime_sound hvalue)).1 obj₁ hinsert
      have hle := Object.length_insert h hinsert
      obtain ⟨hlength, hall⟩ := ih hentries hsound (fun e hmem => by
        obtain heq | hmem := Object.mem_insert h hinsert hmem
        · exact heq ▸ hentry value hvalue
        · exact hobj e hmem) hrest
      rw [List.length_cons]
      exact ⟨by omega, hall⟩

/-- A value that is converted can be indexed as a `Json` if it can be as a constant. -/
theorem toRuntime_indexable {res : Nat} {v : ConstJson} {value : Node} (hindex : v.Indexable)
    (h : toRuntime res v = some value) : value.Indexable := by
  induction v using ConstJson.induct generalizing value with
  | array elems ih =>
      rw [Indexable, AllObjects, allObjectsElems_iff] at hindex
      obtain ⟨values, hvalues, rfl⟩ := Option.map_eq_some_iff.mp h
      rw [pushElems_eq_some] at hvalues
      apply indexable_array.mpr
      intro child hchild
      obtain ⟨e, he, hrun⟩ := forall₂_exists_left hvalues hchild
      exact ih e he (hindex e he) hrun
  | object entries ih =>
      obtain ⟨hlength, hentries⟩ := hindex
      rw [allObjectsEntries_iff] at hentries
      obtain ⟨obj, hobj, rfl⟩ := Option.map_eq_some_iff.mp h
      obtain ⟨hle, hall⟩ := insertEntries_indexable (fun entry hmem value => ih entry hmem (hentries entry hmem))
        (sound_empty res) (fun _ hmem => absurd hmem List.not_mem_nil) hobj
      rw [indexable_object, length_keys]
      rw [List.length_nil, Nat.zero_add] at hle
      exact ⟨hle.trans hlength, hall⟩
  | _ =>
      cases h
      trivial

end ConstJson

end PjhJson
