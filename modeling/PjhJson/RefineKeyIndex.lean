import PjhJson.ParserKeyIndex

/-! The key index finds what a scan of the keys finds. `Indexes` is its invariant: the table holds the
positions of all keys and is at most half full. -/

namespace PjhJson.KeyIndex

open Probe

variable {platform : Platform} {keys : List Bytes} {index : KeyIndex}

/-- The table holds the positions `stored` of these keys. -/
structure Holds (platform : Platform) (keys : List Bytes) (index : KeyIndex) (stored : List Nat) :
    Prop where
  valid : Valid (keys[·]?) platform.keyHash index.slots index.mask stored
  count : index.count = stored.length

/-- The table holds the positions of all keys and is at most half full. -/
def Indexes (platform : Platform) (keys : List Bytes) (index : KeyIndex) : Prop :=
  ∃ stored, Holds platform keys index stored ∧ stored.Perm (List.range keys.length) ∧
    stored.length * 2 ≤ index.slots.length ∧ 0 < index.slots.length

theorem home_eq (mask : Nat) (key : Bytes) :
    home platform mask key = slotAt mask (platform.keyHash key) 0 := rfl

theorem getElem?_ne_of_nodup (hkeys : keys.Nodup) {pos other : Nat} {key : Bytes}
    (hpos : keys[pos]? = some key) (hne : other ≠ pos) : keys[other]? ≠ some key := by
  intro hother
  have hlt : other < keys.length := (List.getElem?_eq_some_iff.mp hother).1
  exact hne ((List.getElem?_inj hlt hkeys).mp (hother.trans hpos.symm))

/-- Storing a further position while there is room. -/
theorem insertSlot_spec (hkeys : keys.Nodup) {stored : List Nat} (h : Holds platform keys index stored)
    {pos : Nat} (hpos : pos < keys.length) (hnew : pos ∉ stored)
    (hroom : stored.length < index.slots.length) :
    ∃ index', insertSlot platform keys index pos = some index' ∧
      Holds platform keys index' (pos :: stored) ∧ index'.slots.length = index.slots.length := by
  have hkey : keys[pos]? = some keys[pos] := List.getElem?_eq_getElem hpos
  obtain ⟨slot, hfree⟩ := h.valid.exists_firstFree hroom (platform.keyHash keys[pos])
  have hother : ∀ other ∈ stored, keys[other]? ≠ some keys[pos] := fun other hmem =>
    getElem?_ne_of_nodup hkeys hkey fun heq => hnew (heq ▸ hmem)
  refine ⟨⟨index.slots.set slot (pos + 1), index.mask, index.count + 1⟩, ?_, ⟨?_, ?_⟩, ?_⟩
  · rw [insertSlot, hkey, Option.bind_eq_bind, Option.bind_some, home_eq, h.valid.walkFree_eq hfree]
    rfl
  · exact h.valid.insert hfree hkey hother
  · simp [h.count]
  · simp

/-- Storing a list of further positions. -/
theorem foldlM_insertSlot_spec (hkeys : keys.Nodup) {positions stored : List Nat}
    (h : Holds platform keys index stored) (hlt : ∀ pos ∈ positions, pos < keys.length)
    (hnodup : (positions ++ stored).Nodup)
    (hroom : positions.length + stored.length ≤ index.slots.length) :
    ∃ index', positions.foldlM (insertSlot platform keys) index = some index' ∧
      Holds platform keys index' (positions.reverse ++ stored) ∧
      index'.slots.length = index.slots.length := by
  induction positions generalizing index stored with
  | nil => exact ⟨index, rfl, h, rfl⟩
  | cons pos positions ih =>
      rw [List.length_cons] at hroom
      have hperm : (positions ++ pos :: stored).Nodup :=
        (List.perm_middle.nodup_iff).mpr hnodup
      have hnew : pos ∉ stored := fun hmem =>
        (List.nodup_cons.mp hnodup).1 (List.mem_append_right _ hmem)
      obtain ⟨index', hinsert, hholds, hlength⟩ := insertSlot_spec hkeys h
        (hlt pos List.mem_cons_self) hnew (by omega)
      obtain ⟨index'', hfold, hholds', hlength'⟩ := ih hholds
        (fun other hmem => hlt other (List.mem_cons_of_mem _ hmem)) hperm
        (by rw [List.length_cons, hlength]; omega)
      refine ⟨index'', ?_, ?_, hlength'.trans hlength⟩
      · rw [List.foldlM_cons, hinsert]
        exact hfold
      · rw [List.reverse_cons, List.append_assoc]
        exact hholds'

theorem holds_assign (platform : Platform) (keys : List Bytes) (k : Nat) :
    Holds platform keys (assign (2 ^ k)) [] := ⟨valid_replicate _ _ k, rfl⟩

/-- Storing all the keys in an empty table of sufficient size. -/
theorem foldlM_assign_spec (hkeys : keys.Nodup) {positions : List Nat} {k : Nat}
    (hperm : positions.Perm (List.range keys.length)) (hroom : keys.length * 2 ≤ 2 ^ k) :
    ∃ index, positions.foldlM (insertSlot platform keys) (assign (2 ^ k)) = some index ∧
      Indexes platform keys index := by
  have hlength : positions.length = keys.length := by
    rw [hperm.length_eq, List.length_range]
  have hslots : (assign (2 ^ k)).slots.length = 2 ^ k := List.length_replicate
  have hpow := Nat.two_pow_pos k
  obtain ⟨index, hfold, hholds, hindex⟩ := foldlM_insertSlot_spec hkeys
    (holds_assign platform keys k) (fun pos hmem => List.mem_range.mp (hperm.mem_iff.mp hmem))
    (by rw [List.append_nil]; exact hperm.nodup_iff.mpr List.nodup_range)
    (by rw [hslots, List.length_nil]; omega)
  rw [List.append_nil] at hholds
  refine ⟨index, hfold, positions.reverse, hholds, (List.reverse_perm _).trans hperm, ?_, ?_⟩
  · rw [List.length_reverse, hindex, hslots, hlength]
    exact hroom
  · rw [hindex, hslots]
    exact hpow

theorem build_spec (hkeys : keys.Nodup) :
    ∃ index, build platform keys = some index ∧ Indexes platform keys index := by
  obtain ⟨k, hk, hle, _⟩ := @doubleUntil_spec (keys.length * 4) (keys.length * 4) 4 (by omega)
  rw [build, show (16 : Nat) = 2 ^ 4 from rfl, hk]
  exact foldlM_assign_spec hkeys (List.Perm.refl _) (by omega)

theorem grow_spec (hkeys : keys.Nodup) (h : Indexes platform keys index) :
    ∃ index', grow platform keys index = some index' ∧ Indexes platform keys index' ∧
      (keys.length + 1) * 2 ≤ index'.slots.length := by
  obtain ⟨stored, hholds, hperm, hload, hpos⟩ := h
  obtain ⟨k, hlength, _⟩ := hholds.valid.size
  have hcount : stored.length = keys.length := by rw [hperm.length_eq, List.length_range]
  have hpositions : index.positions.Perm (List.range keys.length) :=
    hholds.valid.positions_perm.trans hperm
  obtain ⟨index', hfold, hindexes⟩ := @foldlM_assign_spec platform _ hkeys _ (k + 1) hpositions
    (by rw [Nat.pow_succ]; omega)
  have hslots : index'.slots.length = 2 ^ (k + 1) := by
    obtain ⟨index'', hfold', _, hlength'⟩ := foldlM_insertSlot_spec hkeys
      (holds_assign platform keys (k + 1))
      (fun pos hmem => List.mem_range.mp (hpositions.mem_iff.mp hmem))
      (by rw [List.append_nil]; exact hpositions.nodup_iff.mpr List.nodup_range)
      (by
        rw [hpositions.length_eq, List.length_range]
        simp only [assign, List.length_replicate, List.length_nil, Nat.pow_succ]
        omega)
    obtain rfl : index' = index'' := Option.some.inj (hfold.symm.trans hfold')
    rw [hlength']
    exact List.length_replicate
  refine ⟨index', ?_, hindexes, ?_⟩
  · rw [grow, hlength, ← Nat.pow_succ]
    exact hfold
  · rw [hslots, Nat.pow_succ]
    omega

/-- A key that is new is stored at the position that its entry will have. -/
theorem indexes_append {stored : List Nat} {key : Bytes} {slot : Nat}
    (hholds : Holds platform keys index stored) (hperm : stored.Perm (List.range keys.length))
    (hfree : FirstFree index.slots index.mask (platform.keyHash key) slot)
    (hnew : key ∉ keys) (hroom : (keys.length + 1) * 2 ≤ index.slots.length) :
    Indexes platform (keys ++ [key]) { index with
      slots := index.slots.set slot (keys.length + 1)
      count := index.count + 1 } := by
  have hsame : ∀ pos ∈ stored, (keys ++ [key])[pos]? = keys[pos]? := by
    intro pos hmem
    exact List.getElem?_append_left (List.mem_range.mp (hperm.mem_iff.mp hmem))
  have hlength : stored.length = keys.length := by rw [hperm.length_eq, List.length_range]
  refine ⟨keys.length :: stored, ⟨?_, ?_⟩, ?_, ?_, ?_⟩
  · refine (hholds.valid.congr hsame).insert hfree (by simp) ?_
    intro other hmem hother
    rw [hsame other hmem] at hother
    exact hnew (List.mem_of_getElem? hother)
  · simp [hholds.count]
  · rw [List.length_append, List.length_singleton, List.range_succ]
    exact (List.Perm.cons _ hperm).trans (List.perm_append_singleton _ _).symm
  · simp only [List.length_cons, List.length_set]
    omega
  · simp only [List.length_set]
    omega

/-- `find_or_insert` returns the position of the key, or the number of keys for a new key, and leaves
an index of the keys with this key. -/
theorem findOrInsert_spec (hkeys : keys.Nodup) (h : Indexes platform keys index) (key : Bytes) :
    ∃ index', findOrInsert platform keys key index = some (keys.findIdx (· = key), index') ∧
      Indexes platform (if key ∈ keys then keys else keys ++ [key]) index' := by
  obtain ⟨stored, hholds, hperm, hload, hpos⟩ := h
  by_cases hmem : key ∈ keys
  · have hlt : keys.findIdx (· = key) < keys.length :=
      List.findIdx_lt_length_of_exists ⟨key, hmem, by simp⟩
    have hget := getElem?_findIdx hmem
    have hstored : keys.findIdx (· = key) ∈ stored :=
      hperm.mem_iff.mpr (List.mem_range.mpr hlt)
    refine ⟨index, ?_, ?_⟩
    · rw [findOrInsert, home_eq, hholds.valid.walk_found hstored hget]
      rfl
    · rw [if_pos hmem]
      exact ⟨stored, hholds, hperm, hload, hpos⟩
  · have hfind := findIdx_of_not_mem hmem
    have hnone : ∀ {stored : List Nat}, ∀ pos ∈ stored, keys[pos]? ≠ some key :=
      fun pos _ hget => hmem (List.mem_of_getElem? hget)
    have hlength : stored.length = keys.length := by rw [hperm.length_eq, List.length_range]
    obtain ⟨slot, hfree⟩ := hholds.valid.exists_firstFree (by omega) (platform.keyHash key)
    have hwalk := hholds.valid.walk_free hfree hnone
    by_cases hgrow : index.slots.length < (index.count + 1) * 2
    · obtain ⟨index', hgrown, ⟨stored', hholds', hperm', hload', hpos'⟩, hroom⟩ :=
        grow_spec hkeys ⟨stored, hholds, hperm, hload, hpos⟩
      have hlength' : stored'.length = keys.length := by rw [hperm'.length_eq, List.length_range]
      obtain ⟨slot', hfree'⟩ := hholds'.valid.exists_firstFree (by omega) (platform.keyHash key)
      refine ⟨⟨index'.slots.set slot' (keys.length + 1), index'.mask, index'.count + 1⟩, ?_, ?_⟩
      · rw [findOrInsert, home_eq, hwalk, hfind]
        simp only [Option.bind_eq_bind, Option.bind_some, if_pos hgrow, hgrown, home_eq,
          hholds'.valid.walkFree_eq hfree']
      · rw [if_neg hmem]
        exact indexes_append hholds' hperm' hfree' hmem hroom
    · refine ⟨⟨index.slots.set slot (keys.length + 1), index.mask, index.count + 1⟩, ?_, ?_⟩
      · rw [findOrInsert, home_eq, hwalk, hfind]
        simp only [Option.bind_eq_bind, Option.bind_some, if_neg hgrow]
      · rw [if_neg hmem]
        have hcount := hholds.count
        exact indexes_append hholds hperm hfree hmem (by omega)

end PjhJson.KeyIndex
