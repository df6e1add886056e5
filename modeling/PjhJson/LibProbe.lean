import Mathlib

/-! Open addressing with linear probing. A table is an array of slots whose length is a power of
two; a slot holds 0 when it is free and otherwise one more than the position of an entry, whose key
is looked up in the entries themselves. `Valid` is the invariant that makes the walk from a key's
home slot find the entry of that key, or a free slot when there is none. -/

namespace Probe

variable {κ : Type}

/-- How a walk ends: at the position of an entry with the key, or at a free slot. -/
inductive Outcome where
  | found (pos : Nat)
  | free (slot : Nat)
  deriving DecidableEq, Repr

/-- The walk that compares keys. It has no outcome when it reads outside the slots or the entries,
or meets no free slot within `fuel` slots. -/
def walk [DecidableEq κ] (keyAt : Nat → Option κ) (key : κ) (slots : List Nat) (mask : Nat) :
    Nat → Nat → Option Outcome
  | 0, _ => none
  | fuel + 1, slot =>
    match slots[slot]? with
    | none => none
    | some 0 => some (.free slot)
    | some (pos + 1) =>
      match keyAt pos with
      | none => none
      | some other =>
        if other = key then some (.found pos)
        else walk keyAt key slots mask fuel ((slot + 1) &&& mask)

/-- The walk to the first free slot. -/
def walkFree (slots : List Nat) (mask : Nat) : Nat → Nat → Option Nat
  | 0, _ => none
  | fuel + 1, slot =>
    match slots[slot]? with
    | none => none
    | some 0 => some slot
    | some (_ + 1) => walkFree slots mask fuel ((slot + 1) &&& mask)

/-- Double `capacity` until it reaches `target`. -/
def doubleUntil (target : Nat) : Nat → Nat → Nat
  | 0, capacity => capacity
  | fuel + 1, capacity =>
    if capacity < target then doubleUntil target fuel (capacity * 2) else capacity

/-- The slot `steps` slots after `home`, cyclically. -/
def slotAt (mask home steps : Nat) : Nat := (home + steps) &&& mask

/-- The slots that a walk from `home` passes in its first `steps` steps are all occupied. -/
def Occupied (slots : List Nat) (mask home steps : Nat) : Prop :=
  ∀ j < steps, ∃ pos, slots[slotAt mask home j]? = some (pos + 1)

/-- `slot` is the first free slot on the walk from `home`. -/
def FirstFree (slots : List Nat) (mask home slot : Nat) : Prop :=
  slots[slot]? = some 0 ∧
    ∃ steps < slots.length, slot = slotAt mask home steps ∧ Occupied slots mask home steps

/-- The table holds exactly the positions `stored`, whose keys are pairwise different, and each of
them is reached by the walk from its key's home slot. -/
structure Valid (keyAt : Nat → Option κ) (home : κ → Nat) (slots : List Nat) (mask : Nat)
    (stored : List Nat) : Prop where
  size : ∃ k, slots.length = 2 ^ k ∧ mask = 2 ^ k - 1
  count : slots.countP (· ≠ 0) = stored.length
  nodup : stored.Nodup
  sound : ∀ (slot pos : Nat), slots[slot]? = some (pos + 1) → pos ∈ stored
  distinct : ∀ pos ∈ stored, ∀ other ∈ stored, keyAt pos = keyAt other → pos = other
  reach : ∀ pos ∈ stored, ∃ key, keyAt pos = some key ∧ ∃ steps < slots.length,
    slots[slotAt mask (home key) steps]? = some (pos + 1) ∧ Occupied slots mask (home key) steps

/-- The first position of a key holds the key. -/
theorem getElem?_findIdx [DecidableEq κ] {keys : List κ} {key : κ} (hmem : key ∈ keys) :
    keys[keys.findIdx (· = key)]? = some key := by
  have hlt : keys.findIdx (· = key) < keys.length :=
    List.findIdx_lt_length_of_exists ⟨key, hmem, by simp⟩
  rw [List.getElem?_eq_getElem hlt]
  exact congrArg some (by simpa using List.findIdx_getElem (p := (· = key)) (w := hlt))

/-- A key that does not occur has no first position. -/
theorem findIdx_of_not_mem [DecidableEq κ] {keys : List κ} {key : κ} (hmem : key ∉ keys) :
    keys.findIdx (· = key) = keys.length :=
  List.findIdx_eq_length.mpr fun other hother => by
    simpa using fun heq : other = key => hmem (heq ▸ hother)

/-! ### Arithmetic of the mask -/

/-- As many doublings as the target has units reach it, and a power of two stays one. -/
theorem doubleUntil_spec (target : Nat) {fuel k : Nat} (hfuel : target ≤ fuel + 2 ^ k) :
    ∃ k', doubleUntil target fuel (2 ^ k) = 2 ^ k' ∧ target ≤ 2 ^ k' ∧ k ≤ k' := by
  induction fuel generalizing k with
  | zero => exact ⟨k, rfl, by omega, Nat.le_refl k⟩
  | succ fuel ih =>
      rw [doubleUntil]
      by_cases hlt : 2 ^ k < target
      · have hpos : 0 < 2 ^ k := Nat.two_pow_pos k
        obtain ⟨k', hk', hle, hk⟩ := ih (k := k + 1) (by rw [Nat.pow_succ]; omega)
        exact ⟨k', by rw [if_pos hlt, ← Nat.pow_succ, hk'], hle, by omega⟩
      · exact ⟨k, if_neg hlt, by omega, Nat.le_refl k⟩

/-- The doubling stops at the first power of two that reaches the target. -/
theorem doubleUntil_le {target k m : Nat} (fuel : Nat) (htarget : target ≤ 2 ^ m) (hk : k ≤ m) :
    doubleUntil target fuel (2 ^ k) ≤ 2 ^ m := by
  induction fuel generalizing k with
  | zero => exact Nat.pow_le_pow_right (by decide) hk
  | succ fuel ih =>
      rw [doubleUntil]
      by_cases hlt : 2 ^ k < target
      · have hkm : k < m := (Nat.pow_lt_pow_iff_right (by decide)).mp (hlt.trans_le htarget)
        rw [if_pos hlt, ← Nat.pow_succ]
        exact ih hkm
      · rw [if_neg hlt]
        exact Nat.pow_le_pow_right (by decide) hk

theorem and_mask {k x : Nat} : x &&& (2 ^ k - 1) = x % 2 ^ k := Nat.and_two_pow_sub_one_eq_mod x k

theorem slotAt_eq_mod (k home steps : Nat) : slotAt (2 ^ k - 1) home steps = (home + steps) % 2 ^ k :=
  and_mask

theorem slotAt_succ (k home steps : Nat) :
    (slotAt (2 ^ k - 1) home steps + 1) &&& (2 ^ k - 1) = slotAt (2 ^ k - 1) home (steps + 1) := by
  rw [slotAt_eq_mod, slotAt_eq_mod, and_mask, Nat.mod_add_mod, Nat.add_assoc]

/-- Every slot is met on the walk from any home slot. -/
theorem exists_steps (k home : Nat) {slot : Nat} (hslot : slot < 2 ^ k) :
    ∃ steps < 2 ^ k, slotAt (2 ^ k - 1) home steps = slot := by
  have hpos : 0 < 2 ^ k := Nat.two_pow_pos k
  have hlt : home % 2 ^ k < 2 ^ k := Nat.mod_lt _ hpos
  refine ⟨(slot + (2 ^ k - home % 2 ^ k)) % 2 ^ k, Nat.mod_lt _ hpos, ?_⟩
  have hsum : home % 2 ^ k + (slot + (2 ^ k - home % 2 ^ k)) = slot + 2 ^ k := by omega
  rw [slotAt_eq_mod, Nat.add_mod_mod, ← Nat.mod_add_mod, hsum, Nat.add_mod_right,
    Nat.mod_eq_of_lt hslot]

namespace Valid

variable {keyAt : Nat → Option κ} {home : κ → Nat} {slots : List Nat} {mask : Nat}
  {stored : List Nat}

theorem slotAt_lt (h : Valid keyAt home slots mask stored) (start steps : Nat) :
    slotAt mask start steps < slots.length := by
  obtain ⟨k, hlen, rfl⟩ := h.size
  rw [slotAt_eq_mod, hlen]
  exact Nat.mod_lt _ (Nat.two_pow_pos k)

/-- While fewer positions are stored than there are slots, every walk meets a free slot. -/
theorem exists_firstFree (h : Valid keyAt home slots mask stored)
    (hroom : stored.length < slots.length) (start : Nat) :
    ∃ slot, FirstFree slots mask start slot := by
  obtain ⟨k, hlen, hmask⟩ := h.size
  have hfree : ∃ slot < slots.length, slots[slot]? = some 0 := by
    by_contra hnone
    push Not at hnone
    have hall : slots.countP (· ≠ 0) = slots.length := by
      rw [List.countP_eq_length]
      intro stored hmem
      obtain ⟨slot, hslot, hget⟩ := List.getElem_of_mem hmem
      have := hnone slot hslot
      rw [List.getElem?_eq_getElem hslot, hget] at this
      simpa using this
    have := h.count
    omega
  have hstep : ∃ steps, slots[slotAt mask start steps]? = some 0 := by
    obtain ⟨slot, hslot, hget⟩ := hfree
    obtain ⟨steps, _, hat⟩ := exists_steps k start (hlen ▸ hslot)
    exact ⟨steps, by rw [hmask, hat, hget]⟩
  classical
  have hfirst := Nat.find_spec hstep
  have hmin : ∀ j < Nat.find hstep, ∃ pos, slots[slotAt mask start j]? = some (pos + 1) := by
    intro j hj
    have hne := Nat.find_min hstep hj
    have hlt := h.slotAt_lt start j
    rw [List.getElem?_eq_getElem hlt] at hne ⊢
    cases hcell : slots[slotAt mask start j] with
    | zero => rw [hcell] at hne; exact absurd rfl hne
    | succ pos => exact ⟨pos, rfl⟩
  refine ⟨slotAt mask start (Nat.find hstep), hfirst, Nat.find hstep, ?_, rfl, hmin⟩
  -- a free slot lies within one turn, and the first one is not after it
  obtain ⟨slot, hslot, hget⟩ := hfree
  obtain ⟨steps, hsteps, hat⟩ := exists_steps k start (hlen ▸ hslot)
  have hle : Nat.find hstep ≤ steps := Nat.find_min' hstep (by rw [hmask, hat, hget])
  omega

/-- The comparing walk passes the occupied slots whose keys are different. -/
theorem walk_skip [DecidableEq κ] (h : Valid keyAt home slots mask stored) {key : κ} {start : Nat}
    (steps fuel : Nat)
    (hpass : ∀ j < steps, ∃ pos other, slots[slotAt mask start j]? = some (pos + 1) ∧
      keyAt pos = some other ∧ other ≠ key) :
    walk keyAt key slots mask (steps + fuel) (slotAt mask start 0) =
      walk keyAt key slots mask fuel (slotAt mask start steps) := by
  induction steps generalizing fuel with
  | zero => rw [Nat.zero_add]
  | succ steps ih =>
      obtain ⟨k, _, hmask⟩ := h.size
      obtain ⟨pos, other, hget, hkey, hne⟩ := hpass steps (by omega)
      have hbefore := ih (fuel + 1) fun j hj => hpass j (by omega)
      rw [show steps + 1 + fuel = steps + (fuel + 1) by omega, hbefore, walk, hget]
      simp only [hkey, if_neg hne]
      rw [hmask, slotAt_succ]

theorem walkFree_skip (h : Valid keyAt home slots mask stored) {start : Nat} (steps fuel : Nat)
    (hpass : Occupied slots mask start steps) :
    walkFree slots mask (steps + fuel) (slotAt mask start 0) =
      walkFree slots mask fuel (slotAt mask start steps) := by
  induction steps generalizing fuel with
  | zero => rw [Nat.zero_add]
  | succ steps ih =>
      obtain ⟨k, _, hmask⟩ := h.size
      obtain ⟨pos, hget⟩ := hpass steps (by omega)
      have hbefore := ih (fuel + 1) fun j hj => hpass j (by omega)
      rw [show steps + 1 + fuel = steps + (fuel + 1) by omega, hbefore, walkFree, hget]
      simp only
      rw [hmask, slotAt_succ]

/-- On occupied slots the walk for `key` goes past every position but the one of `key`. -/
theorem pass_of_occupied (h : Valid keyAt home slots mask stored) {key : κ} {start steps : Nat}
    (hocc : Occupied slots mask start steps)
    (hkey : ∀ j < steps, ∀ pos, slots[slotAt mask start j]? = some (pos + 1) →
      keyAt pos ≠ some key) :
    ∀ j < steps, ∃ pos other, slots[slotAt mask start j]? = some (pos + 1) ∧
      keyAt pos = some other ∧ other ≠ key := by
  intro j hj
  obtain ⟨pos, hget⟩ := hocc j hj
  obtain ⟨other, hother, _⟩ := h.reach pos (h.sound _ pos hget)
  refine ⟨pos, other, hget, hother, ?_⟩
  rintro rfl
  exact hkey j hj pos hget hother

/-- A stored key is found. -/
theorem walk_found [DecidableEq κ] (h : Valid keyAt home slots mask stored) {key : κ} {pos : Nat}
    (hmem : pos ∈ stored) (hkey : keyAt pos = some key) :
    walk keyAt key slots mask slots.length (slotAt mask (home key) 0) = some (.found pos) := by
  obtain ⟨key', hkey', steps, hsteps, hget, hocc⟩ := h.reach pos hmem
  obtain rfl : key = key' := by rw [hkey] at hkey'; exact Option.some.inj hkey'
  -- take the first slot on the walk that holds `pos`
  classical
  have hfirst : ∃ j, slots[slotAt mask (home key) j]? = some (pos + 1) := ⟨steps, hget⟩
  have hle : Nat.find hfirst ≤ steps := Nat.find_min' hfirst hget
  have hfind : Occupied slots mask (home key) (Nat.find hfirst) := fun j hj => hocc j (by omega)
  have hpass := h.pass_of_occupied hfind (by
      intro j hj other hother hsame
      have : other = pos := h.distinct other (h.sound _ _ hother) pos hmem (by rw [hsame, hkey])
      subst this
      exact Nat.find_min hfirst hj hother)
  have hskip := h.walk_skip (Nat.find hfirst) (slots.length - Nat.find hfirst) hpass
  rw [show Nat.find hfirst + (slots.length - Nat.find hfirst) = slots.length by omega] at hskip
  rw [hskip, show slots.length - Nat.find hfirst = slots.length - Nat.find hfirst - 1 + 1 by omega,
    walk, Nat.find_spec hfirst]
  simp only [hkey, if_pos]

/-- The walk for a key that is not stored ends at the first free slot. -/
theorem walk_free [DecidableEq κ] (h : Valid keyAt home slots mask stored) {key : κ} {slot : Nat}
    (hfree : FirstFree slots mask (home key) slot) (hkey : ∀ pos ∈ stored, keyAt pos ≠ some key) :
    walk keyAt key slots mask slots.length (slotAt mask (home key) 0) = some (.free slot) := by
  obtain ⟨hget, steps, hsteps, rfl, hocc⟩ := hfree
  have hpass := h.pass_of_occupied hocc fun j _ pos hpos => hkey pos (h.sound _ pos hpos)
  have hskip := h.walk_skip steps (slots.length - steps) hpass
  rw [show steps + (slots.length - steps) = slots.length by omega] at hskip
  rw [hskip, show slots.length - steps = slots.length - steps - 1 + 1 by omega, walk, hget]

theorem walkFree_eq (h : Valid keyAt home slots mask stored) {start slot : Nat}
    (hfree : FirstFree slots mask start slot) :
    walkFree slots mask slots.length (slotAt mask start 0) = some slot := by
  obtain ⟨hget, steps, hsteps, rfl, hocc⟩ := hfree
  have hskip := h.walkFree_skip steps (slots.length - steps) hocc
  rw [show steps + (slots.length - steps) = slots.length by omega] at hskip
  rw [hskip, show slots.length - steps = slots.length - steps - 1 + 1 by omega, walkFree, hget]

/-- Storing a new position in the first free slot of its key keeps the invariant. -/
theorem insert (h : Valid keyAt home slots mask stored) {key : κ} {pos slot : Nat}
    (hfree : FirstFree slots mask (home key) slot) (hpos : keyAt pos = some key)
    (hkey : ∀ other ∈ stored, keyAt other ≠ some key) :
    Valid keyAt home (slots.set slot (pos + 1)) mask (pos :: stored) := by
  obtain ⟨hget, steps, hsteps, hslot, hocc⟩ := hfree
  have hlt : slot < slots.length := by
    rw [hslot]
    exact h.slotAt_lt _ _
  have hkeep : ∀ {other value : Nat}, slots[other]? = some (value + 1) →
      (slots.set slot (pos + 1))[other]? = some (value + 1) := by
    intro other value hvalue
    have hne : slot ≠ other := by
      rintro rfl
      rw [hget] at hvalue
      simp at hvalue
    rw [List.getElem?_set_ne hne, hvalue]
  have hoccupied : ∀ {start n : Nat}, Occupied slots mask start n →
      Occupied (slots.set slot (pos + 1)) mask start n := by
    intro start n hn j hj
    obtain ⟨other, hother⟩ := hn j hj
    exact ⟨other, hkeep hother⟩
  constructor
  · obtain ⟨k, hlen, hmask⟩ := h.size
    exact ⟨k, by rw [List.length_set, hlen], hmask⟩
  · have hzero : slots[slot] = 0 := by
      rw [List.getElem?_eq_getElem hlt] at hget
      exact Option.some.inj hget
    rw [List.countP_set hlt, hzero, h.count]
    simp
  · refine List.nodup_cons.mpr ⟨fun hmem => hkey pos hmem hpos, h.nodup⟩
  · intro other value hvalue
    by_cases hne : slot = other
    · subst hne
      rw [List.getElem?_set_self hlt] at hvalue
      obtain rfl : pos = value := by simpa using hvalue
      exact List.mem_cons_self
    · rw [List.getElem?_set_ne hne] at hvalue
      exact List.mem_cons_of_mem _ (h.sound other value hvalue)
  · intro a ha b hb hab
    rcases List.mem_cons.mp ha with ha' | ha' <;> rcases List.mem_cons.mp hb with hb' | hb'
    · rw [ha', hb']
    · exact absurd (by rw [← hab, ha', hpos]) (hkey b hb')
    · exact absurd (by rw [hab, hb', hpos]) (hkey a ha')
    · exact h.distinct a ha' b hb' hab
  · intro other hmem
    rcases List.mem_cons.mp hmem with rfl | hmem
    · refine ⟨key, hpos, steps, by rwa [List.length_set], ?_, hoccupied hocc⟩
      rw [← hslot, List.getElem?_set_self hlt]
    · obtain ⟨key', hkey', n, hn, hstored, hn'⟩ := h.reach other hmem
      exact ⟨key', hkey', n, by rwa [List.length_set], hkeep hstored, hoccupied hn'⟩

/-- The invariant speaks of the keys of the stored positions only. -/
theorem congr (h : Valid keyAt home slots mask stored) {keyAt' : Nat → Option κ}
    (hsame : ∀ pos ∈ stored, keyAt' pos = keyAt pos) : Valid keyAt' home slots mask stored where
  size := h.size
  count := h.count
  nodup := h.nodup
  sound := h.sound
  distinct pos hpos other hother heq :=
    h.distinct pos hpos other hother (by rw [← hsame pos hpos, heq, hsame other hother])
  reach pos hpos := by
    obtain ⟨key, hkey, hreach⟩ := h.reach pos hpos
    exact ⟨key, by rw [hsame pos hpos, hkey], hreach⟩

/-- The positions in the slots, read off slot by slot, are the stored ones. -/
theorem positions_perm (h : Valid keyAt home slots mask stored) :
    ((slots.filter (· ≠ 0)).map (· - 1)).Perm stored := by
  have hsubset : stored ⊆ (slots.filter (· ≠ 0)).map (· - 1) := by
    intro pos hmem
    obtain ⟨_, _, steps, _, hget, _⟩ := h.reach pos hmem
    refine List.mem_map.mpr ⟨pos + 1, List.mem_filter.mpr ⟨List.mem_of_getElem? hget, ?_⟩, rfl⟩
    simp
  refine ((h.nodup.subperm hsubset).perm_of_length_le ?_).symm
  rw [List.length_map, ← h.count, List.countP_eq_length_filter]

end Valid

/-- A table of free slots stores nothing. -/
theorem valid_replicate (keyAt : Nat → Option κ) (home : κ → Nat) (k : Nat) :
    Valid keyAt home (List.replicate (2 ^ k) 0) (2 ^ k - 1) [] where
  size := ⟨k, List.length_replicate, rfl⟩
  count := by
    rw [List.length_nil, List.countP_eq_zero]
    intro value hmem
    rw [List.eq_of_mem_replicate hmem]
    simp
  nodup := List.nodup_nil
  sound slot pos h := by
    rw [List.getElem?_replicate] at h
    split at h <;> simp at h
  distinct pos hpos := absurd hpos List.not_mem_nil
  reach pos hpos := absurd hpos List.not_mem_nil

end Probe
