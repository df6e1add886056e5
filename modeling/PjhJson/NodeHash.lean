import PjhJson.NodeEqual

/-! `std::hash<Json>`: trees with the same code have the same hash. -/

namespace PjhJson

/-- `splitmix64`. -/
def splitmix64 (x : UInt64) : UInt64 :=
  let x := x + 0x9e3779b97f4a7c15
  let x := (x ^^^ (x >>> 30)) * 0xbf58476d1ce4e5b9
  let x := (x ^^^ (x >>> 27)) * 0x94d049bb133111eb
  x ^^^ (x >>> 31)

/-- `fnv1a64`. -/
def fnv1a64 (s : Bytes) : UInt64 :=
  s.foldl (fun h c => (h ^^^ c.toUInt64) * 0x100000001b3) 0xcbf29ce484222325

namespace Node

/-- The bits of a double, those of `-0.0` folded to those of `+0.0`. -/
def foldZero (d : Double) : UInt64 :=
  let bits : UInt64 := ⟨d.bits⟩
  if bits = 0x8000000000000000 then 0 else bits

/-- What an entry adds to the hash of its object, given the hash of its value. -/
def hashEntry (key : Bytes) (value : UInt64) : UInt64 :=
  splitmix64 (fnv1a64 key ^^^ (value + 0x9e3779b97f4a7c15))

mutual

/-- `hash64`. -/
def hash64 : Node → UInt64
  | null => splitmix64 0
  | boolean value => splitmix64 1 ^^^ (if value then 1 else 0)
  | integer value => splitmix64 2 ^^^ value.toUInt64
  | floating value => splitmix64 3 ^^^ foldZero value
  | stringView text => splitmix64 4 ^^^ fnv1a64 text
  | stringOwned text => splitmix64 4 ^^^ fnv1a64 text
  | array elements => hashElements (splitmix64 5) elements
  | object { data, .. } => hashEntries (splitmix64 6) data

/-- The ordered fold over the elements of an array. -/
def hashElements (h : UInt64) : List Node → UInt64
  | [] => h
  | value :: rest => hashElements (splitmix64 (h ^^^ value.hash64)) rest

/-- The commutative fold over the entries of an object. -/
def hashEntries (h : UInt64) : List (Bytes × Node) → UInt64
  | [] => h
  | (key, value) :: rest => hashEntries (h + hashEntry key value.hash64) rest

end

theorem hashElements_eq (h : UInt64) (elements : List Node) :
    hashElements h elements = (elements.map hash64).foldl (fun h x => splitmix64 (h ^^^ x)) h := by
  induction elements generalizing h with
  | nil => rfl
  | cons value rest ih => rw [hashElements, ih, List.map_cons, List.foldl_cons]

theorem hashEntries_eq (h : UInt64) (entries : List (Bytes × Node)) :
    hashEntries h entries =
      (entries.map fun entry => hashEntry entry.1 entry.2.hash64).foldl (· + ·) h := by
  induction entries generalizing h with
  | nil => rfl
  | cons entry rest ih => rw [hashEntries, ih, List.map_cons, List.foldl_cons]

/-- The fold over the entries does not depend on their order. -/
theorem hashEntries_perm {entries entries' : List (Bytes × Node)} (h : UInt64)
    (hperm : entries.Perm entries') : hashEntries h entries = hashEntries h entries' := by
  rw [hashEntries_eq, hashEntries_eq]
  refine List.Perm.foldl_eq' (hperm.map _) (fun x _ y _ z => ?_) h
  rw [UInt64.add_assoc, UInt64.add_comm x y, ← UInt64.add_assoc]

theorem foldZero_of_code {x y : Double} (h : (floating x).code = (floating y).code)
    (hx : x.isNaN = false) (hy : y.isNaN = false) : foldZero x = foldZero y := by
  have hlt := x.bits.isLt
  have hlt' := y.bits.isLt
  rw [code, code, hx, hy] at h
  simp only [Bool.false_eq_true, if_false, List.cons.injEq, and_true, true_and, Double.order,
    Double.magnitude] at h
  have hbits : ∀ d : Double, (foldZero d).toNat =
      if d.bits.toNat = 2 ^ 63 then 0 else d.bits.toNat := by
    intro d
    have hiff : (⟨d.bits⟩ : UInt64) = 0x8000000000000000 ↔ d.bits.toNat = 2 ^ 63 := by
      rw [← UInt64.toNat_inj]
      rfl
    rw [foldZero]
    by_cases hzero : d.bits.toNat = 2 ^ 63
    · rw [if_pos hzero, if_pos (hiff.mpr hzero)]
      rfl
    · rw [if_neg hzero, if_neg (mt hiff.mp hzero)]
      rfl
  apply UInt64.toNat_inj.mp
  rw [hbits, hbits]
  split at h <;> split at h <;> split <;> split <;> omega

/-- Entries with the same keys and codes, one by one, add the same to the hash. -/
theorem forall₂_of_map_eq {α β γ : Type} {f : α → γ} {g : β → γ} {xs : List α} {ys : List β}
    (h : xs.map f = ys.map g) : List.Forall₂ (fun x y => f x = g y) xs ys := by
  induction xs generalizing ys with
  | nil => cases ys with
    | nil => exact .nil
    | cons y ys => cases h
  | cons x xs ih =>
      cases ys with
      | nil => cases h
      | cons y ys =>
          rw [List.map_cons, List.map_cons, List.cons.injEq] at h
          exact .cons h.1 (ih h.2)

theorem map_eq_of_forall₂ {α β γ : Type} {R : α → β → Prop} {f : α → γ} {g : β → γ} {xs : List α}
    {ys : List β} (h : List.Forall₂ R xs ys)
    (himp : ∀ x ∈ xs, ∀ y ∈ ys, R x y → f x = g y) : xs.map f = ys.map g := by
  induction h with
  | nil => rfl
  | cons hxy _ ih =>
      rw [List.map_cons, List.map_cons, himp _ List.mem_cons_self _ List.mem_cons_self hxy,
        ih fun x hx y hy => himp x (List.mem_cons_of_mem _ hx) y (List.mem_cons_of_mem _ hy)]

/-- Objects with the same code have, in sorted order, the same keys and values of the same codes. -/
theorem sorted_of_code {self other : Object Node} (h : (object self).code = (object other).code) :
    List.Forall₂ (fun p q => p.1 = q.1 ∧ p.2.code = q.2.code) (sortByKey self.data)
      (sortByKey other.data) := by
  have hsorted := (code_object_iff self other).mp h
  rw [codes, codes, sortByKey_map, sortByKey_map] at hsorted
  exact (forall₂_of_map_eq hsorted).imp fun p q hpq => Prod.mk.inj hpq

theorem code_array_iff {xs ys : List Node} :
    (array xs).code = (array ys).code ↔ xs.map code = ys.map code := by
  rw [code_array, code_array, List.cons.injEq, codeList_code, eq_self, true_and]

theorem rank_of_code {a b : Node} (h : a.code = b.code) : a.rank = b.rank := by
  by_contra hne
  exact code_ne_of_rank hne h

theorem noNaN_array {elements : List Node} (h : (array elements).NoNaN) :
    ∀ value ∈ elements, value.NoNaN := (all_array.mp h).2

theorem noNaN_object {self : Object Node} (h : (object self).NoNaN) :
    ∀ entry ∈ self.data, entry.2.NoNaN := (all_object.mp h).2

/-- Trees with the same code have the same hash. -/
theorem hash_of_code {a b : Node} (ha : a.NoNaN) (hb : b.NoNaN) (h : a.code = b.code) :
    a.hash64 = b.hash64 := by
  induction a using Node.induct generalizing b with
  | null => cases b with
    | null => rfl
    | _ => exact absurd (rank_of_code h) (by simp [rank])
  | boolean x => cases b with
    | boolean y => cases x <;> cases y <;> simp_all [code]
    | _ => exact absurd (rank_of_code h) (by simp [rank])
  | integer x => cases b with
    | integer y =>
        rw [code, code] at h
        rw [Int64.toInt_inj.mp (List.cons.inj (List.cons.inj h).2).1]
    | _ => exact absurd (rank_of_code h) (by simp [rank])
  | floating x => cases b with
    | floating y => rw [hash64, hash64, foldZero_of_code h ha hb]
    | _ => exact absurd (rank_of_code h) (by simp [rank])
  | stringView s => cases b with
    | stringView t => rw [hash64, hash64, codeBytes_inj.mp (List.cons.inj h).2]
    | stringOwned t => rw [hash64, hash64, codeBytes_inj.mp (List.cons.inj h).2]
    | _ => exact absurd (rank_of_code h) (by simp [rank])
  | stringOwned s => cases b with
    | stringView t => rw [hash64, hash64, codeBytes_inj.mp (List.cons.inj h).2]
    | stringOwned t => rw [hash64, hash64, codeBytes_inj.mp (List.cons.inj h).2]
    | _ => exact absurd (rank_of_code h) (by simp [rank])
  | array xs ih => cases b with
    | array ys =>
        rw [hash64, hash64, hashElements_eq, hashElements_eq]
        congr 1
        refine map_eq_of_forall₂ (forall₂_of_map_eq (code_array_iff.mp h)) fun x hx y hy hxy => ?_
        exact ih x hx (noNaN_array ha x hx) (noNaN_array hb y hy) hxy
    | _ => exact absurd (rank_of_code h) (by simp [rank])
  | object self ih => cases b with
    | object other =>
        have hsorted := sorted_of_code h
        obtain ⟨data, index, resource⟩ := self
        obtain ⟨data', index', resource'⟩ := other
        rw [hash64, hash64, ← hashEntries_perm _ (List.mergeSort_perm data _),
          ← hashEntries_perm _ (List.mergeSort_perm data' _), hashEntries_eq, hashEntries_eq]
        congr 1
        refine map_eq_of_forall₂ hsorted fun p hp q hq hpq => ?_
        have hp' := mem_sortByKey.mp hp
        have hq' := mem_sortByKey.mp hq
        rw [hpq.1, ih p hp' (noNaN_object ha p hp') (noNaN_object hb q hq') hpq.2]
    | _ => exact absurd (rank_of_code h) (by simp [rank])

end Node
end PjhJson
