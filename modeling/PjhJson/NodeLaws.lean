import PjhJson.NodeHash

/-! The laws of `operator<`, `operator==` and `std::hash` on trees without repeated keys. The
ordering has no limits. The equality builds lookup indexes, whose slots are counted in 32 bits: its
laws hold exactly for the trees whose objects have at most `2 ^ 30` entries. -/

namespace PjhJson.Node

/-! ### Trees with the same code -/

theorem exists_of_forall₂ {α β : Type} {R : α → β → Prop} {xs : List α} {ys : List β}
    (h : List.Forall₂ R xs ys) : ∀ y ∈ ys, ∃ x ∈ xs, R x y := by
  induction h with
  | nil => exact fun _ hmem => absurd hmem List.not_mem_nil
  | cons hxy _ ih =>
      rw [List.forall_mem_cons]
      refine ⟨⟨_, List.mem_cons_self, hxy⟩, fun y hy => ?_⟩
      obtain ⟨x, hx, hR⟩ := ih y hy
      exact ⟨x, List.mem_cons_of_mem _ hx, hR⟩

/-- Objects with the same code have the same number of entries. -/
theorem length_of_code {self other : Object Node} (h : (object self).code = (object other).code) :
    other.keys.length = self.keys.length := by
  have hlength := (sorted_of_code h).length_eq
  rw [sortByKey, sortByKey, List.length_mergeSort, List.length_mergeSort] at hlength
  rw [length_keys, length_keys, hlength]

theorem indexable_of_code {a b : Node} (h : a.code = b.code) (ha : a.Indexable) : b.Indexable := by
  induction a using Node.induct generalizing b with
  | array xs ih => cases b with
    | array ys =>
        refine all_array.mpr ⟨trivial, fun y hy => ?_⟩
        obtain ⟨x, hx, hxy⟩ := exists_of_forall₂ (forall₂_of_map_eq (code_array_iff.mp h)) y hy
        exact ih x hx hxy ((all_array.mp ha).2 x hx)
    | _ => exact absurd (rank_of_code h) (by simp [rank])
  | object self ih => cases b with
    | object other =>
        refine all_object.mpr ⟨?_, fun q hq => ?_⟩
        · change other.keys.length ≤ Index.kMaxIndexed
          rw [length_of_code h]
          exact (all_object.mp ha).1
        · obtain ⟨p, hp, -, hpq⟩ := exists_of_forall₂ (sorted_of_code h) q (mem_sortByKey.mpr hq)
          exact ih p (mem_sortByKey.mp hp) hpq ((all_object.mp ha).2 p (mem_sortByKey.mp hp))
    | _ => exact absurd (rank_of_code h) (by simp [rank])
  | _ => cases b <;> first | trivial | exact absurd (rank_of_code h) (by simp [rank])

/-! ### Permuted entries -/

/-- The trees that differ in the order of object entries only, at any depth. -/
inductive Permuted : Node → Node → Prop where
  | refl (a : Node) : Permuted a a
  | trans {a b c : Node} : Permuted a b → Permuted b c → Permuted a c
  | entries {self other : Object Node} : self.data.Perm other.data →
      Permuted (object self) (object other)
  | element {x y : Node} (before after : List Node) : Permuted x y →
      Permuted (array (before ++ x :: after)) (array (before ++ y :: after))
  | value {x y : Node} {self other : Object Node} (before after : List (Bytes × Node)) (key : Bytes) :
      self.data = before ++ (key, x) :: after → other.data = before ++ (key, y) :: after →
      Permuted x y → Permuted (object self) (object other)

theorem noDuplicates_object {self : Object Node} : (object self).NoDuplicates ↔
    self.keys.Nodup ∧ ∀ entry ∈ self.data, entry.2.NoDuplicates := by
  rw [NoDuplicates, all_object]
  rfl

theorem noDuplicates_array {elements : List Node} :
    (array elements).NoDuplicates ↔ ∀ value ∈ elements, value.NoDuplicates := by
  rw [NoDuplicates, all_array]
  exact ⟨fun h => h.2, fun h => ⟨trivial, h⟩⟩

theorem plain_object_iff {self : Object Node} : (object self).Plain ↔
    self.keys.Nodup ∧ ∀ entry ∈ self.data, entry.2.Plain := by
  refine ⟨plain_object, fun h => ⟨?_, ?_⟩⟩
  · exact all_object.mpr ⟨h.1, fun entry hmem => (h.2 entry hmem).1⟩
  · exact all_object.mpr ⟨trivial, fun entry hmem => (h.2 entry hmem).2⟩

theorem forall_mem_middle {α : Type} {P : α → Prop} {before after : List α} {x : α} :
    (∀ y ∈ before ++ x :: after, P y) ↔ P x ∧ ∀ y ∈ before ++ after, P y := by
  simp only [List.forall_mem_append, List.forall_mem_cons]
  tauto

/-- The order of entries does not show in the code. -/
theorem Permuted.code {a b : Node} (h : Permuted a b) (ha : a.NoDuplicates) :
    b.NoDuplicates ∧ a.code = b.code := by
  induction h with
  | refl => exact ⟨ha, rfl⟩
  | trans _ _ ih ih' =>
      obtain ⟨hb, hab⟩ := ih ha
      obtain ⟨hc, hbc⟩ := ih' hb
      exact ⟨hc, hab.trans hbc⟩
  | @entries self other hperm =>
      obtain ⟨hnodup, hvalues⟩ := noDuplicates_object.mp ha
      refine ⟨noDuplicates_object.mpr ⟨?_, fun entry hmem => ?_⟩, ?_⟩
      · exact (hperm.map _).nodup_iff.mp hnodup
      · exact hvalues entry (hperm.mem_iff.mpr hmem)
      · rw [code_object_iff]
        refine sortByKey_perm ?_ (hperm.map _)
        rwa [keys_codes]
  | element before after _ ih =>
      rw [noDuplicates_array, forall_mem_middle] at ha
      obtain ⟨hy, hcode⟩ := ih ha.1
      refine ⟨noDuplicates_array.mpr (forall_mem_middle.mpr ⟨hy, ha.2⟩), ?_⟩
      rw [code_array_iff, List.map_append, List.map_append, List.map_cons, List.map_cons, hcode]
  | @value x y self other before after key hself hother _ ih =>
      obtain ⟨hnodup, hvalues⟩ := noDuplicates_object.mp ha
      rw [hself, forall_mem_middle] at hvalues
      obtain ⟨hy, hcode⟩ := ih hvalues.1
      have hcodes : codes self = codes other := by
        rw [codes, codes, hself, hother, List.map_append, List.map_append, List.map_cons,
          List.map_cons, hcode]
      refine ⟨noDuplicates_object.mpr ⟨?_, ?_⟩, ?_⟩
      · rwa [← keys_codes, ← hcodes, keys_codes]
      · rw [hother, forall_mem_middle]
        exact ⟨hy, hvalues.2⟩
      · rw [code_object_iff, hcodes]

/-- A NaN shows in the code. -/
theorem noNaN_of_code {a b : Node} (h : a.code = b.code) (ha : a.NoNaN) : b.NoNaN := by
  induction a using Node.induct generalizing b with
  | array xs ih => cases b with
    | array ys =>
        refine all_array.mpr ⟨trivial, fun y hy => ?_⟩
        obtain ⟨x, hx, hxy⟩ := exists_of_forall₂ (forall₂_of_map_eq (code_array_iff.mp h)) y hy
        exact ih x hx hxy (noNaN_array ha x hx)
    | _ => exact absurd (rank_of_code h) (by simp [rank])
  | object self ih => cases b with
    | object other =>
        refine all_object.mpr ⟨trivial, fun q hq => ?_⟩
        obtain ⟨p, hp, -, hpq⟩ := exists_of_forall₂ (sorted_of_code h) q (mem_sortByKey.mpr hq)
        exact ih p (mem_sortByKey.mp hp) hpq (noNaN_object ha p (mem_sortByKey.mp hp))
    | _ => exact absurd (rank_of_code h) (by simp [rank])
  | floating x => cases b with
    | floating y =>
        have hx : x.isNaN = false := ha
        change y.isNaN = false
        rw [code, code, if_neg (by rw [hx]; exact Bool.false_ne_true)] at h
        by_contra hy
        rw [if_pos (Bool.not_eq_false _ ▸ hy)] at h
        simp at h
    | _ => exact absurd (rank_of_code h) (by simp [rank])
  | _ => cases b <;> first | trivial | exact absurd (rank_of_code h) (by simp [rank])

theorem Permuted.spec {a b : Node} (h : Permuted a b) (ha : a.Plain) :
    b.Plain ∧ a.code = b.code := by
  obtain ⟨hb, hcode⟩ := h.code ha.1
  exact ⟨⟨hb, noNaN_of_code hcode ha.2⟩, hcode⟩

/-! ### Objects too large for an index -/

theorem indexable_array {elements : List Node} :
    (array elements).Indexable ↔ ∀ value ∈ elements, value.Indexable := by
  rw [Indexable, all_array]
  exact ⟨fun h => h.2, fun h => ⟨trivial, h⟩⟩

theorem indexable_object {self : Object Node} : (object self).Indexable ↔
    self.keys.length ≤ Index.kMaxIndexed ∧ ∀ entry ∈ self.data, entry.2.Indexable := by
  rw [Indexable, all_object]
  rfl

/-- The object whose entries `Object::operator==` goes through, and the one that it looks them up in:
the right one, unless only the left one has an index. -/
def scanOrder (this other : Object Node) : Object Node × Object Node :=
  if other.index.isSome || this.index.isNone then (this, other) else (other, this)

/-- Comparing two trees from the left comes to two objects of one size, both without an index and with
more entries than an index has room for. Two elements of arrays are come to when the elements before
them have the same values, and an entry with its counterpart when every entry before it has one of the
same value. -/
inductive Overruns : Node → Node → Prop where
  | objects {this other : Object Node} : this.data.length = other.data.length →
      this.index = none → other.index = none → Index.kMaxIndexed < other.data.length →
      Overruns (object this) (object other)
  | element {xs ys : List Node} {i : Nat} {x y : Node} : xs.length = ys.length →
      xs[i]? = some x → ys[i]? = some y → (xs.take i).map code = (ys.take i).map code →
      Overruns x y → Overruns (array xs) (array ys)
  | value {this other scanned looked : Object Node} {i : Nat} {key : Bytes} {x y : Node} :
      this.data.length = other.data.length → scanOrder this other = (scanned, looked) →
      scanned.data[i]? = some (key, x) → (key, y) ∈ looked.data →
      (∀ k < i, ∀ p, (codes scanned)[k]? = some p → p ∈ codes looked) →
      Overruns y x → Overruns (object this) (object other)

theorem overruns_array {xs ys : List Node} : Overruns (array xs) (array ys) ↔
    xs.length = ys.length ∧ ∃ i x y, xs[i]? = some x ∧ ys[i]? = some y ∧
      (xs.take i).map code = (ys.take i).map code ∧ Overruns x y := by
  constructor
  · intro h
    cases h with
    | element hlength hx hy hbefore h => exact ⟨hlength, _, _, _, hx, hy, hbefore, h⟩
  · rintro ⟨hlength, i, x, y, hx, hy, hbefore, h⟩
    exact .element hlength hx hy hbefore h

/-- Such objects are in both trees. -/
theorem Overruns.large {a b : Node} (h : Overruns a b) : ¬a.Indexable ∧ ¬b.Indexable := by
  induction h with
  | objects hlength _ _ hlarge =>
      rw [indexable_object, indexable_object, length_keys, length_keys, hlength]
      exact ⟨fun h => absurd h.1 (not_le.mpr hlarge), fun h => absurd h.1 (not_le.mpr hlarge)⟩
  | element _ hx hy _ _ ih =>
      rw [indexable_array, indexable_array]
      exact ⟨fun h => ih.1 (h _ (List.mem_of_getElem? hx)),
        fun h => ih.2 (h _ (List.mem_of_getElem? hy))⟩
  | @value this other scanned looked i key x y _ horder hx hy _ _ ih =>
      rw [indexable_object, indexable_object]
      have hmem := List.mem_of_getElem? hx
      rw [scanOrder] at horder
      split at horder
      · cases horder
        exact ⟨fun h => ih.2 (h.2 _ hmem), fun h => ih.1 (h.2 _ hy)⟩
      · cases horder
        exact ⟨fun h => ih.1 (h.2 _ hy), fun h => ih.2 (h.2 _ hmem)⟩

/-- From entry `i` on, the loop of `Object::operator==` comes to such objects. -/
def OverrunsFrom (i : Nat) (scanned looked : Object Node) : Prop :=
  ∃ j key x y, i ≤ j ∧ scanned.data[j]? = some (key, x) ∧ (key, y) ∈ looked.data ∧
    (∀ k, i ≤ k → k < j → ∀ p, (codes scanned)[k]? = some p → p ∈ codes looked) ∧ Overruns y x

theorem overruns_object {this other : Object Node} : Overruns (object this) (object other) ↔
    this.data.length = other.data.length ∧
      ((this.index = none ∧ other.index = none ∧ Index.kMaxIndexed < other.data.length) ∨
        OverrunsFrom 0 (scanOrder this other).1 (scanOrder this other).2) := by
  constructor
  · intro h
    cases h with
    | objects hlength hindex hindex' hlarge => exact ⟨hlength, .inl ⟨hindex, hindex', hlarge⟩⟩
    | value hlength horder hx hy hbefore h =>
        rw [horder]
        exact ⟨hlength, .inr ⟨_, _, _, _, Nat.zero_le _, hx, hy, fun k _ => hbefore k, h⟩⟩
  · rintro ⟨hlength, ⟨hindex, hindex', hlarge⟩ | ⟨j, key, x, y, -, hx, hy, hbefore, h⟩⟩
    · exact .objects hlength hindex hindex' hlarge
    · exact .value hlength rfl hx hy (fun k => hbefore k (Nat.zero_le k)) h

/-- The loop comes to such objects in the values of its first entry, or behind it. -/
theorem overrunsFrom_succ {i : Nat} {scanned looked : Object Node} {key : Bytes} {value : Node}
    (hentry : scanned.data[i]? = some (key, value)) : OverrunsFrom i scanned looked ↔
      (∃ found, (key, found) ∈ looked.data ∧ Overruns found value) ∨
        ((key, value.code) ∈ codes looked ∧ OverrunsFrom (i + 1) scanned looked) := by
  have hcode : (codes scanned)[i]? = some (key, value.code) := by
    rw [codes, List.getElem?_map, hentry]
    rfl
  constructor
  · rintro ⟨j, key', x, y, hij, hx, hy, hbefore, h⟩
    rcases Nat.eq_or_lt_of_le hij with rfl | hlt
    · rw [hentry] at hx
      cases hx
      exact .inl ⟨y, hy, h⟩
    · exact .inr ⟨hbefore i (Nat.le_refl i) hlt _ hcode, j, key', x, y, hlt, hx, hy,
        fun k hk => hbefore k (Nat.le_of_succ_le hk), h⟩
  · rintro (⟨found, hfound, h⟩ | ⟨hmem, j, key', x, y, hij, hx, hy, hbefore, h⟩)
    · exact ⟨i, key, value, found, Nat.le_refl i, hentry, hfound, fun k hk hk' => by omega, h⟩
    · refine ⟨j, key', x, y, by omega, hx, hy, fun k hk hkj p hp => ?_, h⟩
      rcases Nat.eq_or_lt_of_le hk with rfl | hlt
      · rw [hcode] at hp
        cases hp
        exact hmem
      · exact hbefore k hlt hkj p hp

theorem mem_setValue {self : Object Node} {pos : Nat} {key key' : Bytes} {value y : Node}
    (hpos : self.keys[pos]? = some key) (hne : key' ≠ key) :
    (key', y) ∈ (self.setValue pos value).data ↔ (key', y) ∈ self.data := by
  obtain ⟨old, hold⟩ := getElem?_keys.mp hpos
  simp only [List.mem_iff_getElem?, Object.setValue, List.getElem?_modify]
  refine exists_congr fun i => ?_
  by_cases hi : pos = i
  · subst hi
    simp [hold, Ne.symm hne]
  · simp [hi]

/-- What the loop writes back at an entry does not change what it comes to behind it. -/
theorem overrunsFrom_setValue {i pos : Nat} {scanned looked : Object Node} {key : Bytes}
    {value found value' found' : Node} (hnodup : scanned.keys.Nodup)
    (hentry : scanned.data[i]? = some (key, value)) (hfound : looked.data[pos]? = some (key, found))
    (hvalue : value'.code = value.code) (hcode : found'.code = found.code) :
    OverrunsFrom (i + 1) (scanned.setValue i value') (looked.setValue pos found') ↔
      OverrunsFrom (i + 1) scanned looked := by
  have hcodes : ∀ {self : Object Node} {n : Nat} {old new : Node}, self.data[n]? = some (key, old) →
      new.code = old.code → codes (self.setValue n new) = codes self := by
    intro self n old new hold hnew
    refine List.ext_getElem? fun k => ?_
    rw [codes, codes, List.getElem?_map, List.getElem?_map, Object.setValue, List.getElem?_modify]
    by_cases hk : n = k
    · subst hk
      simp [hold, hnew]
    · simp [hk]
  rw [OverrunsFrom, OverrunsFrom, hcodes hentry hvalue, hcodes hfound hcode]
  refine exists_congr fun j => exists_congr fun key' => exists_congr fun x => exists_congr fun y => ?_
  refine and_congr_right fun hj => ?_
  have hsame : (scanned.setValue i value').data[j]? = scanned.data[j]? := by
    have hne : i ≠ j := Nat.ne_of_lt hj
    simp [Object.setValue, hne]
  rw [hsame]
  refine and_congr_right fun hx => and_congr_left fun _ => ?_
  have hne : key' ≠ key := by
    rintro rfl
    have hkey := getElem?_keys.mpr ⟨_, hentry⟩
    have hlt : i < scanned.keys.length := (List.getElem?_eq_some_iff.mp hkey).1
    have heq := (List.getElem?_inj hlt hnodup).mp (hkey.trans (getElem?_keys.mpr ⟨_, hx⟩).symm)
    omega
  exact mem_setValue (getElem?_keys.mpr ⟨_, hfound⟩) hne

theorem nesting_lt_array {elements : List Node} {value : Node} (hmem : value ∈ elements) :
    value.nesting < (array elements).nesting := by
  rw [nesting]
  exact Nat.lt_succ_of_le (nestingElements_le.mp (Nat.le_refl _) value hmem)

theorem nesting_lt_object {self : Object Node} {entry : Bytes × Node} (hmem : entry ∈ self.data) :
    entry.2.nesting < (object self).nesting := by
  obtain ⟨data, index, resource⟩ := self
  rw [nesting]
  exact Nat.lt_succ_of_le (nestingEntries_le.mp (Nat.le_refl _) entry hmem)

theorem Keeps.nesting {before after : Node} (h : Keeps before after) :
    after.nesting = before.nesting := by
  rw [← nesting_bare, h.bare, nesting_bare]

/-- The trees that the ordering is specified for, within a number of nested calls. -/
structure Comparable (fuel : Nat) (node : Node) : Prop where
  sound : node.Sound
  plain : node.Plain
  nesting : node.nesting < fuel

theorem Comparable.keeps {fuel : Nat} {node node' : Node} (h : Comparable fuel node)
    (hkeeps : Keeps node node') : Comparable fuel node' :=
  ⟨hkeeps.sound, hkeeps.plain.mpr h.plain, hkeeps.nesting ▸ h.nesting⟩

theorem comparable_array {fuel : Nat} {elements : List Node}
    (h : Comparable (fuel + 1) (array elements)) : ∀ value ∈ elements, Comparable fuel value :=
  fun value hmem => ⟨sound_array.mp h.sound value hmem, plain_array h.plain value hmem,
    Nat.lt_of_lt_of_le (nesting_lt_array hmem) (Nat.le_of_lt_succ h.nesting)⟩

theorem comparable_object {fuel : Nat} {self : Object Node}
    (h : Comparable (fuel + 1) (object self)) : ∀ entry ∈ self.data, Comparable fuel entry.2 :=
  fun entry hmem => ⟨(sound_object.mp h.sound).2 entry hmem, (plain_object h.plain).2 entry hmem,
    Nat.lt_of_lt_of_le (nesting_lt_object hmem) (Nat.le_of_lt_succ h.nesting)⟩

/-- A comparison has no result exactly when it comes to objects too large for an index. -/
def Exact (fuel : Nat) (equal : Node → Node → Option (Bool × Node × Node)) : Prop :=
  ∀ a b, Comparable fuel a → Comparable fuel b → (equal a b = none ↔ Overruns a b)

section Loops

variable {fuel : Nat} {equal : Node → Node → Option (Bool × Node × Node)}
  (hequal : ∀ a b, a.Sound → b.Sound → Answers fuel a b (equal a b)) (hexact : Exact fuel equal)
include hequal hexact

theorem elementsEqual_eq_none {xs ys : List Node} (hxs : ∀ value ∈ xs, Comparable fuel value)
    (hys : ∀ value ∈ ys, Comparable fuel value) (hlength : xs.length = ys.length) :
    elementsEqual equal xs ys = none ↔ ∃ i x y, xs[i]? = some x ∧ ys[i]? = some y ∧
      (xs.take i).map code = (ys.take i).map code ∧ Overruns x y := by
  induction xs generalizing ys with
  | nil => simp [elementsEqual]
  | cons x xs ih =>
      cases ys with
      | nil => cases hlength
      | cons y ys =>
          rw [List.forall_mem_cons] at hxs hys
          have hsplit : (∃ i x' y', (x :: xs)[i]? = some x' ∧ (y :: ys)[i]? = some y' ∧
              ((x :: xs).take i).map code = ((y :: ys).take i).map code ∧ Overruns x' y') ↔
              Overruns x y ∨ (x.code = y.code ∧ ∃ i x' y', xs[i]? = some x' ∧ ys[i]? = some y' ∧
                (xs.take i).map code = (ys.take i).map code ∧ Overruns x' y') := by
            constructor
            · rintro ⟨i, x', y', hx', hy', hbefore, h⟩
              cases i with
              | zero =>
                  cases hx'
                  cases hy'
                  exact .inl h
              | succ i =>
                  obtain ⟨hcode, hbefore⟩ := List.cons.inj hbefore
                  exact .inr ⟨hcode, i, x', y', hx', hy', hbefore, h⟩
            · rintro (h | ⟨hcode, i, x', y', hx', hy', hbefore, h⟩)
              · exact ⟨0, x, y, rfl, rfl, rfl, h⟩
              · exact ⟨i + 1, x', y', hx', hy', by simp [hcode, hbefore], h⟩
          rw [hsplit, ← hexact x y hxs.1 hys.1, ← ih hxs.2 hys.2 (Nat.succ.inj hlength), elementsEqual]
          cases hanswer : equal x y with
          | none => simp
          | some answer =>
              obtain ⟨same, x', y'⟩ := answer
              have hverdict := (hequal x y hxs.1.sound hys.1.sound).verdict _ _ _ hanswer hxs.1.plain
                hys.1.plain
              cases same with
              | true =>
                  have hcode : x.code = y.code := hverdict.mp rfl
                  cases hrest : elementsEqual equal xs ys with
                  | none => simp [hcode]
                  | some rest => simp
              | false =>
                  have hne : x.code ≠ y.code := fun heq => Bool.false_ne_true (hverdict.mpr heq)
                  simp [hne]

theorem arrayEqual_eq_none {xs ys : List Node} (hxs : Comparable (fuel + 1) (array xs))
    (hys : Comparable (fuel + 1) (array ys)) :
    arrayEqual equal xs ys = none ↔ Overruns (array xs) (array ys) := by
  rw [overruns_array, arrayEqual]
  by_cases hlength : xs.length = ys.length
  · rw [if_neg (not_not.mpr hlength), elementsEqual_eq_none hequal hexact (comparable_array hxs)
      (comparable_array hys) hlength]
    exact (and_iff_right hlength).symm
  · rw [if_pos hlength]
    exact iff_of_false (Option.some_ne_none _) fun h => hlength h.1

theorem scanEntries_eq_none {remaining i : Nat} {scanned looked : Object Node}
    (hi : i + remaining = scanned.data.length) (hscanned : Comparable (fuel + 1) (object scanned))
    (hlooked : Comparable (fuel + 1) (object looked)) :
    scanEntries equal remaining i scanned looked = none ↔ OverrunsFrom i scanned looked := by
  induction remaining generalizing i scanned looked with
  | zero =>
      refine iff_of_false (Option.some_ne_none _) ?_
      rintro ⟨j, key, x, y, hij, hx, -⟩
      obtain ⟨hlt, -⟩ := List.getElem?_eq_some_iff.mp hx
      omega
  | succ remaining ih =>
      obtain ⟨⟨key, value⟩, hentry⟩ : ∃ entry, scanned.data[i]? = some entry :=
        ⟨_, List.getElem?_eq_getElem (by omega)⟩
      obtain ⟨index, hfind, hindex, -⟩ :=
        Index.findSlot_spec (sound_object.mp hlooked.sound).1 key true
      have hindexed := keeps_index hlooked.sound hindex
      rw [overrunsFrom_succ hentry, scanEntries, hentry]
      simp only [Option.bind_eq_bind, Option.bind_some, hfind]
      cases hmatch : firstMatch looked.keys key with
      | none =>
          have hnotMem : ∀ found, (key, found) ∉ looked.data := fun found hmem =>
            firstMatch_eq_none.mp hmatch (List.mem_map_of_mem (f := (·.1)) hmem)
          refine iff_of_false (Option.some_ne_none _) ?_
          rintro (⟨found, hfound, -⟩ | ⟨hcode, -⟩)
          · exact hnotMem found hfound
          · obtain ⟨entry, hmem, heq⟩ := List.mem_map.mp hcode
            have hkey : entry.1 = key := congrArg Prod.fst heq
            exact hnotMem entry.2 (hkey ▸ hmem)
      | some pos =>
          obtain ⟨found, hfound⟩ := getElem?_keys.mp (firstMatch_eq_some.mp hmatch).1
          have hfoundComparable := comparable_object hlooked _ (List.mem_of_getElem? hfound)
          have hvalueComparable := comparable_object hscanned _ (List.mem_of_getElem? hentry)
          have hanswers := hequal found value hfoundComparable.sound hvalueComparable.sound
          have hfirst : (∃ found, (key, found) ∈ looked.data ∧ Overruns found value) ↔
              equal found value = none := by
            rw [hexact found value hfoundComparable hvalueComparable]
            refine ⟨?_, fun h => ⟨found, List.mem_of_getElem? hfound, h⟩⟩
            rintro ⟨found', hmem, h⟩
            have heq := List.inj_on_of_nodup_map (plain_object hlooked.plain).1
              (List.mem_of_getElem? hfound) hmem rfl
            cases heq
            exact h
          rw [hfirst]
          simp only [hfound, Option.bind_some]
          cases hanswer : equal found value with
          | none => simp
          | some answer =>
              obtain ⟨same, found', value'⟩ := answer
              obtain ⟨hkeeps, hkeeps'⟩ := hanswers.keeps _ _ _ hanswer
              have hkept := hindexed.trans (keeps_setValue hindexed.sound hfound hkeeps)
              have hkept' := keeps_setValue hscanned.sound hentry hkeeps'
              have hcode : (key, value.code) ∈ codes looked ↔ same = true := by
                rw [hanswers.verdict _ _ _ hanswer hfoundComparable.plain hvalueComparable.plain]
                exact mem_codes_iff (plain_object hlooked.plain).1 hfound
              rw [hcode]
              cases same with
              | false => simp
              | true =>
                  have hi' : i + 1 + remaining = (scanned.setValue i value').data.length := by
                    rw [Object.setValue, List.length_modify]
                    omega
                  have hrest := ih hi' (hscanned.keeps hkept') (hlooked.keeps hkept)
                  have hsame : OverrunsFrom (i + 1) (scanned.setValue i value')
                      (({ looked with index } : Object Node).setValue pos found') ↔
                      OverrunsFrom (i + 1) scanned looked :=
                    overrunsFrom_setValue (plain_object hscanned.plain).1 hentry hfound hkeeps'.code
                      hkeeps.code
                  simpa using hrest.trans hsame

theorem objectEqual_eq_none {this other : Object Node} (hthis : Comparable (fuel + 1) (object this))
    (hother : Comparable (fuel + 1) (object other)) :
    objectEqual equal this other = none ↔ Overruns (object this) (object other) := by
  rw [overruns_object, objectEqual]
  by_cases hlength : this.data.length = other.data.length
  · rw [if_neg (not_not.mpr hlength)]
    by_cases hlarge : this.index = none ∧ other.index = none ∧ Index.kMaxIndexed < other.data.length
    · have hprobed : probedIndex this other = none := by
        rw [← length_keys] at hlarge
        have hthreshold : kIndexThreshold < other.keys.length :=
          Nat.lt_trans (by decide) hlarge.2.2
        rw [probedIndex, hlarge.1, hlarge.2.1, if_pos (by decide), Index.ensure,
          if_pos ⟨rfl, hthreshold⟩, Index.build_eq_none hlarge.2.2, Option.map_none]
      rw [hprobed]
      exact iff_of_true rfl ⟨hlength, .inl hlarge⟩
    · obtain ⟨index, hprobed, hholds⟩ : ∃ index, probedIndex this other = some index ∧
          Index.CacheHolds other.keys index ∧
          (index.isSome || this.index.isNone) = (other.index.isSome || this.index.isNone) := by
        rw [probedIndex]
        by_cases hnone : this.index.isNone && other.index.isNone
        · obtain ⟨hindex, hindex'⟩ := Bool.and_eq_true_iff.mp hnone
          have hmax : other.keys.length ≤ Index.kMaxIndexed := by
            rw [length_keys]
            exact not_lt.mp fun hlt => hlarge ⟨Option.isNone_iff_eq_none.mp hindex,
              Option.isNone_iff_eq_none.mp hindex', hlt⟩
          obtain ⟨index, hensure, hholds⟩ :=
            Index.ensure_spec (sound_object.mp hother.sound).1 (.inr hmax)
          rw [if_pos hnone]
          exact ⟨index, hensure, hholds, by rw [hindex, Bool.or_true, Bool.or_true]⟩
        · rw [if_neg hnone]
          exact ⟨_, rfl, (sound_object.mp hother.sound).1, rfl⟩
      have hkept := hother.keeps (keeps_index hother.sound hholds.1)
      simp only [hprobed, Option.bind_eq_bind, Option.bind_some, hholds.2, scanOrder]
      split
      · rw [scanEntries_eq_none hequal hexact (Nat.zero_add _) hthis hkept]
        exact ⟨fun h => ⟨hlength, .inr h⟩, fun h => h.2.resolve_left hlarge⟩
      · rw [Option.bind_eq_none_iff]
        have hnone := scanEntries_eq_none hequal hexact (Nat.zero_add _) hkept hthis
        refine Iff.trans ?_ (hnone.trans ⟨fun h => ⟨hlength, .inr h⟩, fun h => h.2.resolve_left hlarge⟩)
        refine ⟨fun h => ?_, fun h _ hsome => by rw [h] at hsome; cases hsome⟩
        exact Option.eq_none_iff_forall_ne_some.mpr fun answer hsome => Option.some_ne_none _ (h answer hsome)
  · rw [if_pos hlength]
    exact iff_of_false (Option.some_ne_none _) fun h => hlength h.1

end Loops

theorem equalWithin_exact (fuel : Nat) : Exact fuel (equalWithin fuel) := by
  induction fuel with
  | zero => exact fun a b ha _ => absurd ha.nesting (Nat.not_lt_zero _)
  | succ fuel ih =>
      intro a b ha hb
      have hanswers := equalWithin_answers fuel
      rw [equalWithin.eq_def]
      cases a with
      | array xs =>
          cases b with
          | array ys =>
              rw [← arrayEqual_eq_none hanswers ih ha hb]
              cases hanswer : arrayEqual (equalWithin fuel) xs ys with
              | none => simp [hanswer]
              | some answer => simp [hanswer]
          | _ => exact iff_of_false (Option.some_ne_none _) fun h => by cases h
      | object this =>
          cases b with
          | object other =>
              rw [← objectEqual_eq_none hanswers ih ha hb]
              cases hanswer : objectEqual (equalWithin fuel) this other with
              | none => simp [hanswer]
              | some answer => simp [hanswer]
          | _ => exact iff_of_false (Option.some_ne_none _) fun h => by cases h
      | _ => cases b <;> exact iff_of_false (Option.some_ne_none _) fun h => by cases h

/-- `operator==` on two trees has no result exactly when comparing them comes to two objects too large
for an index. -/
theorem equal_eq_none {a b : Node} (ha : a.Sound) (hb : b.Sound) (ha₁ : a.Plain) (hb₁ : b.Plain) :
    equal a b = none ↔ Overruns a b := by
  rw [equal, Option.map_eq_none_iff]
  exact equalWithin_exact _ a b ⟨ha, ha₁, Nat.lt_succ_of_le (Nat.le_max_left _ _)⟩
    ⟨hb, hb₁, Nat.lt_succ_of_le (Nat.le_max_right _ _)⟩

/-- Otherwise its verdict is that the two trees have the same value. -/
theorem equal_iff_not_overruns {a b : Node} (ha : a.Sound) (hb : b.Sound) (ha₁ : a.Plain)
    (hb₁ : b.Plain) : equal a b = some (decide (a.code = b.code)) ↔ ¬Overruns a b := by
  rw [← equal_eq_none ha hb ha₁ hb₁]
  refine ⟨fun h hnone => ?_, fun h => ?_⟩
  · rw [h] at hnone
    cases hnone
  · obtain ⟨verdict, hverdict⟩ := Option.ne_none_iff_exists'.mp h
    obtain ⟨⟨same, a', b'⟩, hanswer, rfl⟩ := Option.map_eq_some_iff.mp hverdict
    rw [hverdict, Option.some_inj, Bool.eq_iff_iff, decide_eq_true_iff]
    exact (equalWithin_answers _ a b ha hb).verdict _ _ _ hanswer ha₁ hb₁

/-! ### The state of the indexes -/

theorem sound_bare (node : Node) : node.bare.Sound := by
  induction node using Node.induct with
  | array elements ih =>
      rw [bare_array, sound_array, List.forall_mem_map]
      exact ih
  | object self ih =>
      rw [bare_object, sound_object, List.forall_mem_map]
      exact ⟨Index.cacheHolds_none _, ih⟩
  | _ => trivial

theorem bare_bare (node : Node) : node.bare.bare = node.bare := by
  induction node using Node.induct with
  | array elements ih =>
      rw [bare_array, bare_array, List.map_map]
      exact congrArg array (List.map_congr_left ih)
  | object self ih =>
      rw [bare_object, bare_object, List.map_map]
      congr 2
      exact List.map_congr_left fun entry hmem => by rw [Function.comp_apply, ih entry hmem]
  | _ => rfl

theorem keeps_bare (node : Node) : Keeps node node.bare := ⟨sound_bare node, bare_bare node⟩

/-- The verdict on two trees, one of which can be indexed. -/
theorem equal_eq {a b : Node} (ha : a.Sound) (hb : b.Sound) (ha₁ : a.Plain) (hb₁ : b.Plain)
    (hindex : a.Indexable ∨ b.Indexable) : equal a b = some (decide (a.code = b.code)) := by
  obtain ⟨same, a', b', hanswer, -, -, hverdict⟩ := equalAfter_spec ha hb hindex
  rw [equal, hanswer, Option.map_some, Option.some_inj, Bool.eq_iff_iff, hverdict ha₁ hb₁,
    decide_eq_true_iff]

/-- Comparing a tree without indexes with itself comes to each of its objects. -/
theorem overruns_self {a : Node} (h : ¬a.Indexable) : Overruns a.bare a.bare := by
  induction a using Node.induct with
  | array elements ih =>
      obtain ⟨value, hmem, hvalue⟩ : ∃ value ∈ elements, ¬value.Indexable := by
        simpa only [indexable_array, not_forall, exists_prop] using h
      obtain ⟨i, hi⟩ := List.getElem?_of_mem (List.mem_map_of_mem (f := bare) hmem)
      rw [bare_array]
      exact .element rfl hi hi rfl (ih value hmem hvalue)
  | object self ih =>
      rw [bare_object]
      by_cases hlarge : self.keys.length ≤ Index.kMaxIndexed
      · obtain ⟨entry, hmem, hvalue⟩ : ∃ entry ∈ self.data, ¬entry.2.Indexable := by
          simpa only [indexable_object, hlarge, true_and, not_forall, exists_prop] using h
        have hbare := List.mem_map_of_mem (f := fun entry : Bytes × Node => (entry.1, entry.2.bare)) hmem
        obtain ⟨i, hi⟩ := List.getElem?_of_mem hbare
        exact .value rfl rfl hi hbare (fun k _ p hp => List.mem_of_getElem? hp) (ih entry hmem hvalue)
      · rw [length_keys, not_le] at hlarge
        exact .objects rfl rfl rfl (by rwa [List.length_map])
  | _ => exact absurd trivial h

/-- A tree without indexes that equals itself can be indexed. -/
theorem indexable_of_equal {a : Node} (ha : a.Plain) (h : equal a.bare a.bare = some true) :
    a.Indexable := by
  by_contra hlarge
  have hplain := (keeps_bare a).plain.mpr ha
  rw [(equal_eq_none (sound_bare a) (sound_bare a) hplain hplain).mpr (overruns_self hlarge)] at h
  cases h

/-! ### The laws -/

/-- `operator==` returns on the two trees, and finds them equal when neither is less than the other. -/
def EqualityAgrees (a b : Node) : Prop := equal a b = some (!less a b && !less b a)

/-- The laws of `operator==`, which hold whatever the state of the indexes: it is reflexive,
symmetric and transitive, does not depend on the indexes, nor on the order of entries at any depth,
and equal trees have the same hash. -/
structure EqualityLaws (a b c : Node) : Prop where
  refl : ∀ x ∈ [a, b, c], ∀ x' x'', Keeps x x' → Keeps x x'' → equal x' x'' = some true
  symm : ∀ a' b', Keeps a a' → Keeps b b' → equal a' b' = equal b' a'
  trans : ∀ a' b' c', Keeps a a' → Keeps b b' → Keeps c c' → equal a' b' = some true →
    equal b' c' = some true → equal a' c' = some true
  indexes : ∀ a' b', Keeps a a' → Keeps b b' → equal a' b' = equal a b
  permuted : ∀ a' b', Permuted a a' → Permuted b b' → a'.Sound → b'.Sound → equal a' b' = equal a b
  hash : equal a b = some true → a.hash64 = b.hash64

theorem less_eq_code (a b : Node) : (!less a b && !less b a) = decide (a.code = b.code) := by
  rw [Bool.eq_iff_iff, decide_eq_true_iff, Bool.and_eq_true, Bool.not_eq_true', Bool.not_eq_true']
  exact (verdict a b).eq_iff

theorem equal_of_keeps {x y x' y' : Node} (hx : x.Plain) (hy : y.Plain) (hx' : x.Indexable)
    (h : Keeps x x') (h' : Keeps y y') : equal x' y' = some (decide (x.code = y.code)) := by
  have hindexable : x'.Indexable := (indexable_bare _).mp (h.bare ▸ (indexable_bare _).mpr hx')
  rw [equal_eq h.sound h'.sound (h.plain.mpr hx) (h'.plain.mpr hy) (.inl hindexable), h.code, h'.code]

/-- `operator<` is a strict weak ordering on the trees without repeated keys. On two such trees without
NaN, `operator==` agrees with it exactly when comparing them does not come to two objects of one size,
both without an index and with more than `2 ^ 30` entries. -/
theorem less_strictWeak_and_equalityAgrees (a b : Node) (hsound : a.Sound) (hsound' : b.Sound)
    (ha : a.NoDuplicates) (hb : b.NoDuplicates) (ha' : a.NoNaN) (hb' : b.NoNaN) :
    Order.StrictWeak less NoDuplicates ∧ (EqualityAgrees a b ↔ ¬Overruns a b) := by
  refine ⟨Order.strictWeak_of_code fun a b _ _ => less_iff a b, ?_⟩
  rw [EqualityAgrees, less_eq_code]
  exact equal_iff_not_overruns hsound hsound' ⟨ha, ha'⟩ ⟨hb, hb'⟩

/-- The laws of `operator==` hold for trees without repeated keys and without NaN exactly when no
object in them has more than `2 ^ 30` entries. -/
theorem equalityLaws_iff {a b c : Node} (ha : a.Sound) (hb : b.Sound)
    (ha₁ : a.Plain) (hb₁ : b.Plain) (hc₁ : c.Plain) :
    EqualityLaws a b c ↔ a.Indexable ∧ b.Indexable ∧ c.Indexable := by
  constructor
  · intro h
    have hself : ∀ x ∈ [a, b, c], x.Plain → x.Indexable := fun x hx hplain =>
      indexable_of_equal hplain (h.refl x hx _ _ (keeps_bare x) (keeps_bare x))
    exact ⟨hself a (by simp) ha₁, hself b (by simp) hb₁, hself c (by simp) hc₁⟩
  · rintro ⟨ha₂, hb₂, hc₂⟩
    have hab := fun a' b' => @equal_of_keeps a b a' b' ha₁ hb₁ ha₂
    constructor
    · intro x hx x' x'' hkeeps hkeeps'
      have hboth : ∀ x ∈ [a, b, c], x.Plain ∧ x.Indexable := by
        rw [List.forall_mem_cons, List.forall_mem_cons, List.forall_mem_singleton]
        exact ⟨⟨ha₁, ha₂⟩, ⟨hb₁, hb₂⟩, hc₁, hc₂⟩
      rw [equal_of_keeps (hboth x hx).1 (hboth x hx).1 (hboth x hx).2 hkeeps hkeeps', decide_eq_true rfl]
    · intro a' b' hkeeps hkeeps'
      rw [hab a' b' hkeeps hkeeps', equal_of_keeps hb₁ ha₁ hb₂ hkeeps' hkeeps]
      simp only [eq_comm]
    · intro a' b' c' hkeeps hkeeps' hkeeps'' h h'
      rw [hab a' b' hkeeps hkeeps', Option.some_inj, decide_eq_true_iff] at h
      rw [equal_of_keeps hb₁ hc₁ hb₂ hkeeps' hkeeps'', Option.some_inj, decide_eq_true_iff] at h'
      rw [equal_of_keeps ha₁ hc₁ ha₂ hkeeps hkeeps'', h, h', decide_eq_true rfl]
    · intro a' b' hkeeps hkeeps'
      rw [hab a' b' hkeeps hkeeps', hab a b (.refl ha) (.refl hb)]
    · intro a' b' hperm hperm' hsound hsound'
      obtain ⟨hplain, hcode⟩ := hperm.spec ha₁
      obtain ⟨hplain', hcode'⟩ := hperm'.spec hb₁
      rw [equal_eq hsound hsound' hplain hplain' (.inl (indexable_of_code hcode ha₂)), ← hcode, ← hcode',
        hab a b (.refl ha) (.refl hb)]
    · intro h
      rw [hab a b (.refl ha) (.refl hb), Option.some_inj, decide_eq_true_iff] at h
      exact hash_of_code ha₁.2 hb₁.2 h

/-- An object with three entries, which begin with the `n`-th. -/
def turnedNode (n : Nat) : Node :=
  object { data := [(asciiBytes "a", integer 1), (asciiBytes "b", stringView []),
    (asciiBytes "c", array [null])].rotate n }

/-- What holds of the three values holds of the entries in every order. -/
theorem turnedNode_values {P : Node → Prop} (h : P (integer 1)) (h' : P (stringView []))
    (h'' : P (array [null])) (n : Nat) : ∀ entry ∈ [(asciiBytes "a", integer 1),
      (asciiBytes "b", stringView []), (asciiBytes "c", array [null])].rotate n, P entry.2 := by
  intro entry hmem
  rw [List.mem_rotate] at hmem
  fin_cases hmem <;> assumption

theorem turnedNode_plain (n : Nat) : (turnedNode n).Plain := by
  refine plain_object_iff.mpr ⟨?_, turnedNode_values ⟨trivial, trivial⟩ ⟨trivial, trivial⟩ ?_ n⟩
  · rw [Object.keys, List.map_rotate, List.nodup_rotate]
    decide
  · exact ⟨noDuplicates_array.mpr (List.forall_mem_singleton.mpr trivial),
      all_array.mpr ⟨trivial, List.forall_mem_singleton.mpr trivial⟩⟩

theorem turnedNode_indexable (n : Nat) : (turnedNode n).Indexable := by
  refine indexable_object.mpr ⟨?_, turnedNode_values trivial trivial ?_ n⟩
  · rw [length_keys, List.length_rotate]
    decide
  · exact indexable_array.mpr (List.forall_mem_singleton.mpr trivial)

theorem turnedNode_sound (n : Nat) : (turnedNode n).Sound := by
  refine sound_object.mpr ⟨Index.cacheHolds_none _, turnedNode_values trivial trivial ?_ n⟩
  exact sound_array.mpr (List.forall_mem_singleton.mpr trivial)

theorem equalityLaws_turned : EqualityLaws (turnedNode 0) (turnedNode 1) (turnedNode 2) :=
  (equalityLaws_iff (turnedNode_sound 0) (turnedNode_sound 1) (turnedNode_plain 0)
    (turnedNode_plain 1) (turnedNode_plain 2)).mpr
    ⟨turnedNode_indexable 0, turnedNode_indexable 1, turnedNode_indexable 2⟩

/-! ### An object with too many entries -/

/-- The four bytes of a number. -/
def keyOf (n : Nat) : Bytes :=
  [(n / 2 ^ 24).toUInt8, (n / 2 ^ 16).toUInt8, (n / 2 ^ 8).toUInt8, n.toUInt8]

/-- An object with `n` entries with different keys and without an index. -/
def wideObject (n : Nat) : Object Node where
  data := (List.range n).map fun i => (keyOf i, null)

section WideObject

variable {n : Nat}

theorem length_wideObject : (wideObject n).keys.length = n := by
  rw [length_keys, wideObject, List.length_map, List.length_range]

theorem nodup_wideObject (hle : n ≤ 2 ^ 32) : (wideObject n).keys.Nodup := by
  rw [Object.keys, wideObject, List.map_map]
  refine List.Nodup.map_on (fun i hi j hj heq => ?_) List.nodup_range
  rw [List.mem_range] at hi hj
  simp only [Function.comp_apply, keyOf, List.cons.injEq, and_true, ← UInt8.toNat_inj,
    Nat.toUInt8_eq, UInt8.toNat_ofNat'] at heq
  omega

theorem wideObject_values : ∀ entry ∈ (wideObject n).data, entry.2 = null := by
  intro entry hmem
  obtain ⟨i, -, rfl⟩ := List.mem_map.mp hmem
  rfl

theorem wideObject_plain (hle : n ≤ 2 ^ 32) : (object (wideObject n)).Plain := by
  refine plain_object_iff.mpr ⟨nodup_wideObject hle, fun entry hmem => ?_⟩
  rw [wideObject_values entry hmem]
  exact ⟨trivial, trivial⟩

theorem wideObject_sound : (object (wideObject n)).Sound := by
  refine sound_object.mpr ⟨Index.cacheHolds_none _, fun entry hmem => ?_⟩
  rw [wideObject_values entry hmem]
  trivial

/-- The capacity of its index wraps around to zero: the object cannot be compared with itself. -/
theorem equal_wideObject (hlarge : Index.kMaxIndexed < n) :
    equal (object (wideObject n)) (object (wideObject n)) = none := by
  have hthreshold : kIndexThreshold < (wideObject n).keys.length := by
    rw [length_wideObject, kIndexThreshold]
    rw [Index.kMaxIndexed] at hlarge
    omega
  have hbuild : Index.ensure (wideObject n).keys none = none := by
    rw [Index.ensure, if_pos ⟨rfl, hthreshold⟩,
      Index.build_eq_none (by rwa [length_wideObject]), Option.map_none]
  have hprobed : probedIndex (wideObject n) (wideObject n) = none := hbuild
  have hobject : ∀ equal, objectEqual equal (wideObject n) (wideObject n) = none := by
    intro equal
    rw [objectEqual, if_neg (not_not.mpr rfl), hprobed, Option.bind_eq_bind, Option.bind_none]
  rw [equal, equalAfter, equalWithin, hobject, Option.bind_eq_bind, Option.bind_none,
    Option.map_none]

end WideObject

/-- The object with one entry more than an index can be built for. -/
def hugeNode : Node := object (wideObject (Index.kMaxIndexed + 1))

theorem equal_hugeNode : equal hugeNode hugeNode = none := equal_wideObject (Nat.lt_succ_self _)

theorem hugeNode_plain : hugeNode.Plain := wideObject_plain (by rw [Index.kMaxIndexed]; omega)

theorem not_equalityAgrees_huge :
    hugeNode.Plain ∧ hugeNode.Sound ∧ ¬EqualityAgrees hugeNode hugeNode := by
  refine ⟨hugeNode_plain, wideObject_sound, fun h => ?_⟩
  rw [EqualityAgrees, equal_hugeNode] at h
  cases h

/-- The first elements differ, so the object behind one of them is not come to. -/
theorem equalityAgrees_first :
    EqualityAgrees (array [integer 1, hugeNode]) (array [integer 2, hugeNode]) := by
  have hsound : ∀ i, (array [integer i, hugeNode]).Sound := fun i =>
    sound_array.mpr (List.forall_mem_cons.mpr ⟨trivial, List.forall_mem_singleton.mpr wideObject_sound⟩)
  have hplain : ∀ i, (array [integer i, hugeNode]).Plain := fun i => by
    have hvalues : ∀ value ∈ [integer i, hugeNode], value.Plain :=
      List.forall_mem_cons.mpr ⟨⟨trivial, trivial⟩, List.forall_mem_singleton.mpr hugeNode_plain⟩
    exact ⟨noDuplicates_array.mpr fun value hmem => (hvalues value hmem).1,
      all_array.mpr ⟨trivial, fun value hmem => (hvalues value hmem).2⟩⟩
  refine (less_strictWeak_and_equalityAgrees _ _ (hsound 1) (hsound 2) (hplain 1).1 (hplain 2).1
    (hplain 1).2 (hplain 2).2).2.mpr fun h => ?_
  obtain ⟨-, i, x, y, hx, hy, hbefore, h⟩ := overruns_array.mp h
  cases i with
  | zero =>
      cases hx
      cases hy
      cases h
  | succ i => exact absurd (List.cons.inj hbefore).1 (by decide)

theorem not_equalityLaws_huge :
    hugeNode.Plain ∧ hugeNode.Sound ∧ ¬EqualityLaws hugeNode hugeNode hugeNode := by
  refine ⟨hugeNode_plain, wideObject_sound, fun h => ?_⟩
  have hself := h.refl _ List.mem_cons_self _ _ (.refl wideObject_sound) (.refl wideObject_sound)
  rw [equal_hugeNode] at hself
  cases hself

end PjhJson.Node
