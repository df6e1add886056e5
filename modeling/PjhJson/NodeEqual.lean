import PjhJson.NodeOrder

/-! `Json::operator==`. A comparison may build or refill the lookup indexes of the objects it meets,
so it returns both trees along with its verdict; it has no result when a lookup has none. -/

namespace PjhJson

/-- Overwrite the value of the entry at `pos`; its key stays. -/
def Object.setValue (self : Object Node) (pos : Nat) (value : Node) : Object Node :=
  { self with data := self.data.modify pos fun entry => (entry.1, value) }

namespace Node

/-- The loop of `Object::operator==`: the entries of `scanned` from position `i` on are looked up in
`looked`. -/
def scanEntries (equal : Node → Node → Option (Bool × Node × Node)) :
    Nat → Nat → Object Node → Object Node → Option (Bool × Object Node × Object Node)
  | 0, _, scanned, looked => some (true, scanned, looked)
  | remaining + 1, i, scanned, looked => do
    let entry ← scanned.data[i]?
    let (slot, index) ← Index.findSlot looked.keys looked.index entry.1 true
    match slot with
    | none => some (false, scanned, { looked with index })
    | some pos =>
      let found ← looked.data[pos]?
      let (same, found', value') ← equal found.2 entry.2
      let looked := ({ looked with index } : Object Node).setValue pos found'
      let scanned := scanned.setValue i value'
      if same then scanEntries equal remaining (i + 1) scanned looked
      else some (false, scanned, looked)

/-- The index of the object on the right, which is built when neither object has one. -/
def probedIndex (this other : Object Node) : Option (Option Index) :=
  if this.index.isNone && other.index.isNone then Index.ensure other.keys other.index
  else some other.index

/-- `Object::operator==`. -/
def objectEqual (equal : Node → Node → Option (Bool × Node × Node)) (this other : Object Node) :
    Option (Bool × Object Node × Object Node) :=
  if this.data.length ≠ other.data.length then some (false, this, other)
  else do
    let index ← probedIndex this other
    let other := { other with index }
    if other.index.isSome || this.index.isNone then
      scanEntries equal this.data.length 0 this other
    else
      let (same, other, this) ← scanEntries equal other.data.length 0 other this
      some (same, this, other)

/-- The pairwise comparison of `Array::operator==`. -/
def elementsEqual (equal : Node → Node → Option (Bool × Node × Node)) :
    List Node → List Node → Option (Bool × List Node × List Node)
  | x :: xs, y :: ys => do
    let (same, x, y) ← equal x y
    if same then
      let (same, xs, ys) ← elementsEqual equal xs ys
      some (same, x :: xs, y :: ys)
    else some (false, x :: xs, y :: ys)
  | xs, ys => some (true, xs, ys)

/-- `Array::operator==`. -/
def arrayEqual (equal : Node → Node → Option (Bool × Node × Node)) (xs ys : List Node) :
    Option (Bool × List Node × List Node) :=
  if xs.length ≠ ys.length then some (false, xs, ys) else elementsEqual equal xs ys

/-- `operator==`, within a number of nested calls. -/
def equalWithin : Nat → Node → Node → Option (Bool × Node × Node)
  | 0, _, _ => none
  | fuel + 1, a, b =>
    match a, b with
    | stringView s, stringView t => some (s == t, a, b)
    | stringView s, stringOwned t => some (s == t, a, b)
    | stringOwned s, stringView t => some (s == t, a, b)
    | stringOwned s, stringOwned t => some (s == t, a, b)
    | null, null => some (true, a, b)
    | boolean x, boolean y => some (x == y, a, b)
    | integer x, integer y => some (x == y, a, b)
    | floating x, floating y => some (x.eq y, a, b)
    | array xs, array ys => do
      let (same, xs, ys) ← arrayEqual (equalWithin fuel) xs ys
      some (same, array xs, array ys)
    | object self, object other => do
      let (same, self, other) ← objectEqual (equalWithin fuel) self other
      some (same, object self, object other)
    | _, _ => some (false, a, b)

/-- `operator==`, which nests its calls no deeper than the trees are. -/
def equalAfter (a b : Node) : Option (Bool × Node × Node) :=
  equalWithin (max a.nesting b.nesting + 1) a b

/-- The verdict of `operator==`. -/
def equal (a b : Node) : Option Bool := (equalAfter a b).map (·.1)

/-! ### What a comparison leaves unchanged -/

/-- A node that was compared: its indexes may have changed, and hold the entries as before. -/
structure Keeps (before after : Node) : Prop where
  sound : after.Sound
  bare : after.bare = before.bare

theorem Keeps.refl {node : Node} (h : node.Sound) : Keeps node node := ⟨h, rfl⟩

theorem Keeps.trans {a b c : Node} (h : Keeps a b) (h' : Keeps b c) : Keeps a c :=
  ⟨h'.sound, h'.bare.trans h.bare⟩

theorem sound_array {elements : List Node} :
    (array elements).Sound ↔ ∀ value ∈ elements, value.Sound := by
  rw [Sound, all_array]
  exact ⟨fun h => h.2, fun h => ⟨trivial, h⟩⟩

theorem sound_object {self : Object Node} : (object self).Sound ↔
    Index.CacheHolds self.keys self.index ∧ ∀ entry ∈ self.data, entry.2.Sound := by
  rw [Sound, all_object]
  rfl

/-- A property that does not look at the indexes is a property of the bare tree. -/
theorem all_bare {P : Node → Prop} (hP : ∀ node, P node.bare ↔ P node) (node : Node) :
    node.bare.All P ↔ node.All P := by
  induction node using Node.induct with
  | array elements ih =>
      rw [bare_array, all_array, all_array, ← bare_array, hP, List.forall_mem_map]
      exact and_congr_right fun _ => forall₂_congr ih
  | object self ih =>
      rw [bare_object, all_object, all_object, ← bare_object, hP, List.forall_mem_map]
      exact and_congr_right fun _ => forall₂_congr ih
  | _ => exact hP _

theorem keys_bare {self : Object Node} (index : Option Index) :
    Object.keys { self with data := self.data.map fun entry => (entry.1, entry.2.bare), index } =
      self.keys := by
  simp [Object.keys, Function.comp_def]

theorem noDuplicates_bare (node : Node) : node.bare.NoDuplicates ↔ node.NoDuplicates := by
  refine all_bare (fun node => ?_) node
  cases node with
  | array elements => rw [bare_array]
  | object self => rw [bare_object]; simp only [keys_bare]
  | _ => rfl

theorem noNaN_bare (node : Node) : node.bare.NoNaN ↔ node.NoNaN := by
  refine all_bare (fun node => ?_) node
  cases node with
  | array elements => rw [bare_array]
  | object self => rw [bare_object]
  | _ => rfl

theorem indexable_bare (node : Node) : node.bare.Indexable ↔ node.Indexable := by
  refine all_bare (fun node => ?_) node
  cases node with
  | array elements => rw [bare_array]
  | object self => rw [bare_object]; simp only [keys_bare]
  | _ => rfl

/-- The entries of an object with the codes of their values. -/
def codes (self : Object Node) : List (Bytes × List ℤ) :=
  self.data.map fun entry => (entry.1, entry.2.code)

theorem code_codes (self : Object Node) :
    (object self).code = 6 :: Order.codeList codeEntry (sortByKey (codes self)) := by
  obtain ⟨data, index, resource⟩ := self
  rw [code, codeEntries_eq]
  rfl

theorem code_bare (node : Node) : node.bare.code = node.code := by
  induction node using Node.induct with
  | array elements ih =>
      rw [bare_array, code_array, code_array, codeList_map]
      congr 1
      exact Order.codeList_congr ih
  | object self ih =>
      rw [bare_object, code_codes, code_codes, codes, codes, List.map_map]
      congr 3
      refine List.map_congr_left fun entry hmem => ?_
      rw [Function.comp_apply, ih entry hmem]
  | _ => rfl

theorem nesting_bare (node : Node) : node.bare.nesting = node.nesting := by
  induction node using Node.induct with
  | array elements ih =>
      rw [bare_array, nesting, nesting]
      refine congrArg (· + 1) (Nat.le_antisymm ?_ ?_)
      · rw [nestingElements_le, List.forall_mem_map]
        exact fun value hmem => ih value hmem ▸ nestingElements_le.mp (Nat.le_refl _) value hmem
      · rw [nestingElements_le]
        intro value hmem
        rw [← ih value hmem]
        exact nestingElements_le.mp (Nat.le_refl _) _ (List.mem_map_of_mem hmem)
  | object self ih =>
      obtain ⟨data, index, resource⟩ := self
      rw [bare_object, nesting, nesting]
      refine congrArg (· + 1) (Nat.le_antisymm ?_ ?_)
      · rw [nestingEntries_le, List.forall_mem_map]
        exact fun entry hmem => ih entry hmem ▸ nestingEntries_le.mp (Nat.le_refl _) entry hmem
      · rw [nestingEntries_le]
        intro entry hmem
        rw [← ih entry hmem]
        exact nestingEntries_le.mp (Nat.le_refl _) _
          (List.mem_map_of_mem (f := fun entry : Bytes × Node => (entry.1, entry.2.bare)) hmem)
  | _ => rfl

/-- The trees that the ordering and the equality are specified for. -/
def Plain (node : Node) : Prop := node.NoDuplicates ∧ node.NoNaN

/-- The trees that can be compared within `fuel` nested calls. -/
def Within (fuel : Nat) (node : Node) : Prop := node.Indexable ∧ node.nesting < fuel

namespace Keeps

variable {before after : Node}

theorem plain (h : Keeps before after) : after.Plain ↔ before.Plain := by
  rw [Plain, Plain, ← noDuplicates_bare, ← noNaN_bare, h.bare, noDuplicates_bare, noNaN_bare]

theorem within (h : Keeps before after) {fuel : Nat} : after.Within fuel ↔ before.Within fuel := by
  rw [Within, Within, ← indexable_bare, ← nesting_bare, h.bare, indexable_bare, nesting_bare]

theorem code (h : Keeps before after) : after.code = before.code := by
  rw [← code_bare, h.bare, code_bare]

end Keeps

theorem plain_array {elements : List Node} (h : (array elements).Plain) :
    ∀ value ∈ elements, value.Plain := fun value hmem =>
  ⟨(all_array.mp h.1).2 value hmem, (all_array.mp h.2).2 value hmem⟩

theorem plain_object {self : Object Node} (h : (object self).Plain) :
    self.keys.Nodup ∧ ∀ entry ∈ self.data, entry.2.Plain :=
  ⟨(all_object.mp h.1).1, fun entry hmem =>
    ⟨(all_object.mp h.1).2 entry hmem, (all_object.mp h.2).2 entry hmem⟩⟩

theorem within_array {fuel : Nat} {elements : List Node} (h : (array elements).Within (fuel + 1)) :
    ∀ value ∈ elements, value.Within fuel := fun value hmem =>
  ⟨(all_array.mp h.1).2 value hmem, by
    have hlt := h.2
    rw [nesting] at hlt
    exact Nat.lt_of_le_of_lt (nestingElements_le.mp (Nat.le_refl _) value hmem) (by omega)⟩

theorem within_object {fuel : Nat} {self : Object Node} (h : (object self).Within (fuel + 1)) :
    self.keys.length ≤ Index.kMaxIndexed ∧ ∀ entry ∈ self.data, entry.2.Within fuel := by
  refine ⟨(all_object.mp h.1).1, fun entry hmem => ⟨(all_object.mp h.1).2 entry hmem, ?_⟩⟩
  have hlt := h.2
  obtain ⟨data, index, resource⟩ := self
  rw [nesting] at hlt
  have hle : entry.2.nesting ≤ nestingEntries data := nestingEntries_le.mp (Nat.le_refl _) entry hmem
  omega

/-! ### Comparing arrays -/

/-- What a comparison of `a` and `b` may answer: it returns if the indexes that one of the trees needs can
be built and the calls nest as deep as that tree; it keeps both trees; and its verdict is that the codes
are equal. -/
structure Answers (fuel : Nat) (a b : Node) (result : Option (Bool × Node × Node)) : Prop where
  returns : a.Within fuel ∨ b.Within fuel → ∃ answer, result = some answer
  keeps : ∀ same a' b', result = some (same, a', b') → Keeps a a' ∧ Keeps b b'
  verdict : ∀ same a' b', result = some (same, a', b') → a.Plain → b.Plain →
    (same = true ↔ a.code = b.code)

theorem keeps_array {xs xs' : List Node} (h : List.Forall₂ Keeps xs xs') :
    Keeps (array xs) (array xs') := by
  have hboth : (∀ value ∈ xs', value.Sound) ∧ xs'.map bare = xs.map bare := by
    induction h with
    | nil => exact ⟨fun _ hmem => absurd hmem List.not_mem_nil, rfl⟩
    | cons hkeeps _ ih =>
        rw [List.forall_mem_cons, List.map_cons, List.map_cons, hkeeps.bare, ih.2]
        exact ⟨⟨hkeeps.sound, ih.1⟩, rfl⟩
  exact ⟨sound_array.mpr hboth.1, by rw [bare_array, bare_array, hboth.2]⟩

theorem forall₂_keeps_refl {xs : List Node} (h : ∀ value ∈ xs, value.Sound) :
    List.Forall₂ Keeps xs xs :=
  List.forall₂_same.mpr fun value hmem => Keeps.refl (h value hmem)

section Loops

variable {fuel : Nat} {equal : Node → Node → Option (Bool × Node × Node)}
  (hequal : ∀ a b, a.Sound → b.Sound → Answers fuel a b (equal a b))
include hequal

theorem elementsEqual_returns {xs ys : List Node} (hxs : ∀ value ∈ xs, value.Sound)
    (hys : ∀ value ∈ ys, value.Sound)
    (hwithin : (∀ value ∈ xs, value.Within fuel) ∨ ∀ value ∈ ys, value.Within fuel) :
    ∃ answer, elementsEqual equal xs ys = some answer := by
  induction xs generalizing ys with
  | nil => exact ⟨_, rfl⟩
  | cons x xs ih =>
      cases ys with
      | nil => exact ⟨_, rfl⟩
      | cons y ys =>
          rw [List.forall_mem_cons] at hxs hys
          rw [List.forall_mem_cons, List.forall_mem_cons] at hwithin
          obtain ⟨⟨same, x', y'⟩, hanswer⟩ :=
            (hequal x y hxs.1 hys.1).returns (hwithin.imp And.left And.left)
          obtain ⟨⟨same', xs', ys'⟩, hrest⟩ := ih hxs.2 hys.2 (hwithin.imp And.right And.right)
          rw [elementsEqual, hanswer]
          cases same with
          | true => exact ⟨(same', x' :: xs', y' :: ys'), by simp [hrest]⟩
          | false => exact ⟨_, rfl⟩

theorem elementsEqual_spec {xs ys xs' ys' : List Node} {same : Bool}
    (hxs : ∀ value ∈ xs, value.Sound) (hys : ∀ value ∈ ys, value.Sound)
    (hlength : xs.length = ys.length) (h : elementsEqual equal xs ys = some (same, xs', ys')) :
    List.Forall₂ Keeps xs xs' ∧ List.Forall₂ Keeps ys ys' ∧
      ((∀ value ∈ xs, value.Plain) → (∀ value ∈ ys, value.Plain) →
        (same = true ↔ xs.map code = ys.map code)) := by
  induction xs generalizing ys same xs' ys' with
  | nil =>
      obtain rfl := List.eq_nil_of_length_eq_zero hlength.symm
      cases h
      exact ⟨.nil, .nil, fun _ _ => iff_of_true rfl rfl⟩
  | cons x xs ih =>
      cases ys with
      | nil => cases hlength
      | cons y ys =>
          rw [List.forall_mem_cons] at hxs hys
          have hanswers := hequal x y hxs.1 hys.1
          rw [elementsEqual] at h
          cases hanswer : equal x y with
          | none => rw [hanswer] at h; cases h
          | some answer =>
              obtain ⟨first, x', y'⟩ := answer
              obtain ⟨hx, hy⟩ := hanswers.keeps first x' y' hanswer
              have hverdict := hanswers.verdict first x' y' hanswer
              rw [hanswer, Option.bind_eq_bind, Option.bind_some] at h
              cases first with
              | false =>
                  cases h
                  refine ⟨.cons hx (forall₂_keeps_refl hxs.2), .cons hy (forall₂_keeps_refl hys.2),
                    fun hplain hplain' => ?_⟩
                  rw [List.forall_mem_cons] at hplain hplain'
                  rw [hverdict hplain.1 hplain'.1, List.map_cons, List.map_cons, List.cons.injEq]
                  have hne : x.code ≠ y.code := fun heq =>
                    Bool.false_ne_true ((hverdict hplain.1 hplain'.1).mpr heq)
                  exact ⟨fun heq => absurd heq hne, fun heq => heq.1⟩
              | true =>
                  simp only [if_true] at h
                  cases hrest : elementsEqual equal xs ys with
                  | none => rw [hrest] at h; cases h
                  | some rest =>
                      obtain ⟨same', xs₁, ys₁⟩ := rest
                      rw [hrest] at h
                      cases h
                      obtain ⟨hxs', hys', hall⟩ := ih hxs.2 hys.2 (Nat.succ.inj hlength) hrest
                      refine ⟨.cons hx hxs', .cons hy hys', fun hplain hplain' => ?_⟩
                      rw [List.forall_mem_cons] at hplain hplain'
                      rw [hall hplain.2 hplain'.2, List.map_cons, List.map_cons, List.cons.injEq,
                        ← hverdict hplain.1 hplain'.1, eq_self, true_and]

end Loops

/-- Elements with different codes have no common prefix. -/
theorem codeList_code {xs ys : List Node} :
    Order.codeList code xs = Order.codeList code ys ↔ xs.map code = ys.map code :=
  Order.codeList_inj fun x _ y _ _ _ heq => (verdict x y).append_inj heq

theorem arrayEqual_answers {fuel : Nat} {equal : Node → Node → Option (Bool × Node × Node)}
    (hequal : ∀ a b, a.Sound → b.Sound → Answers fuel a b (equal a b)) {xs ys : List Node}
    (hxs : (array xs).Sound) (hys : (array ys).Sound) :
    Answers (fuel + 1) (array xs) (array ys) (do
      let (same, xs, ys) ← arrayEqual equal xs ys
      some (same, array xs, array ys)) := by
  have hcode : (array xs).code = (array ys).code ↔ xs.map code = ys.map code := by
    rw [code_array, code_array, List.cons.injEq, codeList_code, eq_self, true_and]
  by_cases hlength : xs.length = ys.length
  · rw [arrayEqual, if_neg (not_not.mpr hlength)]
    constructor
    · intro hwithin
      obtain ⟨⟨same, xs', ys'⟩, hanswer⟩ := elementsEqual_returns hequal (sound_array.mp hxs)
        (sound_array.mp hys) (hwithin.imp within_array within_array)
      exact ⟨(same, array xs', array ys'), by rw [hanswer]; rfl⟩
    · intro same a' b' h
      cases hrest : elementsEqual equal xs ys with
      | none => rw [hrest] at h; cases h
      | some rest =>
          rw [hrest] at h
          cases h
          obtain ⟨hxs', hys', -⟩ := elementsEqual_spec hequal (sound_array.mp hxs)
            (sound_array.mp hys) hlength hrest
          exact ⟨keeps_array hxs', keeps_array hys'⟩
    · intro same a' b' h ha hb
      cases hrest : elementsEqual equal xs ys with
      | none => rw [hrest] at h; cases h
      | some rest =>
          rw [hrest] at h
          cases h
          obtain ⟨-, -, hverdict⟩ := elementsEqual_spec hequal (sound_array.mp hxs)
            (sound_array.mp hys) hlength hrest
          rw [hverdict (plain_array ha) (plain_array hb), hcode]
  · rw [arrayEqual, if_pos hlength]
    refine ⟨fun _ => ⟨_, rfl⟩, fun same a' b' h => ?_, fun same a' b' h _ _ => ?_⟩
    · cases h
      exact ⟨.refl hxs, .refl hys⟩
    · cases h
      refine iff_of_false Bool.false_ne_true fun heq => hlength ?_
      simpa using congrArg List.length (hcode.mp heq)

/-! ### Comparing objects -/

/-- What two objects that keep each other agree on. -/
theorem Keeps.data {self self' : Object Node} (h : Keeps (object self) (object self')) :
    self'.data.map (fun entry => (entry.1, entry.2.bare)) =
      self.data.map fun entry => (entry.1, entry.2.bare) := by
  have hbare := h.bare
  rw [bare_object, bare_object] at hbare
  injection hbare with hself
  exact congrArg Object.data hself

theorem Keeps.codes {self self' : Object Node} (h : Keeps (object self) (object self')) :
    codes self' = codes self := by
  have hmap := congrArg (List.map fun entry : Bytes × Node => (entry.1, entry.2.code)) h.data
  simpa [Function.comp_def, code_bare, Node.codes] using hmap

theorem keys_codes (self : Object Node) : (codes self).map (·.1) = self.keys := by
  simp [codes, Object.keys, Function.comp_def]

theorem Keeps.keys {self self' : Object Node} (h : Keeps (object self) (object self')) :
    self'.keys = self.keys := by
  rw [← keys_codes, ← keys_codes, h.codes]

theorem length_codes (self : Object Node) : (codes self).length = self.data.length :=
  List.length_map _

theorem length_keys (self : Object Node) : self.keys.length = self.data.length :=
  List.length_map _

theorem getElem?_keys {self : Object Node} {pos : Nat} {key : Bytes} :
    self.keys[pos]? = some key ↔ ∃ value, self.data[pos]? = some (key, value) := by
  rw [Object.keys, List.getElem?_map, Option.map_eq_some_iff]
  constructor
  · rintro ⟨⟨_, value⟩, hentry, rfl⟩
    exact ⟨value, hentry⟩
  · rintro ⟨value, hentry⟩
    exact ⟨_, hentry, rfl⟩

theorem keeps_index {self : Object Node} (h : (object self).Sound) {index : Option Index}
    (hindex : Index.CacheHolds self.keys index) :
    Keeps (object self) (object { self with index }) := by
  refine ⟨sound_object.mpr ⟨hindex, (sound_object.mp h).2⟩, ?_⟩
  rw [bare_object, bare_object]

theorem keeps_setValue {self : Object Node} (h : (object self).Sound) {pos : Nat}
    {entry : Bytes × Node} (hentry : self.data[pos]? = some entry) {value : Node}
    (hvalue : Keeps entry.2 value) : Keeps (object self) (object (self.setValue pos value)) := by
  have hmap : ∀ {β : Type} (f : Bytes × Node → β), f (entry.1, value) = f entry →
      (self.setValue pos value).data.map f = self.data.map f := by
    intro β f hf
    refine List.ext_getElem? fun i => ?_
    rw [List.getElem?_map, List.getElem?_map, Object.setValue, List.getElem?_modify]
    by_cases hi : pos = i
    · subst hi
      simp [hentry, hf]
    · simp [hi]
  have hkeys : (self.setValue pos value).keys = self.keys := hmap _ rfl
  constructor
  · rw [sound_object, hkeys]
    refine ⟨(sound_object.mp h).1, fun other hmem => ?_⟩
    obtain ⟨i, hi⟩ := List.getElem?_of_mem hmem
    rw [Object.setValue, List.getElem?_modify] at hi
    obtain ⟨old, hold, rfl⟩ := Option.map_eq_some_iff.mp hi
    split
    · exact hvalue.sound
    · exact (sound_object.mp h).2 old (List.mem_of_getElem? hold)
  · rw [bare_object, bare_object, hmap _ (by rw [hvalue.bare])]
    rfl

/-- With different keys, an entry is there if the first entry with its key is it. -/
theorem mem_codes_iff {self : Object Node} (hnodup : self.keys.Nodup) {pos : Nat} {key : Bytes}
    {value : Node} (hentry : self.data[pos]? = some (key, value)) {c : List ℤ} :
    (key, c) ∈ codes self ↔ value.code = c := by
  have hmem : (key, value.code) ∈ codes self :=
    List.mem_map_of_mem (f := fun entry : Bytes × Node => (entry.1, entry.2.code))
      (List.mem_of_getElem? hentry)
  constructor
  · intro hc
    rw [← keys_codes] at hnodup
    have := List.inj_on_of_nodup_map hnodup hmem hc rfl
    exact congrArg Prod.snd this
  · rintro rfl
    exact hmem

section Loops

variable {fuel : Nat} {equal : Node → Node → Option (Bool × Node × Node)}
  (hequal : ∀ a b, a.Sound → b.Sound → Answers fuel a b (equal a b))
include hequal

theorem scanEntries_returns {remaining i : Nat} {scanned looked : Object Node}
    (hi : i + remaining = scanned.data.length) (hscanned : (object scanned).Sound)
    (hlooked : (object looked).Sound)
    (hwithin : (object scanned).Within (fuel + 1) ∨ (object looked).Within (fuel + 1)) :
    ∃ answer, scanEntries equal remaining i scanned looked = some answer := by
  induction remaining generalizing i scanned looked with
  | zero => exact ⟨_, rfl⟩
  | succ remaining ih =>
      obtain ⟨entry, hentry⟩ : ∃ entry, scanned.data[i]? = some entry :=
        ⟨_, List.getElem?_eq_getElem (by omega)⟩
      have hmem := List.mem_of_getElem? hentry
      obtain ⟨index, hfind, hindex, -⟩ :=
        Index.findSlot_spec (sound_object.mp hlooked).1 entry.1 true
      rw [scanEntries, hentry]
      simp only [Option.bind_eq_bind, Option.bind_some, hfind]
      cases hmatch : firstMatch looked.keys entry.1 with
      | none => exact ⟨_, rfl⟩
      | some pos =>
          obtain ⟨found, hfound⟩ := getElem?_keys.mp (firstMatch_eq_some.mp hmatch).1
          have hmem' := List.mem_of_getElem? hfound
          have hanswers := hequal found entry.2 ((sound_object.mp hlooked).2 _ hmem')
            ((sound_object.mp hscanned).2 _ hmem)
          obtain ⟨⟨same, found', value'⟩, hanswer⟩ := hanswers.returns
            (hwithin.symm.imp (fun h => (within_object h).2 _ hmem') fun h => (within_object h).2 _ hmem)
          obtain ⟨hkeeps, hkeeps'⟩ := hanswers.keeps _ _ _ hanswer
          have hkept := (keeps_index hlooked hindex).trans
            (keeps_setValue (keeps_index hlooked hindex).sound hfound hkeeps)
          have hkept' := keeps_setValue hscanned hentry hkeeps'
          simp only [hfound, Option.bind_some, hanswer]
          cases same with
          | false => exact ⟨_, rfl⟩
          | true =>
              refine ih ?_ hkept'.sound hkept.sound
                (hwithin.imp hkept'.within.mpr hkept.within.mpr)
              rw [Object.setValue, List.length_modify]
              omega

theorem scanEntries_spec {remaining i : Nat} {scanned looked scanned' looked' : Object Node}
    {same : Bool} (hi : i + remaining = scanned.data.length) (hscanned : (object scanned).Sound)
    (hlooked : (object looked).Sound)
    (h : scanEntries equal remaining i scanned looked = some (same, scanned', looked')) :
    Keeps (object scanned) (object scanned') ∧ Keeps (object looked) (object looked') ∧
      ((object scanned).Plain → (object looked).Plain →
        (same = true ↔ ∀ p ∈ (codes scanned).drop i, p ∈ codes looked)) := by
  induction remaining generalizing i scanned looked with
  | zero =>
      cases h
      refine ⟨.refl hscanned, .refl hlooked, fun _ _ => iff_of_true rfl fun p hp => ?_⟩
      rw [List.drop_eq_nil_of_le (by rw [length_codes]; omega)] at hp
      cases hp
  | succ remaining ih =>
      obtain ⟨⟨key, value⟩, hentry⟩ : ∃ entry, scanned.data[i]? = some entry :=
        ⟨_, List.getElem?_eq_getElem (by omega)⟩
      have hmem := List.mem_of_getElem? hentry
      have hdrop : (codes scanned).drop i = (key, value.code) :: (codes scanned).drop (i + 1) := by
        have hlt : i < (codes scanned).length := by rw [length_codes]; omega
        have hget : (codes scanned)[i]? = some (key, value.code) := by
          rw [codes, List.getElem?_map, hentry]
          rfl
        rw [List.getElem?_eq_getElem hlt] at hget
        rw [List.drop_eq_getElem_cons hlt, Option.some.inj hget]
      obtain ⟨index, hfind, hindex, -⟩ := Index.findSlot_spec (sound_object.mp hlooked).1 key true
      rw [scanEntries, hentry] at h
      simp only [Option.bind_eq_bind, Option.bind_some, hfind] at h
      rw [hdrop]
      cases hmatch : firstMatch looked.keys key with
      | none =>
          rw [hmatch] at h
          cases h
          refine ⟨.refl hscanned, keeps_index hlooked hindex, fun _ _ =>
            iff_of_false Bool.false_ne_true fun hall => ?_⟩
          have hkey := List.mem_map_of_mem (f := (·.1)) (hall _ List.mem_cons_self)
          rw [keys_codes] at hkey
          exact firstMatch_eq_none.mp hmatch hkey
      | some pos =>
          obtain ⟨found, hfound⟩ := getElem?_keys.mp (firstMatch_eq_some.mp hmatch).1
          have hmem' := List.mem_of_getElem? hfound
          have hanswers := hequal found value ((sound_object.mp hlooked).2 _ hmem')
            ((sound_object.mp hscanned).2 _ hmem)
          rw [hmatch] at h
          simp only [hfound, Option.bind_some] at h
          cases hanswer : equal found value with
          | none => rw [hanswer] at h; cases h
          | some answer =>
              obtain ⟨first, found', value'⟩ := answer
              obtain ⟨hkeeps, hkeeps'⟩ := hanswers.keeps _ _ _ hanswer
              have hkept := (keeps_index hlooked hindex).trans
                (keeps_setValue (keeps_index hlooked hindex).sound hfound hkeeps)
              have hkept' := keeps_setValue hscanned hentry hkeeps'
              have hfirst : (object scanned).Plain → (object looked).Plain →
                  (first = true ↔ (key, value.code) ∈ codes looked) := fun hplain hplain' => by
                rw [hanswers.verdict _ _ _ hanswer ((plain_object hplain').2 _ hmem')
                  ((plain_object hplain).2 _ hmem)]
                exact (mem_codes_iff (plain_object hplain').1 hfound).symm
              rw [hanswer] at h
              simp only [Option.bind_some] at h
              cases first with
              | false =>
                  cases h
                  refine ⟨hkept', hkept, fun hplain hplain' =>
                    iff_of_false Bool.false_ne_true fun hall => ?_⟩
                  exact Bool.false_ne_true
                    ((hfirst hplain hplain').mpr (hall _ List.mem_cons_self))
              | true =>
                  simp only [if_true] at h
                  have hi' : i + 1 + remaining = (scanned.setValue i value').data.length := by
                    rw [Object.setValue, List.length_modify]
                    omega
                  obtain ⟨hrest, hrest', hall⟩ := ih hi' hkept'.sound hkept.sound h
                  refine ⟨hkept'.trans hrest, hkept.trans hrest', fun hplain hplain' => ?_⟩
                  rw [hall (hkept'.plain.mpr hplain) (hkept.plain.mpr hplain'), hkept'.codes,
                    hkept.codes, List.forall_mem_cons]
                  exact ⟨fun hmore => ⟨(hfirst hplain hplain').mp rfl, hmore⟩, fun hmore => hmore.2⟩

end Loops

theorem sortByKey_perm {ν : Type} {xs ys : List (Bytes × ν)} (hxs : (xs.map (·.1)).Nodup)
    (h : xs.Perm ys) : sortByKey xs = sortByKey ys := by
  have hsorted : ∀ zs : List (Bytes × ν),
      (sortByKey zs).Pairwise fun p q => (!bytesLess q.1 p.1) = true := fun zs => by
    refine List.pairwise_mergeSort (fun p q r hpq hqr => ?_) (fun p q => ?_) zs
    · rw [Bool.not_eq_true'] at hpq hqr ⊢
      rw [← Bool.not_eq_true, (verdict_bytes _ _).lt_iff, not_lt] at hpq hqr ⊢
      exact hpq.trans hqr
    · rw [Bool.or_eq_true, Bool.not_eq_true', Bool.not_eq_true', ← Bool.not_eq_true,
        ← Bool.not_eq_true, (verdict_bytes _ _).lt_iff, (verdict_bytes _ _).lt_iff, not_lt, not_lt]
      exact le_total _ _
  refine List.Perm.eq_of_pairwise (fun p q hp hq hpq hqp => ?_) (hsorted xs) (hsorted ys) ?_
  · rw [Bool.not_eq_true', ← Bool.not_eq_true, (verdict_bytes _ _).lt_iff, not_lt] at hpq hqp
    refine List.inj_on_of_nodup_map hxs (mem_sortByKey.mp hp) (h.mem_iff.mpr (mem_sortByKey.mp hq)) ?_
    exact codeBytes_inj.mp (le_antisymm hpq hqp)
  · exact (List.mergeSort_perm _ _).trans (h.trans (List.mergeSort_perm _ _).symm)

/-- Entries with different keys have one sorted order. -/
theorem sortByKey_eq_iff {xs ys : List (Bytes × List ℤ)} (hxs : (xs.map (·.1)).Nodup)
    (hlength : xs.length = ys.length) :
    sortByKey xs = sortByKey ys ↔ ∀ p ∈ xs, p ∈ ys := by
  constructor
  · intro heq p hp
    rwa [← mem_sortByKey, ← heq, mem_sortByKey]
  · intro hsubset
    have hperm : xs.Perm ys :=
      (hxs.of_map.subperm fun p hp => hsubset p hp).perm_of_length_le hlength.ge
    exact sortByKey_perm hxs hperm

theorem code_object_iff (self other : Object Node) :
    (object self).code = (object other).code ↔ sortByKey (codes self) = sortByKey (codes other) := by
  have hvalue : ∀ {self : Object Node} {p : Bytes × List ℤ}, p ∈ sortByKey (codes self) →
      ∃ value : Node, p.2 = value.code := by
    intro self p hp
    obtain ⟨entry, -, rfl⟩ := List.mem_map.mp (mem_sortByKey.mp hp)
    exact ⟨entry.2, rfl⟩
  have hinj : ∀ p ∈ sortByKey (codes self), ∀ q ∈ sortByKey (codes other), ∀ s t,
      codeEntry p ++ s = codeEntry q ++ t → p = q ∧ s = t := by
    intro p hp q hq s t heq
    obtain ⟨value, hvalue₁⟩ := hvalue hp
    obtain ⟨value', hvalue₂⟩ := hvalue hq
    rw [codeEntry, codeEntry, List.append_assoc, List.append_assoc] at heq
    obtain ⟨hkey, hrest⟩ := (verdict_bytes p.1 q.1).append_inj heq
    rw [hvalue₁, hvalue₂] at hrest
    obtain ⟨hcode, hst⟩ := (verdict value value').append_inj hrest
    exact ⟨Prod.ext (codeBytes_inj.mp hkey) (by rw [hvalue₁, hvalue₂, hcode]), hst⟩
  rw [code_codes, code_codes, List.cons.injEq, eq_self, true_and]
  refine ⟨fun h => ?_, fun h => by rw [h]⟩
  refine Order.codeList_injective (fun p hp q hq s t heq => ?_) h
  exact hinj p hp q hq s t heq

/-- Equal codes of two objects without repeated keys mean the same entries. -/
theorem code_object_subset {self other : Object Node} (hnodup : self.keys.Nodup)
    (hlength : self.data.length = other.data.length) :
    (object self).code = (object other).code ↔ ∀ p ∈ codes self, p ∈ codes other := by
  rw [code_object_iff, sortByKey_eq_iff]
  · rwa [keys_codes]
  · rw [length_codes, length_codes, hlength]

theorem probedIndex_holds {this other : Object Node} {index : Option Index}
    (h : Index.CacheHolds other.keys other.index) (hindex : probedIndex this other = some index) :
    Index.CacheHolds other.keys index := by
  rw [probedIndex] at hindex
  split at hindex
  · exact Index.ensure_holds h hindex
  · cases hindex
    exact h

theorem probedIndex_returns {this other : Object Node} (h : Index.CacheHolds other.keys other.index)
    (hmax : other.keys.length ≤ Index.kMaxIndexed) :
    ∃ index, probedIndex this other = some index := by
  rw [probedIndex]
  split
  · obtain ⟨index, hindex, -⟩ := Index.ensure_spec h (.inr hmax)
    exact ⟨index, hindex⟩
  · exact ⟨_, rfl⟩

theorem objectEqual_answers {fuel : Nat} {equal : Node → Node → Option (Bool × Node × Node)}
    (hequal : ∀ a b, a.Sound → b.Sound → Answers fuel a b (equal a b)) {this other : Object Node}
    (hthis : (object this).Sound) (hother : (object other).Sound) :
    Answers (fuel + 1) (object this) (object other) (do
      let (same, this, other) ← objectEqual equal this other
      some (same, object this, object other)) := by
  by_cases hlength : this.data.length = other.data.length
  · rw [objectEqual, if_neg (not_not.mpr hlength)]
    have hholds := fun index => @probedIndex_holds this other index (sound_object.mp hother).1
    have hreturns := @probedIndex_returns this other (sound_object.mp hother).1
    have hmax : (object this).Within (fuel + 1) ∨ (object other).Within (fuel + 1) →
        other.keys.length ≤ Index.kMaxIndexed := by
      rintro (h | h)
      · rw [length_keys, ← hlength, ← length_keys]
        exact (within_object h).1
      · exact (within_object h).1
    generalize probedIndex this other = prepared at hholds hreturns
    cases prepared with
    | none =>
        refine ⟨fun hwithin => ?_, fun _ _ _ h => ?_, fun _ _ _ h => ?_⟩
        · obtain ⟨_, h⟩ := hreturns (hmax hwithin)
          cases h
        · cases h
        · cases h
    | some index =>
        have hkept := keeps_index hother (hholds index rfl)
        simp only [Option.bind_eq_bind, Option.bind_some]
        split
        · -- the entries of `this` are looked up in `other`
          constructor
          · intro hwithin
            obtain ⟨⟨same, this', other'⟩, hanswer⟩ := scanEntries_returns hequal (Nat.zero_add _)
              hthis hkept.sound (hwithin.imp id hkept.within.mpr)
            exact ⟨(same, object this', object other'), by rw [hanswer]; rfl⟩
          · intro same a' b' h
            obtain ⟨⟨same', this', other'⟩, hanswer, heq⟩ := Option.bind_eq_some_iff.mp h
            cases heq
            obtain ⟨hthis', hother', -⟩ :=
              scanEntries_spec hequal (Nat.zero_add _) hthis hkept.sound hanswer
            exact ⟨hthis', hkept.trans hother'⟩
          · intro same a' b' h ha hb
            obtain ⟨⟨same', this', other'⟩, hanswer, heq⟩ := Option.bind_eq_some_iff.mp h
            cases heq
            obtain ⟨-, -, hverdict⟩ :=
              scanEntries_spec hequal (Nat.zero_add _) hthis hkept.sound hanswer
            rw [hverdict ha (hkept.plain.mpr hb), List.drop_zero, hkept.codes,
              code_object_subset (plain_object ha).1 hlength]
        · -- only `this` has an index, so the entries of `other` are looked up in it
          constructor
          · intro hwithin
            obtain ⟨⟨same, other', this'⟩, hanswer⟩ := scanEntries_returns hequal (Nat.zero_add _)
              hkept.sound hthis (hwithin.symm.imp hkept.within.mpr id)
            exact ⟨(same, object this', object other'), by rw [hanswer]; rfl⟩
          · intro same a' b' h
            obtain ⟨⟨same', this', other'⟩, hbind, heq⟩ := Option.bind_eq_some_iff.mp h
            cases heq
            obtain ⟨⟨same'', other'', this''⟩, hanswer, heq⟩ := Option.bind_eq_some_iff.mp hbind
            cases heq
            obtain ⟨hother', hthis', -⟩ :=
              scanEntries_spec hequal (Nat.zero_add _) hkept.sound hthis hanswer
            exact ⟨hthis', hkept.trans hother'⟩
          · intro same a' b' h ha hb
            obtain ⟨⟨same', this', other'⟩, hbind, heq⟩ := Option.bind_eq_some_iff.mp h
            cases heq
            obtain ⟨⟨same'', other'', this''⟩, hanswer, heq⟩ := Option.bind_eq_some_iff.mp hbind
            cases heq
            obtain ⟨-, -, hverdict⟩ :=
              scanEntries_spec hequal (Nat.zero_add _) hkept.sound hthis hanswer
            rw [hverdict (hkept.plain.mpr hb) ha, List.drop_zero, hkept.codes, eq_comm,
              code_object_subset (plain_object hb).1 hlength.symm]
  · rw [objectEqual, if_pos hlength]
    refine ⟨fun _ => ⟨_, rfl⟩, fun same a' b' h => ?_, fun same a' b' h _ _ => ?_⟩
    · cases h
      exact ⟨.refl hthis, .refl hother⟩
    · cases h
      refine iff_of_false Bool.false_ne_true fun heq => hlength ?_
      have hsorted := congrArg List.length ((code_object_iff this other).mp heq)
      simpa [sortByKey, length_codes] using hsorted

/-! ### The verdict -/

theorem floating_code_iff {x y : Double} (hx : x.isNaN = false) (hy : y.isNaN = false) :
    (floating x).code = (floating y).code ↔ x.eq y = true := by
  have hzero : ∀ d : Double, d.isZero = true ↔ d.magnitude = 0 := by
    intro d
    have hlt := d.bits.isLt
    simp only [Double.isZero, Double.exponentField, Double.fractionField, Double.magnitude,
      Nat.shiftRight_eq_div_pow, Bool.and_eq_true, beq_iff_eq]
    omega
  have hlt := x.bits.isLt
  have hlt' := y.bits.isLt
  rw [code, code, hx, hy]
  simp only [Bool.false_eq_true, if_false, List.cons.injEq, and_true, true_and, Double.eq, hx, hy,
    Bool.not_false, Bool.true_and, Bool.or_eq_true, Bool.and_eq_true, hzero, beq_iff_eq,
    ← BitVec.toNat_inj, Double.order, Double.magnitude]
  split <;> split <;> omega

/-- A comparison of scalars, or of different kinds of nodes, changes nothing. -/
theorem answers_of_some {fuel : Nat} {a b : Node} {same : Bool} (ha : a.Sound) (hb : b.Sound)
    (hverdict : a.NoNaN → b.NoNaN → (same = true ↔ a.code = b.code)) :
    Answers fuel a b (some (same, a, b)) where
  returns _ := ⟨_, rfl⟩
  keeps same' a' b' h := by
    cases h
    exact ⟨.refl ha, .refl hb⟩
  verdict same' a' b' h hplain hplain' := by
    cases h
    exact hverdict hplain.2 hplain'.2

theorem code_ne_of_rank {a b : Node} (h : a.rank ≠ b.rank) : a.code ≠ b.code := by
  obtain ⟨rest, hrest⟩ := code_rank a
  obtain ⟨rest', hrest'⟩ := code_rank b
  rw [hrest, hrest']
  exact fun heq => h (Int.ofNat_inj.mp (List.cons.inj heq).1)

theorem equalWithin_answers (fuel : Nat) (a b : Node) (ha : a.Sound) (hb : b.Sound) :
    Answers fuel a b (equalWithin fuel a b) := by
  induction fuel generalizing a b with
  | zero =>
      refine ⟨fun h => h.elim (fun h => absurd h.2 (Nat.not_lt_zero _))
        fun h => absurd h.2 (Nat.not_lt_zero _), fun _ _ _ h => ?_, fun _ _ _ h => ?_⟩
      · cases h
      · cases h
  | succ fuel ih =>
      rw [equalWithin.eq_def]
      have hkinds : a.rank ≠ b.rank → Answers (fuel + 1) a b (some (false, a, b)) := fun hrank =>
        answers_of_some ha hb fun _ _ => iff_of_false Bool.false_ne_true (code_ne_of_rank hrank)
      have hstrings : ∀ s t : Bytes, a.code = 4 :: codeBytes s → b.code = 4 :: codeBytes t →
          Answers (fuel + 1) a b (some (s == t, a, b)) := fun s t hs ht =>
        answers_of_some ha hb fun _ _ => by
          rw [hs, ht, List.cons.injEq, eq_self, true_and, codeBytes_inj, beq_iff_eq]
      cases a with
      | null =>
          cases b with
          | null => exact answers_of_some ha hb fun _ _ => iff_of_true rfl rfl
          | _ => exact hkinds (by simp [rank])
      | boolean x =>
          cases b with
          | boolean y =>
              refine answers_of_some ha hb fun _ _ => ?_
              cases x <;> cases y <;> simp [code]
          | _ => exact hkinds (by simp [rank])
      | integer x =>
          cases b with
          | integer y =>
              refine answers_of_some ha hb fun _ _ => ?_
              simp [code, Int64.toInt_inj]
          | _ => exact hkinds (by simp [rank])
      | floating x =>
          cases b with
          | floating y => exact answers_of_some ha hb fun hx hy => (floating_code_iff hx hy).symm
          | _ => exact hkinds (by simp [rank])
      | stringView s =>
          cases b with
          | stringView t => exact hstrings s t rfl rfl
          | stringOwned t => exact hstrings s t rfl rfl
          | _ => exact hkinds (by simp [rank])
      | stringOwned s =>
          cases b with
          | stringView t => exact hstrings s t rfl rfl
          | stringOwned t => exact hstrings s t rfl rfl
          | _ => exact hkinds (by simp [rank])
      | array xs =>
          cases b with
          | array ys => exact arrayEqual_answers ih ha hb
          | _ => exact hkinds (by simp [rank])
      | object this =>
          cases b with
          | object other => exact objectEqual_answers ih ha hb
          | _ => exact hkinds (by simp [rank])

/-- `operator==` returns if the objects of one of the trees can be indexed, since objects of different sizes
are told apart by their sizes. It keeps both trees, and its verdict is that their codes are equal,
whatever the state of their indexes. -/
theorem equalAfter_spec {a b : Node} (ha : a.Sound) (hb : b.Sound) (hindex : a.Indexable ∨ b.Indexable) :
    ∃ same a' b', equalAfter a b = some (same, a', b') ∧ Keeps a a' ∧ Keeps b b' ∧
      (a.Plain → b.Plain → (same = true ↔ a.code = b.code)) := by
  have hanswers := equalWithin_answers (max a.nesting b.nesting + 1) a b ha hb
  obtain ⟨⟨same, a', b'⟩, hanswer⟩ := hanswers.returns
    (hindex.imp (fun h => ⟨h, Nat.lt_succ_of_le (Nat.le_max_left _ _)⟩)
      fun h => ⟨h, Nat.lt_succ_of_le (Nat.le_max_right _ _)⟩)
  obtain ⟨hkeeps, hkeeps'⟩ := hanswers.keeps _ _ _ hanswer
  exact ⟨same, a', b', hanswer, hkeeps, hkeeps', hanswers.verdict _ _ _ hanswer⟩

end Node
end PjhJson
