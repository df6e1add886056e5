import PjhJson.LibMembers
import PjhJson.ObjectOps

/-! What each operation of `Object` does to the entries, and how many entries an object can have that
was built by operations: an index counts its slots in 32 bits, and every appended entry goes into an
index unless there are few. -/

namespace PjhJson

namespace Index

variable {keys : List Bytes} {index : Option Index} {key : Bytes} {pos : Nat}

/-- An index is there for at most `kMaxIndexed` entries, the erased one of a stale index included. -/
def Limited (keys : List Bytes) (index : Option Index) : Prop := ∀ present, index = some present →
  keys.length + (if present.stale then 1 else 0) ≤ kMaxIndexed

theorem limited_none (keys : List Bytes) : Limited keys none := by
  intro present h
  cases h

theorem limited_fresh {index : Index} (hfresh : index.stale = false)
    (hle : keys.length ≤ kMaxIndexed) : Limited keys (some index) := by
  intro present h
  cases h
  rwa [hfresh, if_neg Bool.false_ne_true]

theorem build_limited {fresh : Index} (hne : keys ≠ []) (h : build keys = some fresh) :
    keys.length ≤ kMaxIndexed ∧ Limited keys (some fresh) := by
  have hle : keys.length ≤ kMaxIndexed := by
    by_contra hgt
    rw [build_eq_none (Nat.lt_of_not_le hgt)] at h
    cases h
  obtain ⟨fresh', hbuild, -, hfresh⟩ := build_spec hne hle
  rw [h] at hbuild
  cases hbuild
  exact ⟨hle, limited_fresh hfresh hle⟩

theorem findSlot_limited (h : CacheHolds keys index) (hlimited : Limited keys index)
    {rebuild : Bool} {slot : Option Nat} {index' : Option Index}
    (hfind : findSlot keys index key rebuild = some (slot, index')) : Limited keys index' := by
  cases index with
  | none =>
      cases hfind
      exact limited_none keys
  | some index =>
      rw [findSlot] at hfind
      split at hfind
      · obtain ⟨index'', hrefresh, -, hfresh⟩ := refresh_spec (h index rfl)
        rw [hrefresh, Option.bind_eq_bind, Option.bind_some] at hfind
        obtain ⟨outcome, -, hfind⟩ := Option.bind_eq_some_iff.mp hfind
        have hle := hlimited index rfl
        cases outcome <;> cases hfind <;> exact limited_fresh hfresh (by omega)
      · cases hfind
        exact hlimited

/-- An index of distinct keys is rebuilt before it is more than half full. -/
theorem length_lt_of_room {index : Index} (h : Holds keys index) (hnodup : keys.Nodup)
    (hfresh : index.stale = false) (hroom : (index.size.toNat + 1) * 2 ≤ index.cap.toNat) :
    keys.length < kMaxIndexed := by
  obtain ⟨stored, hstores⟩ := h.fresh hfresh
  have hcard := hstores.card_le
  rw [List.toFinset_card_of_nodup hnodup, ← hstores.size] at hcard
  obtain ⟨k, hk⟩ := h.roomy.power
  have hlt := h.roomy.lt
  have hle : index.slots.length ≤ 2 ^ 31 := by
    rw [hk] at hlt ⊢
    exact Nat.pow_le_pow_right (by decide) (Nat.le_of_lt_succ ((Nat.pow_lt_pow_iff_right (by decide)).mp hlt))
  rw [h.roomy.cap] at hroom
  rw [kMaxIndexed]
  omega

/-- Where an appended entry was noted, there was room for it. -/
theorem noteAppend_limited (h : CacheHolds keys index) (hlimited : Limited keys index)
    (hnodup : keys.Nodup) (hnew : key ∉ keys) {index' : Option Index}
    (hnote : noteAppend (keys ++ [key]) index keys.length = some index') :
    keys.length < kMaxIndexed ∧ Limited (keys ++ [key]) index' := by
  have hlength : (keys ++ [key]).length = keys.length + 1 := List.length_append
  have hne : keys ++ [key] ≠ [] := List.append_ne_nil_of_right_ne_nil _ (List.cons_ne_nil _ _)
  have hbuilt : (build (keys ++ [key])).map some = some index' →
      keys.length < kMaxIndexed ∧ Limited (keys ++ [key]) index' := by
    intro hbuild
    obtain ⟨fresh, hfresh, rfl⟩ := Option.map_eq_some_iff.mp hbuild
    have hboth := build_limited hne hfresh
    rwa [hlength] at hboth
  cases index with
  | none =>
      rw [noteAppend] at hnote
      split at hnote
      · exact hbuilt hnote
      · rename_i hsmall
        cases hnote
        rw [hlength, kIndexThreshold] at hsmall
        exact ⟨by rw [kMaxIndexed]; omega, limited_none _⟩
  | some index =>
      have hholds := h index rfl
      have hle := hlimited index rfl
      have hroom := hholds.roomy.room
      have hspare := hholds.roomy.repeats
      have hrepeats := @repeats_append keys key hnew
      rw [noteAppend] at hnote
      by_cases hstale : index.stale = true
      · rw [if_pos hstale] at hnote hle hroom
        obtain ⟨index₁, hrefill, -, hfresh⟩ := @refill_spec (keys ++ [key]) index
          ⟨hholds.roomy.cap, hholds.roomy.power, by omega, by rw [hrepeats]; exact hspare⟩
        rw [hrefill] at hnote
        cases hnote
        exact ⟨hle, limited_fresh hfresh (by omega)⟩
      · rw [if_neg hstale] at hnote
        split at hnote
        · exact hbuilt hnote
        · rename_i hhalf
          have hfalse : index.stale = false := Bool.not_eq_true _ ▸ hstale
          have hlt := length_lt_of_room hholds hnodup hfalse (Nat.le_of_not_lt hhalf)
          obtain ⟨index₁, hinsert, heq⟩ := Option.map_eq_some_iff.mp hnote
          cases heq
          obtain ⟨stored, hstores⟩ := hholds.fresh hfalse
          have hcard := hstores.card_le
          rw [List.toFinset_card_of_nodup hnodup] at hcard
          have hcap := hholds.roomy.cap
          have hsize := hstores.size
          obtain ⟨index₂, stored', hinsert', -, -, -, hstale'⟩ := insert_spec (hstores.append key)
            ⟨hcap, hholds.roomy.power, by omega, by rw [hrepeats]; exact hspare⟩ (by omega)
          rw [hinsert] at hinsert'
          cases hinsert'
          exact ⟨hlt, limited_fresh (hstale'.trans hfalse) (by omega)⟩

theorem afterErase_limited (hlimited : Limited keys index) (hlt : pos < keys.length) :
    Limited (keys.eraseIdx pos) (afterErase (keys.eraseIdx pos) index) := by
  cases index with
  | none => exact limited_none _
  | some index =>
      have hle := hlimited index rfl
      have hlength := List.length_eraseIdx_of_lt hlt
      rw [afterErase]
      split
      · exact limited_none _
      · intro present heq
        cases heq
        rw [if_pos rfl]
        omega

end Index

namespace Node

/-- Every object of the tree is one that operations can have built. -/
def Limited (node : Node) : Prop := node.All fun
  | object self => Index.Limited self.keys self.index
  | _ => True

theorem limited_object {self : Object Node} : (object self).Limited ↔
    Index.Limited self.keys self.index ∧ ∀ entry ∈ self.data, entry.2.Limited := by
  rw [Limited, all_object]
  rfl

theorem limited_array {elements : List Node} :
    (array elements).Limited ↔ ∀ value ∈ elements, value.Limited := by
  rw [Limited, all_array]
  exact ⟨fun h => h.2, fun h => ⟨trivial, h⟩⟩

theorem limited_bare (node : Node) : node.bare.Limited := by
  induction node using Node.induct with
  | array elements ih =>
      rw [bare_array, limited_array, List.forall_mem_map]
      exact ih
  | object self ih =>
      rw [bare_object, limited_object]
      refine ⟨Index.limited_none _, fun entry hmem => ?_⟩
      obtain ⟨old, hold, rfl⟩ := List.mem_map.mp hmem
      exact ih old hold
  | _ => trivial

/-- What the operations rely on: indexes that hold the entries, and no repeated keys. -/
structure Steady (node : Node) : Prop where
  sound : node.Sound
  noDuplicates : node.NoDuplicates

theorem steady_object {self : Object Node} : (object self).Steady ↔
    (Index.CacheHolds self.keys self.index ∧ self.keys.Nodup) ∧ ∀ entry ∈ self.data, entry.2.Steady := by
  constructor
  · intro h
    have hsound := sound_object.mp h.sound
    have hnodup := noDuplicates_object.mp h.noDuplicates
    exact ⟨⟨hsound.1, hnodup.1⟩, fun entry hmem => ⟨hsound.2 entry hmem, hnodup.2 entry hmem⟩⟩
  · intro h
    exact ⟨sound_object.mpr ⟨h.1.1, fun entry hmem => (h.2 entry hmem).sound⟩,
      noDuplicates_object.mpr ⟨h.1.2, fun entry hmem => (h.2 entry hmem).noDuplicates⟩⟩

theorem steady_array {elements : List Node} :
    (array elements).Steady ↔ ∀ value ∈ elements, value.Steady := by
  constructor
  · intro h value hmem
    exact ⟨sound_array.mp h.sound value hmem, noDuplicates_array.mp h.noDuplicates value hmem⟩
  · intro h
    exact ⟨sound_array.mpr fun value hmem => (h value hmem).sound,
      noDuplicates_array.mpr fun value hmem => (h value hmem).noDuplicates⟩

end Node

namespace Object

open Node

variable {self : Object Node} {key : Bytes} {value : Node}

/-- An update that left `data` in the object: its tree stays steady, and limited if it was. -/
structure Updates (before after : Object Node) (data : List (Bytes × Node)) : Prop where
  data : after.data = data
  steady : (object after).Steady
  limited : (object before).Limited → (object after).Limited

theorem findSlot_updates (h : (object self).Steady) (key : Bytes) (rebuild : Bool) :
    ∃ self', self.findSlot key rebuild = some (firstMatch self.keys key, self') ∧
      Updates self self' self.data := by
  obtain ⟨⟨hcache, hnodup⟩, hvalues⟩ := steady_object.mp h
  obtain ⟨index, hfind, hindex, -⟩ := Index.findSlot_spec hcache key rebuild
  refine ⟨{ self with index }, ?_, rfl, steady_object.mpr ⟨⟨hindex, hnodup⟩, hvalues⟩, fun hlimited => ?_⟩
  · rw [findSlot, hfind]
    rfl
  · obtain ⟨hlimited, hrest⟩ := limited_object.mp hlimited
    exact limited_object.mpr ⟨Index.findSlot_limited hcache hlimited hfind, hrest⟩

/-- The member that a lookup finds. -/
theorem getElem?_firstMatch {pos : Nat} (h : firstMatch self.keys key = some pos) :
    ∃ value, self.data[pos]? = some (key, value) ∧ Members.get? key self.data = some value := by
  obtain ⟨value, hget⟩ := firstMatch_get h
  exact ⟨value, hget, Members.get?_of_getElem? hget (firstMatch_eq_some.mp h).2⟩

theorem setValue_updates (h : (object self).Steady) {pos : Nat}
    (hpos : firstMatch self.keys key = some pos) (hvalue : value.Steady) :
    (self.setValue pos value).data = Members.set key value self.data ∧
      (object (self.setValue pos value)).Steady ∧
      ((object self).Limited → value.Limited → (object (self.setValue pos value)).Limited) := by
  obtain ⟨⟨hcache, hnodup⟩, hvalues⟩ := steady_object.mp h
  obtain ⟨old, hget, -⟩ := getElem?_firstMatch hpos
  have hdata : (self.setValue pos value).data = Members.set key value self.data :=
    Members.set_eq_modify hget (firstMatch_eq_some.mp hpos).2 value
  have hkeys : (self.setValue pos value).keys = self.keys := by
    rw [keys, hdata]
    exact Members.map_fst_set (List.mem_of_getElem? (firstMatch_eq_some.mp hpos).1)
  have hmem : ∀ {P : Node → Prop}, (∀ entry ∈ self.data, P entry.2) → P value →
      ∀ entry ∈ (self.setValue pos value).data, P entry.2 := by
    intro P hold hnew entry hentry
    rw [hdata] at hentry
    rcases Members.mem_set hentry with hentry | rfl
    · exact hold entry hentry
    · exact hnew
  refine ⟨hdata, steady_object.mpr ⟨?_, hmem hvalues hvalue⟩, fun hlimited hnew => ?_⟩
  · rw [hkeys]
    exact ⟨hcache, hnodup⟩
  · obtain ⟨hlimited, hrest⟩ := limited_object.mp hlimited
    refine limited_object.mpr ⟨?_, hmem hrest hnew⟩
    rw [hkeys]
    exact hlimited

theorem append_updates (h : (object self).Steady) (hnew : key ∉ self.keys) (hvalue : value.Steady) :
    (∀ self', self.append key value = some self' →
      self'.data = Members.set key value self.data ∧ (object self').Steady ∧
        ((object self).Limited → value.Limited →
          self.data.length < Index.kMaxIndexed ∧ (object self').Limited)) ∧
      (self.data.length < Index.kMaxIndexed → ∃ self', self.append key value = some self') := by
  obtain ⟨⟨hcache, hnodup⟩, hvalues⟩ := steady_object.mp h
  have hkeys := keys_append self.data key value self.index self.resource
  have hlast : (self.data ++ [(key, value)]).length - 1 = self.keys.length := by
    rw [List.length_append, List.length_singleton, Nat.add_sub_cancel, length_keys]
  obtain ⟨hsound, hreturns⟩ := append_spec h.sound hnew hvalue.sound
  constructor
  · intro self' happend
    have hsound' := hsound self' happend
    obtain ⟨index, hindex, heq⟩ := Option.bind_eq_some_iff.mp happend
    cases heq
    simp only [hkeys, hlast] at hindex
    have hmem : ∀ {P : Node → Prop}, (∀ entry ∈ self.data, P entry.2) → P value →
        ∀ entry ∈ self.data ++ [(key, value)], P entry.2 := by
      intro P hold hone entry hentry
      rcases List.mem_append.mp hentry with hentry | hentry
      · exact hold entry hentry
      · obtain rfl := List.mem_singleton.mp hentry
        exact hone
    refine ⟨(Members.set_eq_append hnew).symm, ⟨hsound', noDuplicates_object.mpr ⟨?_, ?_⟩⟩, ?_⟩
    · rw [keys_append]
      exact List.nodup_append.mpr ⟨hnodup, List.nodup_singleton _, fun other hother last hlast hsame =>
        hnew (by rwa [← List.mem_singleton.mp hlast, ← hsame])⟩
    · exact hmem (fun entry hentry => (hvalues entry hentry).noDuplicates) hvalue.noDuplicates
    · intro hlimited hone
      obtain ⟨hlimited, hrest⟩ := limited_object.mp hlimited
      obtain ⟨hlt, hlimited'⟩ := Index.noteAppend_limited hcache hlimited hnodup hnew hindex
      refine ⟨length_keys self ▸ hlt, limited_object.mpr ⟨?_, hmem hrest hone⟩⟩
      rw [keys_append]
      exact hlimited'
  · intro hlt
    obtain ⟨index, happend⟩ := hreturns hlt
    exact ⟨_, happend⟩

/-- `insert` sets the member. A new one needs room. -/
theorem insert_updates (h : (object self).Steady) (key : Bytes) (hvalue : value.Steady) :
    (∀ self', self.insert key value = some self' →
      self'.data = Members.set key value self.data ∧ (object self').Steady ∧
        ((object self).Limited → value.Limited →
          (key ∈ self.keys ∨ self.data.length < Index.kMaxIndexed) ∧ (object self').Limited)) ∧
      (key ∈ self.keys ∨ self.data.length < Index.kMaxIndexed →
        ∃ self', self.insert key value = some self') := by
  obtain ⟨self₁, hfind, hupdates⟩ := findSlot_updates h key true
  have hkeys : self₁.keys = self.keys := by rw [keys, hupdates.data, keys]
  rw [insert, hfind, Option.bind_eq_bind, Option.bind_some]
  cases hmatch : firstMatch self.keys key with
  | some pos =>
      have hmem : key ∈ self.keys := List.mem_of_getElem? (firstMatch_eq_some.mp hmatch).1
      obtain ⟨hdata, hsteady, hlimited⟩ := setValue_updates hupdates.steady (hkeys ▸ hmatch) hvalue
      refine ⟨fun self' heq => ?_, fun _ => ⟨_, rfl⟩⟩
      cases heq
      refine ⟨by rw [hdata, hupdates.data], hsteady, fun hself hnew => ⟨.inl hmem, ?_⟩⟩
      exact hlimited (hupdates.limited hself) hnew
  | none =>
      have hnew := firstMatch_eq_none.mp hmatch
      obtain ⟨hspec, hreturns⟩ := append_updates hupdates.steady (hkeys ▸ hnew) hvalue
      rw [hupdates.data] at hspec hreturns
      refine ⟨fun self' heq => ?_, fun hroom => hreturns (hroom.resolve_left hnew)⟩
      obtain ⟨hdata, hsteady, hlimited⟩ := hspec self' heq
      refine ⟨hdata, hsteady, fun hself hone => ?_⟩
      obtain ⟨hlt, hlimited⟩ := hlimited (hupdates.limited hself) hone
      exact ⟨.inr hlt, hlimited⟩

/-- `remove` leaves the member out. -/
theorem remove_updates (h : (object self).Steady) (key : Bytes) :
    ∃ removed self', self.remove key = some (removed, self') ∧
      Updates self self' (Members.remove key self.data) := by
  obtain ⟨self₁, hfind, hupdates⟩ := findSlot_updates h key false
  have hkeys : self₁.keys = self.keys := by rw [keys, hupdates.data, keys]
  rw [remove, hfind, Option.bind_eq_bind, Option.bind_some]
  cases hmatch : firstMatch self.keys key with
  | none =>
      refine ⟨false, self₁, rfl, ?_⟩
      rw [Members.remove_eq_self (firstMatch_eq_none.mp hmatch)]
      exact hupdates
  | some pos =>
      obtain ⟨⟨hcache, hnodup⟩, hvalues⟩ := steady_object.mp hupdates.steady
      have hlt : pos < self₁.keys.length := hkeys ▸ firstMatch_lt hmatch
      have herased : Object.keys { self₁ with data := self₁.data.eraseIdx pos } =
          self₁.keys.eraseIdx pos := by
        rw [keys, keys, List.eraseIdx_map]
      have hmem : ∀ {P : Node → Prop}, (∀ entry ∈ self₁.data, P entry.2) →
          ∀ entry ∈ self₁.data.eraseIdx pos, P entry.2 := fun hold entry hentry =>
        hold entry (List.mem_of_mem_eraseIdx hentry)
      refine ⟨true, _, rfl, ?_, steady_object.mpr ⟨⟨?_, ?_⟩, hmem hvalues⟩, fun hlimited => ?_⟩
      · obtain ⟨value, hget, -⟩ := getElem?_firstMatch (hkeys ▸ hmatch : firstMatch self₁.keys key = some pos)
        rw [← hupdates.data]
        exact Members.remove_eq_eraseIdx hnodup hget
      · change Index.CacheHolds (Object.keys { self₁ with data := self₁.data.eraseIdx pos }) _
        rw [herased]
        exact Index.afterErase_spec hcache hlt
      · change (Object.keys { self₁ with data := self₁.data.eraseIdx pos }).Nodup
        rw [herased]
        exact hnodup.sublist (List.eraseIdx_sublist _ _)
      · obtain ⟨hlimited, hrest⟩ := limited_object.mp (hupdates.limited hlimited)
        refine limited_object.mpr ⟨?_, hmem hrest⟩
        change Index.Limited (Object.keys { self₁ with data := self₁.data.eraseIdx pos }) _
        rw [herased]
        exact Index.afterErase_limited hlimited hlt

end Object

end PjhJson
