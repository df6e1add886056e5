import PjhJson.LibUpdate
import PjhJson.NodeTree

/-! `Object::merge` and the recursive merge that it computes. -/

namespace PjhJson

/-! ### The reference -/

namespace Json

mutual

/-- The recursive merge: two objects are merged member by member, and the new members come last.
Otherwise the new value counts, a null as well. -/
def merge (found value : Json Bytes) : Json Bytes :=
  match found, value with
  | object members, object entries =>
    object (mergeMembers entries members ++ entries.filter (·.1 ∉ members.map (·.1)))
  | _, value => value

/-- The members that are there already, in their places. -/
def mergeMembers (entries : List (Bytes × Json Bytes)) :
    List (Bytes × Json Bytes) → List (Bytes × Json Bytes)
  | [] => []
  | (key, found) :: rest =>
    (key, match Members.get? key entries with
      | some value => merge found value
      | none => found) :: mergeMembers entries rest

end

/-- What an entry of the other object makes of the member with its key. -/
def mergeGiven (old : Option (Json Bytes)) (value : Json Bytes) : Json Bytes :=
  match old with
  | some found => merge found value
  | none => value

theorem merge_object (members entries : List (Bytes × Json Bytes)) :
    merge (object members) (object entries) = object (Members.merged mergeGiven members entries) := by
  have hmembers : mergeMembers entries members = members.map fun member =>
      (member.1, (Members.get? member.1 entries).elim member.2 (mergeGiven (some member.2))) := by
    induction members with
    | nil => rw [mergeMembers, List.map_nil]
    | cons member rest ih =>
        rw [mergeMembers, ih, List.map_cons]
        cases Members.get? member.1 entries <;> rfl
  have hadded : ∀ added : List (Bytes × Json Bytes),
      (added.map fun entry => (entry.1, mergeGiven none entry.2)) = added := fun added =>
    List.map_id' added
  rw [merge, Members.merged, hmembers, hadded]
  refine congrArg object (congrArg₂ (· ++ ·) rfl (List.filter_congr fun entry _ => ?_))
  exact decide_eq_decide.mpr Iff.rfl

theorem merge_of_not_object {found value : Json Bytes}
    (h : ∀ members entries, found = object members → value ≠ object entries) :
    merge found value = value := by
  cases found with
  | object members =>
      cases value with
      | object entries => exact absurd rfl (h members entries rfl)
      | _ =>
          rw [merge]
          intro _ _ _ heq
          cases heq
  | _ =>
      rw [merge]
      intro _ _ heq
      cases heq

mutual

/-- No object that a merge copies has more than `2 ^ 30` entries, and no object that it adds a member
to has `2 ^ 30` entries or more at that point. -/
def MergeRoom (found : Json Bytes) : Json Bytes → Prop
  | object entries =>
    match found with
    | object members => MergeRoomEntries members members.length entries
    | _ => (object entries).Indexable
  | value => value.Indexable

/-- `count` is the number of entries that the object has at this point: its own `members` and those
that were added. -/
def MergeRoomEntries (members : List (Bytes × Json Bytes)) (count : Nat) :
    List (Bytes × Json Bytes) → Prop
  | [] => True
  | (name, value) :: rest =>
    (match Members.get? name members with
      | some found => MergeRoom found value
      | none => count < Index.kMaxIndexed ∧ value.Indexable) ∧
    MergeRoomEntries members (if name ∈ members.map (·.1) then count else count + 1) rest

end

/-- The room that one entry needs in an object with `count` entries. -/
def EntryRoom (old : Option (Json Bytes)) (count : Nat) (value : Json Bytes) : Prop :=
  match old with
  | some found => MergeRoom found value
  | none => count < Index.kMaxIndexed ∧ value.Indexable

theorem mergeRoomEntries_cons {members rest : List (Bytes × Json Bytes)} {count : Nat} {name : Bytes}
    {value : Json Bytes} : MergeRoomEntries members count ((name, value) :: rest) ↔
      EntryRoom (Members.get? name members) count value ∧
        MergeRoomEntries members (if name ∈ members.map (·.1) then count else count + 1) rest := by
  rw [MergeRoomEntries]
  rfl

theorem mergeRoom_of_not_object {found value : Json Bytes}
    (h : ∀ members entries, found = object members → value ≠ object entries) :
    MergeRoom found value ↔ value.Indexable := by
  cases value with
  | object entries =>
      cases found with
      | object members => exact absurd rfl (h members entries rfl)
      | _ =>
          rw [MergeRoom]
          intro _ heq
          cases heq
  | _ =>
      rw [MergeRoom]
      intro _ heq
      cases heq

end Json

/-! ### One entry of the other object -/

namespace Object

open Node

/-- The body of the loop of `merge`. -/
def mergeEntry (self : Object Node) (key : Bytes) (value : Node) : Option (Object Node) := do
  let (slot, self) ← self.findSlot key
  match slot with
  | some pos =>
    let entry ← self.data[pos]?
    let merged ← mergeValue self.resource entry.2 value
    some (self.setValue pos merged)
  | none =>
    let copy ← value.clone self.resource
    self.append key copy

theorem mergeEntries_cons (self : Object Node) (key : Bytes) (value : Node)
    (rest : List (Bytes × Node)) : mergeEntries self ((key, value) :: rest) =
      (self.mergeEntry key value).bind fun self => mergeEntries self rest := by
  rw [mergeEntries, mergeEntry]
  cases self.findSlot key with
  | none => rfl
  | some found =>
      obtain ⟨slot, self₁⟩ := found
      simp only [Option.bind_eq_bind, Option.bind_some]
      cases slot with
      | some pos =>
          simp only [Option.bind_assoc, Option.bind_some]
      | none =>
          simp only [Option.bind_assoc]

end Object

namespace Node

/-- A merge leaves what the reference leaves. It returns if there is room, and only then when the
indexes were built within the limits. -/
def MergesInto (value : Node) : Prop := ∀ resource found, found.Steady →
  (∀ merged, mergeValue resource found value = some merged →
    merged.tree = Json.merge found.tree value.tree ∧ merged.Steady ∧
      (found.Limited → merged.Limited ∧ found.tree.MergeRoom value.tree)) ∧
    (found.tree.MergeRoom value.tree → ∃ merged, mergeValue resource found value = some merged)

end Node

namespace Object

open Node

variable {self : Object Node} {key : Bytes} {value : Node}

/-- The trees of the members of an object. -/
abbrev trees (self : Object Node) : List (Bytes × Json Bytes) := Members.mapValues tree self.data

/-- What one entry leaves, when its value is a copy or was merged. -/
structure Merged (key : Bytes) (value : Json Bytes) (before after : Object Node) : Prop where
  trees : after.trees =
    Members.set key (Json.mergeGiven (Members.get? key before.trees) value) before.trees
  steady : (object after).Steady
  limited : (object before).Limited → (object after).Limited ∧
    Json.EntryRoom (Members.get? key before.trees) before.data.length value

theorem mergeEntry_spec (h : (object self).Steady) (key : Bytes) (hplain : value.NoDuplicates)
    (hvalue : value.MergesInto) :
    (∀ self', self.mergeEntry key value = some self' → Merged key value.tree self self') ∧
      (Json.EntryRoom (Members.get? key self.trees) self.data.length value.tree →
        ∃ self', self.mergeEntry key value = some self') := by
  obtain ⟨self₁, hfind, hupdates⟩ := findSlot_updates h key true
  have hkeys : self₁.keys = self.keys := by rw [keys, hupdates.data, keys]
  rw [mergeEntry, hfind, Option.bind_eq_bind, Option.bind_some, trees, Members.get?_mapValues]
  cases hmatch : firstMatch self.keys key with
  | some pos =>
      obtain ⟨found, hget, hfound⟩ := getElem?_firstMatch (hkeys ▸ hmatch : firstMatch self₁.keys key = _)
      rw [hupdates.data] at hfound
      have hsteady : found.Steady :=
        (steady_object.mp hupdates.steady).2 _ (List.mem_of_getElem? hget)
      obtain ⟨hspec, hreturns⟩ := hvalue self₁.resource found hsteady
      simp only [hget, hfound, Option.bind_eq_bind, Option.bind_some, Option.map_some]
      constructor
      · intro self' heq
        obtain ⟨merged, hmerged, heq⟩ := Option.bind_eq_some_iff.mp heq
        cases heq
        obtain ⟨htree, hmergedSteady, hlimited⟩ := hspec merged hmerged
        obtain ⟨hdata, hsteady', hlimited'⟩ :=
          setValue_updates hupdates.steady (hkeys ▸ hmatch : firstMatch self₁.keys key = _) hmergedSteady
        refine ⟨?_, hsteady', fun hself => ?_⟩
        · rw [trees, hdata, hupdates.data, Members.mapValues_set, htree, Members.get?_mapValues, hfound]
          rfl
        · have hself₁ := hupdates.limited hself
          have hfoundLimited := (limited_object.mp hself₁).2 _ (List.mem_of_getElem? hget)
          obtain ⟨hmergedLimited, hroom⟩ := hlimited hfoundLimited
          rw [Members.get?_mapValues, hfound]
          exact ⟨hlimited' hself₁ hmergedLimited, hroom⟩
      · intro hroom
        obtain ⟨merged, hmerged⟩ := hreturns hroom
        exact ⟨_, by rw [hmerged]; rfl⟩
  | none =>
      have hnew := firstMatch_eq_none.mp hmatch
      have hnone : Members.get? key self.data = none := Members.get?_eq_none.mpr hnew
      simp only [hnone, Option.bind_eq_bind, Option.map_none]
      constructor
      · intro self' heq
        obtain ⟨copy, hcopy, heq⟩ := Option.bind_eq_some_iff.mp heq
        have hcopyOf := (clone_spec value).1 copy hcopy
        obtain ⟨hdata, hsteady, hlimited⟩ := (append_updates hupdates.steady (hkeys ▸ hnew)
          (clone_steady hplain hcopy)).1 self' heq
        refine ⟨?_, hsteady, fun hself => ?_⟩
        · rw [trees, hdata, hupdates.data, Members.mapValues_set, hcopyOf.tree, Members.get?_mapValues,
            hnone]
          rfl
        · obtain ⟨hlt, hlimited'⟩ := hlimited (hupdates.limited hself) hcopyOf.limited
          rw [Members.get?_mapValues, hnone]
          exact ⟨hlimited', hupdates.data ▸ hlt, (indexable_tree value).mpr hcopyOf.indexable⟩
      · rintro ⟨hlt, hindexable⟩
        obtain ⟨copy, hcopy⟩ := (clone_spec value).2 ((indexable_tree value).mp hindexable)
        obtain ⟨self', happend⟩ := (append_updates hupdates.steady (hkeys ▸ hnew)
          (@clone_steady self₁.resource _ _ hplain hcopy)).2 (hupdates.data ▸ hlt)
        exact ⟨self', by rw [hcopy, Option.bind_some, happend]⟩

/-- A lookup for an earlier entry's key is not changed by what a later one leaves. -/
theorem Merged.get? {self' : Object Node} {value : Json Bytes} (h : Merged key value self self')
    {other : Bytes} (hne : other ≠ key) :
    Members.get? other self'.trees = Members.get? other self.trees := by
  rw [h.trees, Members.get?_set_of_ne hne]

theorem length_trees (self : Object Node) : self.trees.length = self.data.length :=
  List.length_map _

theorem Merged.length {self' : Object Node} {value : Json Bytes} (h : Merged key value self self') :
    self'.data.length = if key ∈ self.trees.map (·.1) then self.data.length
      else self.data.length + 1 := by
  rw [← length_trees self', ← length_trees self, h.trees]
  split
  · rename_i hmem
    exact Members.length_set_of_mem hmem
  · rename_i hnew
    rw [Members.set_eq_append hnew, List.length_append, List.length_singleton]

end Object

/-! ### All the entries -/

namespace Node

open Object

theorem nodup_trees {self : Object Node} (h : self.keys.Nodup) : (self.trees.map (·.1)).Nodup := by
  rw [trees, Members.mapValues, List.map_map]
  exact h

/-- The loop: an entry sees the members that are left by the entries before it, which have other
keys. -/
theorem mergeEntries_updates {data : List (Bytes × Node)} {members : List (Bytes × Json Bytes)}
    {count : Nat} {self : Object Node} (hmerges : ∀ entry ∈ data, entry.2.MergesInto)
    (hplain : ∀ entry ∈ data, entry.2.NoDuplicates) (hnodup : (data.map (·.1)).Nodup)
    (hself : (object self).Steady)
    (hsame : ∀ key ∈ data.map (·.1), Members.get? key self.trees = Members.get? key members)
    (hcount : self.data.length = count) :
    (∀ merged, mergeEntries self data = some merged →
      merged.trees = Members.update (fun old value => some (Json.mergeGiven old value)) self.trees
          (Members.mapValues tree data) ∧
        (object merged).Steady ∧ ((object self).Limited → (object merged).Limited ∧
          Json.MergeRoomEntries members count (Members.mapValues tree data))) ∧
      (Json.MergeRoomEntries members count (Members.mapValues tree data) →
        ∃ merged, mergeEntries self data = some merged) := by
  induction data generalizing self count with
  | nil =>
      refine ⟨fun merged heq => ?_, fun _ => ⟨self, rfl⟩⟩
      cases heq
      exact ⟨rfl, hself, fun hlimited => ⟨hlimited, trivial⟩⟩
  | cons entry rest ih =>
      obtain ⟨key, value⟩ := entry
      rw [List.map_cons, List.nodup_cons] at hnodup
      rw [List.map_cons, List.forall_mem_cons] at hsame
      rw [List.forall_mem_cons] at hmerges hplain
      obtain ⟨hspec, hreturns⟩ := mergeEntry_spec hself key hplain.1 hmerges.1
      rw [hsame.1, hcount] at hreturns
      rw [mergeEntries_cons, Members.mapValues_cons, Json.mergeRoomEntries_cons]
      -- the rest of the loop, behind this entry
      have hrest : ∀ self', Merged key value.tree self self' → _ := fun self' hmerged =>
        @ih (if key ∈ members.map (·.1) then count else count + 1) self' hmerges.2 hplain.2 hnodup.2
          hmerged.steady
          (fun other hmem => by
            rw [hmerged.get? (fun heq => hnodup.1 (heq ▸ hmem)), hsame.2 other hmem])
          (by
            have hiff : key ∈ self.trees.map (·.1) ↔ key ∈ members.map (·.1) := by
              rw [← not_iff_not, ← Members.get?_eq_none, ← Members.get?_eq_none, hsame.1]
            rw [hmerged.length, hcount]
            simp only [hiff])
      constructor
      · intro merged heq
        obtain ⟨self', hentry, heq⟩ := Option.bind_eq_some_iff.mp heq
        have hmerged := hspec self' hentry
        obtain ⟨htrees, hsteady, hlimited⟩ := (hrest self' hmerged).1 merged heq
        refine ⟨?_, hsteady, fun hself => ?_⟩
        · rw [htrees, hmerged.trees]
          rfl
        · obtain ⟨hself', hroom⟩ := hmerged.limited hself
          rw [hsame.1, hcount] at hroom
          exact ⟨(hlimited hself').1, hroom, (hlimited hself').2⟩
      · rintro ⟨hroom, hroomRest⟩
        obtain ⟨self', hentry⟩ := hreturns hroom
        obtain ⟨merged, hmerged⟩ := (hrest self' (hspec self' hentry)).2 hroomRest
        exact ⟨merged, by rw [hentry, Option.bind_some, hmerged]⟩

/-- Everything but an object that meets an object is copied. -/
theorem mergeValue_of_clone {value : Node} (hvalue : value.NoDuplicates) {resource : Nat}
    {found : Node} (himpl : mergeValue resource found value = value.clone resource)
    (hnot : ∀ members entries, found.tree = .object members → value.tree ≠ .object entries) :
    (∀ merged, mergeValue resource found value = some merged →
      merged.tree = Json.merge found.tree value.tree ∧ merged.Steady ∧
        (found.Limited → merged.Limited ∧ found.tree.MergeRoom value.tree)) ∧
      (found.tree.MergeRoom value.tree →
        ∃ merged, mergeValue resource found value = some merged) := by
  rw [himpl, Json.merge_of_not_object hnot, Json.mergeRoom_of_not_object hnot, indexable_tree]
  refine ⟨fun merged hmerged => ?_, (clone_spec value).2⟩
  have hcopy := (clone_spec value).1 merged hmerged
  exact ⟨hcopy.tree, clone_steady hvalue hmerged, fun _ => ⟨hcopy.limited, hcopy.indexable⟩⟩

theorem mergesInto (value : Node) (hvalue : value.NoDuplicates) : value.MergesInto := by
  induction value using Node.induct with
  | object self ih =>
      obtain ⟨data, index, resource'⟩ := self
      obtain ⟨hnodup, hvalues⟩ := noDuplicates_object.mp hvalue
      intro resource found hfound
      cases found with
      | object target =>
          obtain ⟨hspec, hreturns⟩ := @mergeEntries_updates data target.trees target.trees.length target
            (fun entry hmem => ih entry hmem (hvalues entry hmem)) hvalues hnodup hfound
            (fun _ _ => rfl) (length_trees target).symm
          have hkeys : ((Members.mapValues tree data).map (·.1)).Nodup := by
            rw [Members.mapValues, List.map_map]
            exact hnodup
          have hmerge := Members.update_eq_merged (f := Json.mergeGiven)
            (nodup_trees (steady_object.mp hfound).1.2) hkeys
          rw [tree_object, tree_object, Json.merge_object, Json.MergeRoom, ← hmerge, mergeValue]
          constructor
          · intro merged heq
            obtain ⟨merged', hmerged, heq⟩ := Option.bind_eq_some_iff.mp heq
            cases heq
            obtain ⟨htrees, hsteady, hlimited⟩ := hspec merged' hmerged
            rw [tree_object]
            exact ⟨congrArg Json.object htrees, hsteady, hlimited⟩
          · intro hroom
            obtain ⟨merged, hmerged⟩ := hreturns hroom
            exact ⟨object merged, by rw [hmerged]; rfl⟩
      | array elements =>
          refine mergeValue_of_clone hvalue rfl fun members entries h => ?_
          rw [tree_array] at h
          cases h
      | _ => exact mergeValue_of_clone hvalue rfl fun members entries h => by cases h
  | array elements =>
      refine fun resource found hfound => mergeValue_of_clone hvalue rfl fun members entries _ h => ?_
      rw [tree_array] at h
      cases h
  | _ => exact fun resource found hfound => mergeValue_of_clone hvalue rfl fun _ _ _ h => by cases h

/-! ### A second merge -/

/-- The members of an object without repeated keys, as the reference merges them. -/
theorem merge_object_update {members entries : List (Bytes × Json Bytes)}
    (hmembers : (members.map (·.1)).Nodup) (hentries : (entries.map (·.1)).Nodup) :
    Json.merge (.object members) (.object entries) = .object
      (Members.update (fun old value => some (Json.mergeGiven old value)) members entries) := by
  rw [Json.merge_object, Members.update_eq_merged hmembers hentries]

theorem merge_self {value : Node} (hvalue : value.NoDuplicates) :
    Json.merge value.tree value.tree = value.tree := by
  induction value using Node.induct with
  | object self ih =>
      obtain ⟨hnodup, hvalues⟩ := noDuplicates_object.mp hvalue
      have htrees := nodup_trees hnodup
      rw [tree_object, merge_object_update htrees htrees]
      refine congrArg Json.object (Members.update_eq_self fun entry hmem => ?_)
      rw [Members.get?_of_mem htrees hmem]
      obtain ⟨member, hmember, rfl⟩ := List.mem_map.mp hmem
      exact congrArg some (ih member hmember (hvalues member hmember))
  | array elements =>
      rw [tree_array]
      exact Json.merge_of_not_object fun _ _ _ h => by cases h
  | _ => exact Json.merge_of_not_object fun _ _ _ h => by cases h

theorem get?_trees {self : Object Node} {key : Bytes} {found : Json Bytes}
    (h : Members.get? key self.trees = some found) :
    ∃ member ∈ self.data, member.2.tree = found := by
  rw [trees, Members.get?_mapValues] at h
  obtain ⟨member, hmember, rfl⟩ := Option.map_eq_some_iff.mp h
  exact ⟨(key, member), Members.get?_mem hmember, rfl⟩

/-- A value that was replaced by the new one. -/
theorem merge_replaced {value : Node} (hvalue : value.NoDuplicates) {found : Json Bytes}
    (h : Json.merge found value.tree = value.tree) :
    Json.merge (Json.merge found value.tree) value.tree = Json.merge found value.tree := by
  rw [h, merge_self hvalue]

theorem merge_merge {found value : Node} (hfound : found.NoDuplicates)
    (hvalue : value.NoDuplicates) :
    Json.merge (Json.merge found.tree value.tree) value.tree = Json.merge found.tree value.tree := by
  induction value using Node.induct generalizing found with
  | object self ih =>
      by_cases hobject : ∃ target, found = object target
      · obtain ⟨target, rfl⟩ := hobject
        obtain ⟨hnodup, hvalues⟩ := noDuplicates_object.mp hvalue
        obtain ⟨hnodup', hfounds⟩ := noDuplicates_object.mp hfound
        have hentries := nodup_trees hnodup
        rw [tree_object, tree_object, merge_object_update (nodup_trees hnodup') hentries,
          merge_object_update (Members.nodup_update (nodup_trees hnodup')) hentries]
        refine congrArg Json.object (Members.update_update hentries fun entry hmem => ?_)
        obtain ⟨member, hmember, rfl⟩ := List.mem_map.mp hmem
        cases hget : Members.get? member.1 target.trees with
        | none => exact congrArg some (merge_self (hvalues member hmember))
        | some old =>
            obtain ⟨member', hmember', rfl⟩ := get?_trees hget
            exact congrArg some
              (ih member hmember (hfounds member' hmember') (hvalues member hmember))
      · refine merge_replaced hvalue (Json.merge_of_not_object fun members entries h => ?_)
        cases found with
        | object target => exact absurd ⟨target, rfl⟩ hobject
        | array elements =>
            rw [tree_array] at h
            cases h
        | _ => cases h
  | array elements =>
      refine merge_replaced hvalue ?_
      rw [tree_array]
      exact Json.merge_of_not_object fun _ _ _ h => by cases h
  | _ => exact merge_replaced hvalue (Json.merge_of_not_object fun _ _ _ h => by cases h)

/-! ### Room for a second merge -/

/-- What the entries need, apart from the number of members that are added. -/
theorem mergeRoomEntries_mem {members entries : List (Bytes × Json Bytes)} {count : Nat}
    (h : Json.MergeRoomEntries members count entries) : ∀ entry ∈ entries,
      Json.EntryRoom (Members.get? entry.1 members) 0 entry.2 := by
  induction entries generalizing count with
  | nil => exact fun _ hmem => absurd hmem List.not_mem_nil
  | cons entry rest ih =>
      obtain ⟨hentry, hrest⟩ := Json.mergeRoomEntries_cons.mp h
      refine List.forall_mem_cons.mpr ⟨?_, ih hrest⟩
      cases hget : Members.get? entry.1 members with
      | some found =>
          rw [hget] at hentry
          exact hentry
      | none =>
          rw [hget] at hentry
          exact ⟨by decide, hentry.2⟩

/-- Where no member is added, only the values need room. -/
theorem mergeRoomEntries_of_mem {members entries : List (Bytes × Json Bytes)} {count : Nat}
    (h : ∀ entry ∈ entries, ∃ found, Members.get? entry.1 members = some found ∧
      Json.MergeRoom found entry.2) : Json.MergeRoomEntries members count entries := by
  induction entries generalizing count with
  | nil => trivial
  | cons entry rest ih =>
      obtain ⟨⟨found, hget, hroom⟩, hrest⟩ := List.forall_mem_cons.mp h
      refine Json.mergeRoomEntries_cons.mpr ⟨?_, ih hrest⟩
      rw [hget]
      exact hroom

theorem mergeRoom_self {value : Node} (hvalue : value.NoDuplicates) (h : value.tree.Indexable) :
    Json.MergeRoom value.tree value.tree := by
  induction value using Node.induct with
  | object self ih =>
      obtain ⟨hnodup, hvalues⟩ := noDuplicates_object.mp hvalue
      rw [tree_object, Json.indexable_object] at h
      rw [tree_object, Json.MergeRoom]
      refine mergeRoomEntries_of_mem fun entry hmem => ?_
      obtain ⟨member, hmember, rfl⟩ := List.mem_map.mp hmem
      exact ⟨member.2.tree, Members.get?_of_mem (nodup_trees hnodup) hmem,
        ih member hmember (hvalues member hmember) (h.2 _ hmem)⟩
  | array elements =>
      rw [tree_array] at h ⊢
      exact (Json.mergeRoom_of_not_object fun _ _ _ h => by cases h).mpr h
  | _ => exact (Json.mergeRoom_of_not_object fun _ _ _ h => by cases h).mpr h

theorem mergeRoom_replaced {value : Node} (hvalue : value.NoDuplicates) {found : Json Bytes}
    (hnot : ∀ members entries, found = .object members → value.tree ≠ .object entries)
    (h : found.MergeRoom value.tree) :
    Json.MergeRoom (Json.merge found value.tree) value.tree := by
  rw [Json.merge_of_not_object hnot]
  exact mergeRoom_self hvalue ((Json.mergeRoom_of_not_object hnot).mp h)

/-- A second merge adds no member, and copies what the first one copied. -/
theorem mergeRoom_merge {found value : Node} (hfound : found.NoDuplicates)
    (hvalue : value.NoDuplicates) (h : found.tree.MergeRoom value.tree) :
    Json.MergeRoom (Json.merge found.tree value.tree) value.tree := by
  induction value using Node.induct generalizing found with
  | object self ih =>
      by_cases hobject : ∃ target, found = object target
      · obtain ⟨target, rfl⟩ := hobject
        obtain ⟨hnodup, hvalues⟩ := noDuplicates_object.mp hvalue
        obtain ⟨hnodup', hfounds⟩ := noDuplicates_object.mp hfound
        have hentries := nodup_trees hnodup
        rw [tree_object, tree_object, Json.MergeRoom] at h
        rw [tree_object, tree_object, merge_object_update (nodup_trees hnodup') hentries,
          Json.MergeRoom]
        refine mergeRoomEntries_of_mem fun entry hmem => ?_
        have hroom := mergeRoomEntries_mem h entry hmem
        rw [Members.get?_update hentries, Members.get?_of_mem hentries hmem]
        obtain ⟨member, hmember, rfl⟩ := List.mem_map.mp hmem
        refine ⟨_, rfl, ?_⟩
        cases hget : Members.get? member.1 target.trees with
        | none =>
            rw [hget] at hroom
            exact mergeRoom_self (hvalues member hmember) hroom.2
        | some old =>
            rw [hget] at hroom
            obtain ⟨member', hmember', rfl⟩ := get?_trees hget
            exact ih member hmember (hfounds member' hmember') (hvalues member hmember) hroom
      · refine mergeRoom_replaced hvalue (fun members entries h => ?_) h
        cases found with
        | object target => exact absurd ⟨target, rfl⟩ hobject
        | array elements =>
            rw [tree_array] at h
            cases h
        | _ => cases h
  | array elements =>
      refine mergeRoom_replaced hvalue (fun _ _ _ h => ?_) h
      rw [tree_array] at h
      cases h
  | _ => exact mergeRoom_replaced hvalue (fun _ _ _ h => by cases h) h

/-! ### `merge` -/

/-- Every lookup in every object of the tree ends, at the first entry with the key. -/
def LooksUp (node : Node) : Prop := node.All fun
  | object self => ∀ key rebuild, ∃ self',
      self.findSlot key rebuild = some (firstMatch self.keys key, self')
  | _ => True

theorem looksUp_of_sound {node : Node} (h : node.Sound) : node.LooksUp := by
  induction node using Node.induct with
  | array elements ih =>
      rw [LooksUp, all_array]
      exact ⟨trivial, fun value hmem => ih value hmem (sound_array.mp h value hmem)⟩
  | object self ih =>
      rw [LooksUp, all_object]
      refine ⟨fun key rebuild => ?_, fun entry hmem => ih entry hmem ((sound_object.mp h).2 entry hmem)⟩
      obtain ⟨self', hfind, -⟩ := findSlot_spec h key rebuild
      exact ⟨self', hfind⟩
  | _ => trivial

end Node

namespace Object

open Node

/-- `merge` returns the recursive merge of the two objects in which every lookup is right, whatever
the state of the lookup indexes, and a second `merge` changes nothing. -/
def MergesExactly (a b : Object Node) : Prop := ∀ a' b' : Object Node,
  Node.Keeps (object a) (object a') → Node.Keeps (object b) (object b') →
    ∃ merged, a'.merge b' = some merged ∧
      (object merged).tree = Json.merge (object a).tree (object b).tree ∧
      (object merged).LooksUp ∧
      ∃ again, merged.merge b' = some again ∧ (object again).tree = (object merged).tree

theorem merge_spec {a b : Object Node} (ha : (object a).Steady) (hb : (object b).NoDuplicates) :
    (∀ merged, a.merge b = some merged →
      (object merged).tree = Json.merge (object a).tree (object b).tree ∧ (object merged).Steady ∧
        ((object a).Limited → (object a).tree.MergeRoom (object b).tree)) ∧
      ((object a).tree.MergeRoom (object b).tree → ∃ merged, a.merge b = some merged) := by
  obtain ⟨hspec, hreturns⟩ := mergesInto (object b) hb 0 (object a) ha
  have himpl : mergeValue 0 (object a) (object b) = (a.merge b).map object := by
    obtain ⟨data, index, resource⟩ := b
    rw [mergeValue, Object.merge]
    cases mergeEntries a data <;> rfl
  rw [himpl] at hspec hreturns
  constructor
  · intro merged hmerged
    obtain ⟨htree, hsteady, hlimited⟩ := hspec (object merged) (by rw [hmerged]; rfl)
    exact ⟨htree, hsteady, fun h => (hlimited h).2⟩
  · intro hroom
    obtain ⟨merged, hmerged⟩ := hreturns hroom
    obtain ⟨merged', hmerged', -⟩ := Option.map_eq_some_iff.mp hmerged
    exact ⟨merged', hmerged'⟩

/-- `merge` is exact where no object that it copies or adds a member to outgrows an index. -/
theorem mergesRecursively_iff {a b : Object Node} (ha : (object a).NoDuplicates)
    (hb : (object b).NoDuplicates) :
    MergesExactly a b ↔ (object a).tree.MergeRoom (object b).tree := by
  constructor
  · -- without indexes the objects are within the limits
    intro h
    have hkeeps := keeps_bare (object a)
    have hkeeps' := keeps_bare (object b)
    rw [bare_object] at hkeeps hkeeps'
    obtain ⟨merged, hmerged, -⟩ := h _ _ hkeeps hkeeps'
    have hlimited := limited_bare (object a)
    rw [bare_object] at hlimited
    have hroom := ((merge_spec (hkeeps.steady ha) (hkeeps'.steady hb).noDuplicates).1 merged
      hmerged).2.2 hlimited
    rwa [hkeeps.tree, hkeeps'.tree] at hroom
  · intro hroom a' b' hkeeps hkeeps'
    have hsteady := hkeeps.steady ha
    have hplain := (hkeeps'.steady hb).noDuplicates
    rw [← hkeeps.tree, ← hkeeps'.tree] at hroom ⊢
    obtain ⟨hspec, hreturns⟩ := merge_spec hsteady hplain
    obtain ⟨merged, hmerged⟩ := hreturns hroom
    obtain ⟨htree, hsteady', -⟩ := hspec merged hmerged
    obtain ⟨hspec', hreturns'⟩ := merge_spec hsteady' hplain
    rw [htree] at hspec' hreturns'
    obtain ⟨again, hagain⟩ := hreturns' (mergeRoom_merge hsteady.noDuplicates hplain hroom)
    refine ⟨merged, hmerged, htree, looksUp_of_sound hsteady'.sound, again, hagain, ?_⟩
    rw [(hspec' again hagain).1, merge_merge hsteady.noDuplicates hplain, htree]

/-- A null replaces a value, an object goes into the object that is there, and a new key comes last. -/
theorem mergesExactly_deep : MergesExactly
    { data := [([1], object { data := [([2], .integer 1)] }), ([3], .integer 1)] }
    { data := [([4], .null), ([3], .null), ([1], object { data := [([5], .integer 2)] })] } := by
  refine (mergesRecursively_iff ?_ ?_).mpr ?_
  · rw [noDuplicates_object, List.forall_mem_cons, List.forall_mem_singleton, noDuplicates_object,
      List.forall_mem_singleton]
    exact ⟨by decide, ⟨by decide, trivial⟩, trivial⟩
  · rw [noDuplicates_object, List.forall_mem_cons, List.forall_mem_cons, List.forall_mem_singleton,
      noDuplicates_object, List.forall_mem_singleton]
    exact ⟨by decide, trivial, trivial, by decide, trivial⟩
  · change Json.MergeRoom (.object [([1], .object [([2], .integer 1)]), ([3], .integer 1)])
      (.object [([4], .null), ([3], .null), ([1], .object [([5], .integer 2)])])
    simp [Json.MergeRoom, Json.MergeRoomEntries, Members.get?, Json.Indexable, Index.kMaxIndexed]

/-- An object with too many entries for an index cannot get a new member. -/
theorem not_mergesExactly_full :
    (object (wideObject (Index.kMaxIndexed + 1))).NoDuplicates ∧
      (object { data := [([], boolean true)] }).NoDuplicates ∧
      ¬MergesExactly (wideObject (Index.kMaxIndexed + 1)) { data := [([], boolean true)] } := by
  have hwide : (object (wideObject (Index.kMaxIndexed + 1))).NoDuplicates := hugeNode_plain.1
  have hadd : (object { data := [([], boolean true)] }).NoDuplicates := by
    rw [noDuplicates_object, List.forall_mem_singleton]
    exact ⟨List.nodup_singleton _, trivial⟩
  refine ⟨hwide, hadd, fun h => ?_⟩
  have hroom := (mergesRecursively_iff hwide hadd).mp h
  rw [tree_object, tree_object, Json.MergeRoom, Members.mapValues_cons,
    Json.mergeRoomEntries_cons] at hroom
  have hnew : Members.get? [] (Members.mapValues tree (wideObject (Index.kMaxIndexed + 1)).data) =
      none := by
    rw [Members.get?_eq_none]
    simp [Members.mapValues, wideObject, keyOf]
  have hlength := length_trees (wideObject (Index.kMaxIndexed + 1))
  rw [← length_keys, length_wideObject] at hlength
  rw [hnew] at hroom
  have hlt : (wideObject (Index.kMaxIndexed + 1)).trees.length < Index.kMaxIndexed := hroom.1.1
  rw [hlength] at hlt
  exact Nat.not_lt.mpr (Nat.le_add_right _ 1) hlt

end Object

end PjhJson
