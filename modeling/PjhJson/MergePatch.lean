import PjhJson.NodeTree

/-! `merge_patch`, and the MergePatch of RFC 7386 that it computes. -/

namespace PjhJson

/-! ### The reference -/

namespace Json

/-- The members of an object; any other value counts as an object without members. -/
def members {σ : Type} : Json σ → List (σ × Json σ)
  | object entries => entries
  | _ => []

def isNull {σ : Type} : Json σ → Bool
  | null => true
  | _ => false

end Json

namespace Rfc7386

mutual

/-- `MergePatch(Target, Patch)`. -/
def mergePatch (target : Json Bytes) : Json Bytes → Json Bytes
  | .object members => .object (mergeMembers target.members members)
  | patch => patch

/-- The loop over the members of a patch: a null deletes the member of the target, and any other
value is merged into it, or into nothing when the target has no such member. -/
def mergeMembers (target : List (Bytes × Json Bytes)) :
    List (Bytes × Json Bytes) → List (Bytes × Json Bytes)
  | [] => target
  | (name, value) :: rest =>
    if value.isNull then mergeMembers (Members.remove name target) rest
    else
      let merged := mergePatch ((Members.get? name target).getD .null) value
      mergeMembers (Members.set name merged target) rest

end

end Rfc7386

/-! ### The code -/

namespace Object

/-- The place of a member that a patch is merged into: `contains`, `insert` of a null if need be, and
`at`. -/
def placeOf (self : Object Node) (key : Bytes) : Option (Nat × Object Node) := do
  let (slot, self) ← self.findSlot key
  match slot with
  | some _ =>
    let (slot, self) ← self.findSlot key
    slot.map (·, self)
  | none =>
    let self ← self.insert key .null
    let (slot, self) ← self.findSlot key
    slot.map (·, self)

end Object

namespace Node

def isNull : Node → Bool
  | null => true
  | _ => false

mutual

/-- `merge_patch_impl`: what it leaves in the target. -/
def mergePatchImpl (res : Nat) (target : Node) : Node → Option Node
  | object { data, .. } => do
    let merged ← mergePatchEntries res (target.asObject.getD { resource := res }) data
    some (object merged)
  | patch => patch.clone res

/-- The loop over the entries of the patch. -/
def mergePatchEntries (res : Nat) (self : Object Node) : List (Bytes × Node) → Option (Object Node)
  | [] => some self
  | (key, value) :: rest =>
    if value.isNull then do
      let (_, self) ← self.remove key
      mergePatchEntries res self rest
    else do
      let (pos, self) ← self.placeOf key
      let entry ← self.data[pos]?
      let merged ← mergePatchImpl res entry.2 value
      mergePatchEntries res (self.setValue pos merged) rest

end

/-- `merge_patch`, with the resource that it allocates from. -/
def mergePatch (target patch : Node) (res : Nat) : Option Node := mergePatchImpl res target patch

/-- The members that a patch is merged into: those of an object, or none. -/
def mergeMembers (target : Node) : List (Bytes × Node) :=
  (target.asObject.map (·.data)).getD []

end Node

/-! ### The condition -/

namespace Json

mutual

/-- No object that a merge copies from the patch has more than `2 ^ 30` entries, and no object that
it adds a member to has `2 ^ 30` entries or more at that point. -/
def MergeFits (target : Json Bytes) : Json Bytes → Prop
  | object entries => MergeFitsEntries target.members target.members.length entries
  | patch => patch.Indexable

/-- `count` is the number of entries of the target at this point of the patch: its own `members`, less
the deleted ones and with the added ones. -/
def MergeFitsEntries (members : List (Bytes × Json Bytes)) (count : Nat) :
    List (Bytes × Json Bytes) → Prop
  | [] => True
  | (name, value) :: rest =>
    if value.isNull then
      MergeFitsEntries members (if name ∈ members.map (·.1) then count - 1 else count) rest
    else if name ∈ members.map (·.1) then
      MergeFits ((Members.get? name members).getD null) value ∧ MergeFitsEntries members count rest
    else count < Index.kMaxIndexed ∧ MergeFits null value ∧ MergeFitsEntries members (count + 1) rest

end

end Json

/-! ### What a merge leaves in the target -/

namespace Object

open Node

/-- The place of a member: the value there is the old one, or a null that was added. -/
structure Place (key : Bytes) (before : Object Node) (pos : Nat) (after : Object Node) : Prop where
  first : firstMatch after.keys key = some pos
  value : after.data[pos]? = some (key, (Members.get? key before.data).getD null)
  set : ∀ value, Members.set key value after.data = Members.set key value before.data
  steady : (object after).Steady
  limited : (object before).Limited →
    (key ∈ before.keys ∨ before.data.length < Index.kMaxIndexed) ∧ (object after).Limited

variable {self : Object Node} {key : Bytes}

/-- `at` finds the member in an object that it was found in, or added to. -/
theorem place_at (h : (object self).Steady) (hmem : key ∈ self.keys) :
    ∃ pos self', self.findSlot key = some (some pos, self') ∧ Updates self self' self.data ∧
      firstMatch self.keys key = some pos := by
  obtain ⟨pos, hpos⟩ := exists_firstMatch hmem
  obtain ⟨self', hfind, hupdates⟩ := findSlot_updates h key true
  exact ⟨pos, self', by rw [hfind, hpos], hupdates, hpos⟩

theorem Updates.keys {self' : Object Node} (h : Updates self self' self.data) :
    self'.keys = self.keys := by
  rw [Object.keys, h.data, Object.keys]

theorem placeOf_spec (h : (object self).Steady) (key : Bytes) :
    (∀ pos self', self.placeOf key = some (pos, self') → Place key self pos self') ∧
      (key ∈ self.keys ∨ self.data.length < Index.kMaxIndexed →
        ∃ result, self.placeOf key = some result) := by
  obtain ⟨self₁, hfind, hupdates⟩ := findSlot_updates h key true
  rw [placeOf, hfind, Option.bind_eq_bind, Option.bind_some]
  cases hmatch : firstMatch self.keys key with
  | some found =>
      have hmem : key ∈ self.keys := List.mem_of_getElem? (firstMatch_eq_some.mp hmatch).1
      obtain ⟨pos, self₂, hat, hupdates', hpos⟩ :=
        place_at hupdates.steady (hupdates.keys ▸ hmem)
      have hkeys : self₂.keys = self.keys := hupdates'.keys.trans hupdates.keys
      have hdata : self₂.data = self.data := hupdates'.data.trans hupdates.data
      simp only [hat]
      have hfirst : firstMatch self₂.keys key = some pos := by rw [hkeys, ← hupdates.keys, hpos]
      obtain ⟨value, hget, hvalue⟩ := getElem?_firstMatch hfirst
      have hplace : Place key self pos self₂ := by
        refine ⟨hfirst, ?_, fun _ => by rw [hdata], hupdates'.steady, fun hlimited => ⟨.inl hmem, ?_⟩⟩
        · rw [hget, ← hdata, hvalue]
          rfl
        · exact hupdates'.limited (hupdates.limited hlimited)
      refine ⟨fun pos' self' heq => ?_, fun _ => ⟨_, rfl⟩⟩
      cases heq
      exact hplace
  | none =>
      have hnew := firstMatch_eq_none.mp hmatch
      have hnull : (Node.null).Steady := ⟨trivial, trivial⟩
      obtain ⟨hspec, hreturns⟩ := insert_updates hupdates.steady key hnull
      rw [hupdates.data, hupdates.keys] at hspec hreturns
      have hafter : ∀ self₂, self₁.insert key .null = some self₂ →
          ∃ pos self₃, self₂.findSlot key = some (some pos, self₃) ∧
            Updates self₂ self₃ self₂.data ∧ firstMatch self₂.keys key = some pos := by
        intro self₂ hinsert
        obtain ⟨hdata, hsteady, -⟩ := hspec self₂ hinsert
        refine place_at hsteady ?_
        rw [Object.keys, hdata, Members.set_eq_append hnew, List.map_append]
        exact List.mem_append_right _ (List.mem_singleton_self key)
      constructor
      · intro pos' self' heq
        obtain ⟨self₂, hinsert, heq⟩ := Option.bind_eq_some_iff.mp heq
        obtain ⟨pos, self₃, hat, hupdates', hpos⟩ := hafter self₂ hinsert
        obtain ⟨hdata, -, hlimited⟩ := hspec self₂ hinsert
        rw [hat] at heq
        cases heq
        have hfirst : firstMatch self'.keys key = some pos' := by rw [hupdates'.keys, hpos]
        obtain ⟨value, hget, hvalue⟩ := getElem?_firstMatch hfirst
        refine ⟨hfirst, ?_, fun value => ?_, hupdates'.steady, fun hself => ?_⟩
        · rw [hupdates'.data, hdata, Members.get?_set_self] at hvalue
          rw [hget, Members.get?_eq_none.mpr hnew, ← Option.some.inj hvalue]
          rfl
        · rw [hupdates'.data, hdata, Members.set_set]
        · obtain ⟨hroom, hlimited⟩ := hlimited (hupdates.limited hself) trivial
          exact ⟨hroom, hupdates'.limited hlimited⟩
      · intro hroom
        obtain ⟨self₂, hinsert⟩ := hreturns hroom
        obtain ⟨pos, self₃, hat, -⟩ := hafter self₂ hinsert
        refine ⟨(pos, self₃), ?_⟩
        simp only [hinsert, hat, Option.bind_eq_bind, Option.bind_some]
        rfl

end Object

namespace Node

theorem isNull_tree (node : Node) : node.tree.isNull = node.isNull := by
  cases node with
  | array elements => rw [tree_array]; rfl
  | object self => rw [tree_object]; rfl
  | _ => rfl

theorem members_tree (node : Node) :
    node.tree.members = Members.mapValues tree node.mergeMembers := by
  cases node with
  | array elements => rw [tree_array]; rfl
  | object self => rw [tree_object]; rfl
  | _ => rfl

/-- The object that a patch with members is merged into. -/
theorem coerced_spec {target : Node} (h : target.Steady) (res : Nat) :
    (target.asObject.getD { resource := res }).data = target.mergeMembers ∧
      (object (target.asObject.getD { resource := res })).Steady ∧
      (target.Limited → (object (target.asObject.getD { resource := res })).Limited) := by
  have hempty : (object { resource := res }).Steady ∧ (object { resource := res }).Limited :=
    ⟨steady_object.mpr ⟨⟨Index.cacheHolds_none _, List.nodup_nil⟩,
      fun _ hmem => absurd hmem List.not_mem_nil⟩,
      limited_object.mpr ⟨Index.limited_none _, fun _ hmem => absurd hmem List.not_mem_nil⟩⟩
  cases target with
  | object self => exact ⟨rfl, h, id⟩
  | _ => exact ⟨rfl, hempty.1, fun _ => hempty.2⟩

/-- A merge leaves what the reference leaves. It returns if it fits, and only then when the indexes
of the target were built within the limits. -/
def MergesAs (patch : Node) : Prop := ∀ res target, target.Steady →
  (∀ merged, mergePatchImpl res target patch = some merged →
    merged.tree = Rfc7386.mergePatch target.tree patch.tree ∧ merged.Steady ∧
      (target.Limited → merged.Limited ∧ target.tree.MergeFits patch.tree)) ∧
    (target.tree.MergeFits patch.tree → ∃ merged, mergePatchImpl res target patch = some merged)

/-- One member of a patch: the null deletes, and any other value is merged at the place of the
member. The members that come later are not touched. -/
theorem mergePatchEntries_spec {res : Nat} {data : List (Bytes × Node)}
    {members : List (Bytes × Json Bytes)} {count : Nat} {self : Object Node}
    (hmerges : ∀ entry ∈ data, entry.2.MergesAs)
    (hnodup : (data.map (·.1)).Nodup) (hself : (object self).Steady)
    (hsame : ∀ key ∈ data.map (·.1),
      (Members.get? key self.data).map tree = Members.get? key members)
    (hcount : self.data.length = count) :
    (∀ merged, mergePatchEntries res self data = some merged →
      Members.mapValues tree merged.data =
          Rfc7386.mergeMembers (Members.mapValues tree self.data) (Members.mapValues tree data) ∧
        (object merged).Steady ∧ ((object self).Limited →
          (object merged).Limited ∧
            Json.MergeFitsEntries members count (Members.mapValues tree data))) ∧
      (Json.MergeFitsEntries members count (Members.mapValues tree data) →
        ∃ merged, mergePatchEntries res self data = some merged) := by
  induction data generalizing self count with
  | nil =>
      refine ⟨fun merged heq => ?_, fun _ => ⟨self, rfl⟩⟩
      cases heq
      exact ⟨rfl, hself, fun hlimited => ⟨hlimited, trivial⟩⟩
  | cons entry rest ih =>
      obtain ⟨key, value⟩ := entry
      rw [List.map_cons, List.nodup_cons] at hnodup
      rw [List.map_cons, List.forall_mem_cons] at hsame
      rw [List.forall_mem_cons] at hmerges
      have hkey : key ∈ members.map (·.1) ↔ key ∈ self.keys := by
        have hnone : key ∉ members.map (·.1) ↔ key ∉ self.keys := by
          rw [← Members.get?_eq_none, ← hsame.1, Option.map_eq_none_iff, Members.get?_eq_none]
          rfl
        exact not_iff_not.mp hnone
      have hne : ∀ other ∈ rest.map (·.1), other ≠ key := fun other hmem heq =>
        hnodup.1 (heq ▸ hmem)
      rw [mergePatchEntries, Members.mapValues_cons, Rfc7386.mergeMembers, Json.MergeFitsEntries,
        isNull_tree]
      by_cases hnull : value.isNull = true
      · rw [if_pos hnull, if_pos hnull, if_pos hnull]
        obtain ⟨removed, self', hremove, hupdates⟩ := Object.remove_updates hself key
        have hlength : self'.data.length = if key ∈ members.map (·.1) then count - 1 else count := by
          rw [hupdates.data]
          split
          · rename_i hmem
            rw [Members.length_remove_of_mem (steady_object.mp hself).1.2 (hkey.mp hmem), hcount]
          · rename_i hmem
            rw [Members.remove_eq_self fun h => hmem (hkey.mpr h), hcount]
        obtain ⟨hspec, hreturns⟩ := ih hmerges.2 hnodup.2 hupdates.steady (fun other hmem => by
          rw [hupdates.data, Members.get?_remove_of_ne (hne other hmem), hsame.2 other hmem]) hlength
        rw [hremove, Option.bind_eq_bind, Option.bind_some]
        refine ⟨fun merged heq => ?_, hreturns⟩
        obtain ⟨htree, hsteady, hlimited⟩ := hspec merged heq
        rw [hupdates.data, Members.mapValues_remove] at htree
        exact ⟨htree, hsteady, fun hself => hlimited (hupdates.limited hself)⟩
      · rw [if_neg hnull, if_neg hnull, if_neg hnull]
        obtain ⟨hplace, hplaces⟩ := Object.placeOf_spec hself key
        have hmerge : value.MergesAs := hmerges.1
        -- what the merged value is put into, and what follows for the rest of the patch
        have hstep : ∀ pos self' merged, Object.Place key self pos self' → merged.Steady →
            (self'.setValue pos merged).data = Members.set key merged self.data ∧
              (object (self'.setValue pos merged)).Steady ∧
              ((object self').Limited → merged.Limited →
                (object (self'.setValue pos merged)).Limited) := by
          intro pos self' merged hat hmerged
          obtain ⟨hdata, hrest⟩ := Object.setValue_updates hat.steady hat.first hmerged
          exact ⟨hdata.trans (hat.set merged), hrest⟩
        have hfound : ∀ pos self', Object.Place key self pos self' →
            ((Members.get? key self.data).getD null).Steady ∧
              ((object self').Limited → ((Members.get? key self.data).getD null).Limited) :=
          fun pos self' hat => ⟨(steady_object.mp hat.steady).2 _ (List.mem_of_getElem? hat.value),
            fun hlimited => (limited_object.mp hlimited).2 _ (List.mem_of_getElem? hat.value)⟩
        have htreeFound : ((Members.get? key self.data).getD null).tree =
            (Members.get? key (Members.mapValues tree self.data)).getD .null := by
          rw [Members.get?_mapValues]
          cases Members.get? key self.data <;> rfl
        have hlater : ∀ merged, ∀ other ∈ rest.map (·.1),
            (Members.get? other (Members.set key merged self.data)).map tree =
              Members.get? other members := by
          intro merged other hmem
          rw [Members.get?_set_of_ne (hne other hmem), hsame.2 other hmem]
        have hlength : ∀ merged : Node, (Members.set key merged self.data).length =
            if key ∈ members.map (·.1) then count else count + 1 := by
          intro merged
          split
          · rename_i hmem
            rw [Members.length_set_of_mem (hkey.mp hmem), hcount]
          · rename_i hmem
            rw [Members.set_eq_append fun h => hmem (hkey.mpr h), List.length_append, hcount]
            rfl
        -- the condition, with the members of the target as they are at this point
        have hfits : (if key ∈ members.map (·.1) then
              ((Members.get? key members).getD .null).MergeFits value.tree ∧
                Json.MergeFitsEntries members count (Members.mapValues tree rest)
            else count < Index.kMaxIndexed ∧ Json.MergeFits .null value.tree ∧
              Json.MergeFitsEntries members (count + 1) (Members.mapValues tree rest)) ↔
            (key ∈ self.keys ∨ self.data.length < Index.kMaxIndexed) ∧
              ((Members.get? key self.data).getD null).tree.MergeFits value.tree ∧
              Json.MergeFitsEntries members (if key ∈ members.map (·.1) then count else count + 1)
                (Members.mapValues tree rest) := by
          rw [htreeFound, Members.get?_mapValues, hsame.1, hcount]
          by_cases hmem : key ∈ members.map (·.1)
          · rw [if_pos hmem, if_pos hmem]
            exact ⟨fun h => ⟨.inl (hkey.mp hmem), h⟩, fun h => h.2⟩
          · rw [if_neg hmem, if_neg hmem, Members.get?_eq_none.mpr hmem]
            exact and_congr_left fun _ => ⟨.inr, fun h => h.resolve_left fun h => hmem (hkey.mpr h)⟩
        constructor
        · intro merged heq
          obtain ⟨⟨pos, self'⟩, hat, heq⟩ := Option.bind_eq_some_iff.mp heq
          have hat := hplace pos self' hat
          simp only [hat.value, Option.bind_eq_bind, Option.bind_some] at heq
          obtain ⟨value', hvalue', heq⟩ := Option.bind_eq_some_iff.mp heq
          obtain ⟨hsteadyFound, hlimitedFound⟩ := hfound pos self' hat
          obtain ⟨htree, hsteady, hlimited⟩ := (hmerge res _ hsteadyFound).1 value' hvalue'
          obtain ⟨hdata, hsteady', hlimited'⟩ := hstep pos self' value' hat hsteady
          obtain ⟨htree'', hsteady'', hlimited''⟩ := (ih hmerges.2 hnodup.2 hsteady' (fun other hmem => by
            rw [hdata, hlater value' other hmem]) (by rw [hdata, hlength])).1 merged heq
          rw [hdata, Members.mapValues_set, htree, htreeFound] at htree''
          refine ⟨htree'', hsteady'', fun hself => ?_⟩
          obtain ⟨hroom, hself'⟩ := hat.limited hself
          obtain ⟨hvalue, hfitsValue⟩ := hlimited (hlimitedFound hself')
          obtain ⟨hmerged, hfitsRest⟩ := hlimited'' (hlimited' hself' hvalue)
          exact ⟨hmerged, hfits.mpr ⟨hroom, hfitsValue, hfitsRest⟩⟩
        · intro hfit
          obtain ⟨hroom, hfitValue, hfitRest⟩ := hfits.mp hfit
          obtain ⟨⟨pos, self'⟩, hat⟩ := hplaces hroom
          have hplaced := hplace pos self' hat
          obtain ⟨hsteadyFound, -⟩ := hfound pos self' hplaced
          obtain ⟨value', hvalue'⟩ := (hmerge res _ hsteadyFound).2 hfitValue
          obtain ⟨-, hsteady, -⟩ := (hmerge res _ hsteadyFound).1 value' hvalue'
          obtain ⟨hdata, hsteady', -⟩ := hstep pos self' value' hplaced hsteady
          obtain ⟨merged, hmerged⟩ := (ih hmerges.2 hnodup.2 hsteady' (fun other hmem => by
            rw [hdata, hlater value' other hmem]) (by rw [hdata, hlength])).2 hfitRest
          refine ⟨merged, ?_⟩
          simp only [hat, hplaced.value, hvalue', hmerged, Option.bind_eq_bind, Option.bind_some]

theorem mergesAs (patch : Node) (hpatch : patch.NoDuplicates) : patch.MergesAs := by
  have hclone : ∀ {value : Node}, value.NoDuplicates →
      (∀ res target, mergePatchImpl res target value = value.clone res) →
      (∀ target, Rfc7386.mergePatch target value.tree = value.tree) →
      (∀ target : Json Bytes, target.MergeFits value.tree ↔ value.tree.Indexable) → value.MergesAs := by
    intro value hvalue himpl href hfits res target htarget
    rw [himpl, href, hfits, indexable_tree]
    refine ⟨fun merged hmerged => ?_, (clone_spec value).2⟩
    have hcopy := (clone_spec value).1 merged hmerged
    exact ⟨hcopy.tree, clone_steady hvalue hmerged, fun _ => ⟨hcopy.limited, hcopy.indexable⟩⟩
  induction patch using Node.induct with
  | object self ih =>
      obtain ⟨data, index, resource⟩ := self
      intro res target htarget
      obtain ⟨hnodup, hvalues⟩ := noDuplicates_object.mp hpatch
      obtain ⟨hdata, hsteady, hlimited⟩ := coerced_spec htarget res
      have hloop := @mergePatchEntries_spec res data target.tree.members target.tree.members.length
        _ (fun entry hmem => ih entry hmem (hvalues entry hmem)) hnodup hsteady
        (fun key _ => by rw [hdata, members_tree, Members.get?_mapValues])
        (by rw [hdata, members_tree, Members.mapValues, List.length_map])
      rw [mergePatchImpl, tree_object, Json.MergeFits, Rfc7386.mergePatch]
      constructor
      · intro merged heq
        obtain ⟨merged', hmerged, heq⟩ := Option.bind_eq_some_iff.mp heq
        cases heq
        obtain ⟨htree, hsteady', hlimited'⟩ := hloop.1 merged' hmerged
        rw [hdata, ← members_tree] at htree
        exact ⟨by rw [tree_object, htree], hsteady', fun htarget => hlimited' (hlimited htarget)⟩
      · intro hfits
        obtain ⟨merged, hmerged⟩ := hloop.2 hfits
        exact ⟨object merged, by rw [hmerged]; rfl⟩
  | array elements =>
      refine hclone hpatch (fun _ _ => rfl) (fun _ => ?_) fun _ => ?_
      · rw [tree_array]
        rfl
      · rw [tree_array]
        rfl
  | _ => exact hclone hpatch (fun _ _ => rfl) (fun _ => rfl) fun _ => Iff.rfl

/-- `merge_patch` returns and leaves the result of the reference in the target, whatever the state
of the lookup indexes. -/
def MergesExactly (target patch : Node) : Prop := ∀ target' patch' res, Keeps target target' →
  Keeps patch patch' → ∃ merged, mergePatch target' patch' res = some merged ∧
    merged.tree = Rfc7386.mergePatch target.tree patch.tree

theorem mergeFits_of_mergesExactly {target patch : Node} (htarget : target.NoDuplicates)
    (hpatch : patch.NoDuplicates) (h : MergesExactly target patch) :
    target.tree.MergeFits patch.tree := by
  obtain ⟨merged, hmerged, -⟩ := h _ _ 0 (keeps_bare target) (keeps_bare patch)
  have hspec := mergesAs patch.bare ((noDuplicates_bare patch).mpr hpatch) 0 target.bare
    ((keeps_bare target).steady htarget)
  obtain ⟨-, -, hlimited⟩ := hspec.1 merged hmerged
  have hfits := (hlimited (limited_bare target)).2
  rwa [tree_bare, tree_bare] at hfits

/-- `merge_patch` computes the MergePatch of RFC 7386 exactly where no object that it copies or adds a
member to outgrows an index. -/
theorem mergesExactly_iff {target patch : Node} (htarget : target.NoDuplicates)
    (hpatch : patch.NoDuplicates) :
    MergesExactly target patch ↔ target.tree.MergeFits patch.tree := by
  refine ⟨mergeFits_of_mergesExactly htarget hpatch, fun hfits target' patch' res hkeeps hkeeps' => ?_⟩
  have hspec := mergesAs patch' (hkeeps'.steady hpatch).noDuplicates res target'
    (hkeeps.steady htarget)
  rw [hkeeps.tree, hkeeps'.tree] at hspec
  obtain ⟨merged, hmerged⟩ := hspec.2 hfits
  exact ⟨merged, hmerged, (hspec.1 merged hmerged).1⟩

/-- A patch that deletes a member, and adds an object in which a null disappears. -/
theorem mergesExactly_nested : MergesExactly (object { data := [([1], .null), ([2], .null)] })
    (object { data := [([1], .null), ([3], object { data := [([4], .null)] })] }) := by
  refine (mergesExactly_iff ?_ ?_).mpr ?_
  · rw [noDuplicates_object, List.forall_mem_cons, List.forall_mem_singleton]
    exact ⟨by simp [Object.keys], trivial, trivial⟩
  · rw [noDuplicates_object, List.forall_mem_cons, List.forall_mem_singleton, noDuplicates_object,
      List.forall_mem_singleton]
    exact ⟨by simp [Object.keys], trivial, by simp [Object.keys], trivial⟩
  · simp [Members.mapValues, Json.MergeFits, Json.MergeFitsEntries, Json.members, Json.isNull,
      Index.kMaxIndexed]

theorem not_mergeFits_wide {n : Nat} (hlarge : Index.kMaxIndexed ≤ n) :
    ¬(object (wideObject n)).tree.MergeFits (object { data := [([], boolean true)] }).tree := by
  have hnew : ([] : Bytes) ∉ (Members.mapValues tree (wideObject n).data).map (·.1) := by
    simp [Members.mapValues, wideObject, keyOf]
  have hlength : (Members.mapValues tree (wideObject n).data).length = n := by
    rw [Members.mapValues, List.length_map, ← length_keys, length_wideObject]
  rw [tree_object, tree_object, Json.MergeFits, Members.mapValues_cons, Json.MergeFitsEntries,
    isNull_tree]
  intro h
  split at h
  · rename_i hnull
    cases hnull
  · split at h
    · rename_i hmem
      exact hnew hmem
    · exact absurd h.1 (Nat.not_lt_of_le (hlength.symm ▸ hlarge))

theorem addEmptyName_noDuplicates : (object { data := [([], boolean true)] }).NoDuplicates := by
  rw [noDuplicates_object, List.forall_mem_singleton]
  exact ⟨List.nodup_singleton _, trivial⟩

/-- An object with too many entries for an index cannot get a new member. -/
theorem not_mergesExactly_wide {n : Nat} (hlarge : Index.kMaxIndexed ≤ n) (hle : n ≤ 2 ^ 32) :
    ¬MergesExactly (object (wideObject n)) (object { data := [([], boolean true)] }) :=
  fun h => not_mergeFits_wide hlarge
    (mergeFits_of_mergesExactly (wideObject_plain hle).1 addEmptyName_noDuplicates h)

theorem not_mergesExactly_huge : hugeNode.NoDuplicates ∧
    (object { data := [([], boolean true)] }).NoDuplicates ∧
    ¬MergesExactly hugeNode (object { data := [([], boolean true)] }) :=
  ⟨hugeNode_plain.1, addEmptyName_noDuplicates,
    not_mergesExactly_wide (Nat.le_add_right _ 1) (by rw [Index.kMaxIndexed]; omega)⟩

end Node
end PjhJson
