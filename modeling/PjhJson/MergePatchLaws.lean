import PjhJson.LibUpdate
import PjhJson.MergePatch

/-! What `merge_patch` does to a document that was patched already, and what the order of members in
a patch matters: a second application changes nothing, and the order shows in the order of new
members only. -/

namespace PjhJson

/-! ### Twice -/

namespace Rfc7386

/-- What a member of a patch makes of the member with its name: a null deletes it. -/
def patched (old : Option (Json Bytes)) (value : Json Bytes) : Option (Json Bytes) :=
  if value.isNull then none else some (mergePatch (old.getD .null) value)

theorem mergeMembers_eq_update (target members : List (Bytes × Json Bytes)) :
    mergeMembers target members = Members.update patched target members := by
  induction members generalizing target with
  | nil => rw [mergeMembers, Members.update]
  | cons member rest ih =>
      obtain ⟨name, value⟩ := member
      rw [mergeMembers, Members.update, patched]
      split
      · exact ih _
      · exact ih _

theorem mergePatch_object (target : Json Bytes) (members : List (Bytes × Json Bytes)) :
    mergePatch target (.object members) = .object (Members.update patched target.members members) := by
  rw [mergePatch, mergeMembers_eq_update]

theorem mergePatch_of_not_object {target patch : Json Bytes} (h : ∀ members, patch ≠ .object members) :
    mergePatch target patch = patch := by
  cases patch with
  | object members => exact absurd rfl (h members)
  | _ =>
      rw [mergePatch]
      intro _ heq
      cases heq

end Rfc7386

namespace Node

open Object

/-- A member that was patched is patched in the same way again. -/
theorem patched_patched {value : Node}
    (h : ∀ target, Rfc7386.mergePatch (Rfc7386.mergePatch target value.tree) value.tree =
      Rfc7386.mergePatch target value.tree) (old : Option (Json Bytes)) :
    Rfc7386.patched (Rfc7386.patched old value.tree) value.tree = Rfc7386.patched old value.tree := by
  rw [Rfc7386.patched, Rfc7386.patched]
  split
  · rfl
  · rw [Option.getD_some, h]

theorem nodup_mapValues {data : List (Bytes × Node)} (h : (data.map (·.1)).Nodup) :
    ((Members.mapValues tree data).map (·.1)).Nodup := by
  rw [Members.mapValues, List.map_map]
  exact h

theorem tree_ne_object {node : Node} (h : node.rank ≠ 6) (members : List (Bytes × Json Bytes)) :
    node.tree ≠ .object members := by
  intro htree
  cases node with
  | object self => exact h rfl
  | array elements =>
      rw [tree_array] at htree
      cases htree
  | _ => cases htree

/-- The second application of a patch changes nothing, the order of members included. -/
theorem mergePatch_mergePatch {patch : Node} (hpatch : patch.NoDuplicates) (target : Json Bytes) :
    Rfc7386.mergePatch (Rfc7386.mergePatch target patch.tree) patch.tree =
      Rfc7386.mergePatch target patch.tree := by
  induction patch using Node.induct generalizing target with
  | object self ih =>
      obtain ⟨hnodup, hvalues⟩ := noDuplicates_object.mp hpatch
      rw [tree_object, Rfc7386.mergePatch_object, Rfc7386.mergePatch_object]
      refine congrArg Json.object (Members.update_update (nodup_mapValues hnodup) fun entry hmem => ?_)
      obtain ⟨member, hmember, rfl⟩ := List.mem_map.mp hmem
      exact patched_patched (ih member hmember (hvalues member hmember)) _
  | array elements =>
      have hnot := @tree_ne_object (array elements) (by simp [rank])
      rw [Rfc7386.mergePatch_of_not_object hnot, Rfc7386.mergePatch_of_not_object hnot]
  | _ =>
      rw [Rfc7386.mergePatch_of_not_object (tree_ne_object (by simp [rank])),
        Rfc7386.mergePatch_of_not_object (tree_ne_object (by simp [rank]))]

/-- What the values of a patch need, whatever the number of members that are added. -/
theorem mergeFitsEntries_mem {members entries : List (Bytes × Json Bytes)} {count : Nat}
    (h : Json.MergeFitsEntries members count entries) : ∀ entry ∈ entries,
      entry.2.isNull = false → Json.MergeFits ((Members.get? entry.1 members).getD .null) entry.2 := by
  induction entries generalizing count with
  | nil => exact fun _ hmem => absurd hmem List.not_mem_nil
  | cons entry rest ih =>
      rw [Json.MergeFitsEntries] at h
      rw [List.forall_mem_cons]
      by_cases hnull : entry.2.isNull = true
      · rw [if_pos hnull] at h
        exact ⟨fun hnonnull => absurd (hnonnull.symm.trans hnull) Bool.false_ne_true, ih h⟩
      · rw [if_neg hnull] at h
        split at h
        · exact ⟨fun _ => h.1, ih h.2⟩
        · rename_i hnew
          rw [Members.get?_eq_none.mpr hnew]
          exact ⟨fun _ => h.2.1, ih h.2.2⟩

/-- Where every member that is not deleted is there already, only the values need room. -/
theorem mergeFitsEntries_of_mem {members entries : List (Bytes × Json Bytes)} {count : Nat}
    (h : ∀ entry ∈ entries, entry.2.isNull = false → ∃ found,
      Members.get? entry.1 members = some found ∧ Json.MergeFits found entry.2) :
    Json.MergeFitsEntries members count entries := by
  induction entries generalizing count with
  | nil => trivial
  | cons entry rest ih =>
      rw [List.forall_mem_cons] at h
      rw [Json.MergeFitsEntries]
      split
      · exact ih h.2
      · rename_i hnull
        obtain ⟨found, hget, hfits⟩ := h.1 (Bool.not_eq_true _ ▸ hnull)
        have hmem : entry.1 ∈ members.map (·.1) := by
          by_contra hnew
          rw [Members.get?_eq_none.mpr hnew] at hget
          cases hget
        rw [if_pos hmem, hget]
        exact ⟨hfits, ih h.2⟩

/-- The second application adds no member, and copies what the first one copied. -/
theorem mergeFits_mergePatch {patch : Node} (hpatch : patch.NoDuplicates) {target : Json Bytes}
    (h : target.MergeFits patch.tree) :
    Json.MergeFits (Rfc7386.mergePatch target patch.tree) patch.tree := by
  induction patch using Node.induct generalizing target with
  | object self ih =>
      obtain ⟨hnodup, hvalues⟩ := noDuplicates_object.mp hpatch
      have hentries := nodup_mapValues hnodup
      rw [tree_object, Json.MergeFits] at h
      rw [tree_object, Rfc7386.mergePatch_object, Json.MergeFits]
      refine mergeFitsEntries_of_mem fun entry hmem hnonnull => ?_
      have hfits := mergeFitsEntries_mem h entry hmem hnonnull
      rw [Json.members, Members.get?_update hentries, Members.get?_of_mem hentries hmem]
      refine ⟨_, if_neg (by rw [hnonnull]; exact Bool.false_ne_true), ?_⟩
      obtain ⟨member, hmember, rfl⟩ := List.mem_map.mp hmem
      exact ih member hmember (hvalues member hmember) hfits
  | array elements =>
      rw [tree_array] at h ⊢
      rw [Json.MergeFits] at h ⊢
      · exact h
      · intro _ heq
        cases heq
      · intro _ heq
        cases heq
  | _ => exact h

/-! ### Codes of trees -/

mutual

/-- A node that denotes the tree. -/
def ofTree : Json Bytes → Node
  | .null => null
  | .boolean value => boolean value
  | .integer value => integer value
  | .double value => floating value
  | .string text => stringOwned text
  | .array elements => array (ofTreeElements elements)
  | .object entries => object { data := ofTreeEntries entries }

def ofTreeElements : List (Json Bytes) → List Node
  | [] => []
  | value :: rest => ofTree value :: ofTreeElements rest

def ofTreeEntries : List (Bytes × Json Bytes) → List (Bytes × Node)
  | [] => []
  | (key, value) :: rest => (key, ofTree value) :: ofTreeEntries rest

end

theorem ofTree_array (elements : List (Json Bytes)) :
    ofTree (.array elements) = array (elements.map ofTree) := by
  rw [ofTree]
  congr 1
  induction elements with
  | nil => rfl
  | cons value rest ih => rw [ofTreeElements, ih, List.map_cons]

theorem ofTree_object (entries : List (Bytes × Json Bytes)) :
    ofTree (.object entries) = object { data := Members.mapValues ofTree entries } := by
  rw [ofTree]
  congr 2
  induction entries with
  | nil => rfl
  | cons entry rest ih => rw [ofTreeEntries, ih, Members.mapValues_cons]

/-- What equality compares depends on the tree only. -/
theorem code_ofTree (node : Node) : (ofTree node.tree).code = node.code := by
  induction node using Node.induct with
  | array elements ih =>
      rw [tree_array, ofTree_array, code_array_iff, List.map_map, List.map_map]
      exact List.map_congr_left ih
  | object self ih =>
      rw [tree_object, ofTree_object, code_object_iff, codes, codes]
      refine congrArg sortByKey ?_
      rw [Members.mapValues, Members.mapValues, List.map_map, List.map_map]
      refine List.map_congr_left fun entry hmem => ?_
      exact congrArg (entry.1, ·) (ih entry hmem)
  | _ => rfl

theorem get?_codes (self : Object Node) (key : Bytes) :
    Members.get? key (codes self) = (Members.get? key self.data).map code := Members.get?_mapValues code

/-- Objects without repeated keys have the same code when they answer every lookup alike. -/
theorem code_object_get? {self other : Object Node} (hself : self.keys.Nodup)
    (hother : other.keys.Nodup) : (object self).code = (object other).code ↔
      ∀ key, (Members.get? key self.data).map code = (Members.get? key other.data).map code := by
  have hcodes : ((codes self).map (·.1)).Nodup := by rwa [keys_codes]
  have hcodes' : ((codes other).map (·.1)).Nodup := by rwa [keys_codes]
  simp only [← get?_codes]
  rw [code_object_iff]
  constructor
  · intro h
    have hperm : ∀ entries : List (Bytes × List ℤ), (sortByKey entries).Perm entries :=
      fun entries => List.mergeSort_perm entries _
    have hself := hperm (codes self)
    rw [h] at hself
    exact Members.get?_perm hcodes (hself.symm.trans (hperm (codes other)))
  · exact fun h => sortByKey_perm hcodes (Members.perm_of_get? hcodes hcodes' h)

/-! ### The order of the members of a patch -/

/-- The member that a patch is merged into, as a node. -/
theorem found_spec {target : Node} (h : target.NoDuplicates) (key : Bytes) : ∃ found : Node,
    found.NoDuplicates ∧ found.tree = (Members.get? key target.tree.members).getD .null := by
  rw [members_tree, Members.get?_mapValues]
  cases hget : Members.get? key target.mergeMembers with
  | none => exact ⟨null, trivial, rfl⟩
  | some found =>
      refine ⟨found, ?_, rfl⟩
      cases target with
      | object self => exact (noDuplicates_object.mp h).2 _ (Members.get?_mem hget)
      | _ => cases hget

theorem nodup_members {target : Node} (h : target.NoDuplicates) :
    (target.tree.members.map (·.1)).Nodup := by
  rw [members_tree]
  cases target with
  | object self => exact nodup_mapValues (noDuplicates_object.mp h).1
  | _ => exact List.nodup_nil

theorem isNull_of_code {a b : Node} (h : a.code = b.code) : a.isNull = b.isNull := by
  have hrank := rank_of_code h
  cases a <;> cases b <;> first | rfl | exact absurd hrank (by simp [rank])

theorem mergePatch_code_of_rank {patch patch' : Node} (hrank : patch.rank ≠ 6)
    (h : patch.code = patch'.code) (target : Json Bytes) :
    (ofTree (Rfc7386.mergePatch target patch.tree)).code =
      (ofTree (Rfc7386.mergePatch target patch'.tree)).code := by
  rw [Rfc7386.mergePatch_of_not_object (tree_ne_object hrank),
    Rfc7386.mergePatch_of_not_object (tree_ne_object (rank_of_code h ▸ hrank)), code_ofTree,
    code_ofTree, h]

/-- The order of members, at any depth of a patch, shows in the order of the result only. -/
theorem mergePatch_code {patch patch' target : Node} (hpatch : patch.NoDuplicates)
    (hpatch' : patch'.NoDuplicates) (htarget : target.NoDuplicates)
    (h : patch.code = patch'.code) :
    (ofTree (Rfc7386.mergePatch target.tree patch.tree)).code =
      (ofTree (Rfc7386.mergePatch target.tree patch'.tree)).code := by
  induction patch using Node.induct generalizing patch' target with
  | object self ih => cases patch' with
    | object other =>
        obtain ⟨hnodup, hvalues⟩ := noDuplicates_object.mp hpatch
        obtain ⟨hnodup', hvalues'⟩ := noDuplicates_object.mp hpatch'
        have hmembers := nodup_members htarget
        have hlookup := (code_object_get? hnodup hnodup').mp h
        have hupdated : ∀ members : List (Bytes × Json Bytes), Object.keys
            { data := Members.mapValues ofTree (Members.update Rfc7386.patched target.tree.members members) } =
            (Members.update Rfc7386.patched target.tree.members members).map (·.1) := fun members => by
          rw [Object.keys, Members.mapValues, List.map_map]
          rfl
        rw [tree_object, tree_object, Rfc7386.mergePatch_object, Rfc7386.mergePatch_object,
          ofTree_object, ofTree_object, code_object_get?
            (by rw [hupdated]; exact Members.nodup_update hmembers)
            (by rw [hupdated]; exact Members.nodup_update hmembers)]
        intro key
        have hkey := hlookup key
        rw [Members.get?_mapValues, Members.get?_mapValues,
          Members.get?_update (nodup_mapValues hnodup), Members.get?_update (nodup_mapValues hnodup'),
          Members.get?_mapValues, Members.get?_mapValues]
        cases hget : Members.get? key self.data with
        | none =>
            rw [hget] at hkey
            rw [Option.map_eq_none_iff.mp hkey.symm]
        | some value =>
            rw [hget] at hkey
            obtain ⟨value', hget', hcode⟩ := Option.map_eq_some_iff.mp hkey.symm
            have hmem := Members.get?_mem hget
            have hmem' := Members.get?_mem hget'
            obtain ⟨found, hfound, htree⟩ := found_spec htarget key
            rw [hget', Option.map_some, Option.map_some]
            simp only [Rfc7386.patched, isNull_tree, isNull_of_code hcode, ← htree]
            split
            · rfl
            · exact congrArg some
                (ih _ hmem (hvalues _ hmem) (hvalues' _ hmem') hfound hcode.symm)
    | _ => exact absurd (rank_of_code h) (by simp [rank])
  | array elements => exact mergePatch_code_of_rank (by simp [rank]) h _
  | _ => exact mergePatch_code_of_rank (by simp [rank]) h _

/-! ### `merge_patch` -/

/-- A patch that is applied twice, with any state of the lookup indexes, leaves the document that it
leaves when it is applied once. -/
def PatchesOnce (target patch : Node) : Prop := ∀ target' patch' patch'' res res',
  Keeps target target' → Keeps patch patch' → Keeps patch patch'' →
    ∃ merged, mergePatch target' patch' res = some merged ∧
      ∃ again, mergePatch merged patch'' res' = some again ∧ again.tree = merged.tree

/-- A patch with the members of its objects in another order, at any depth, leaves an equal document,
unless that has a NaN, which does not equal itself. -/
def IgnoresOrder (target patch : Node) : Prop := ∀ permuted target' target'' patch' res res',
  Permuted patch permuted → permuted.Sound → target.tree.MergeFits permuted.tree →
    Keeps target target' → Keeps target target'' → Keeps patch patch' →
    ∃ merged merged', mergePatch target' patch' res = some merged ∧
      mergePatch target'' permuted res' = some merged' ∧
      (merged.Indexable → merged.NoNaN → equal merged merged' = some true)

theorem mergePatch_spec {target patch target' patch' : Node} (htarget : target.NoDuplicates)
    (hpatch : patch.NoDuplicates) (hfits : target.tree.MergeFits patch.tree)
    (hkeeps : Keeps target target') (hkeeps' : Keeps patch patch') (res : Nat) :
    ∃ merged, mergePatch target' patch' res = some merged ∧
      merged.tree = Rfc7386.mergePatch target.tree patch.tree ∧ merged.Steady := by
  have hspec := mergesAs patch' (hkeeps'.steady hpatch).noDuplicates res target'
    (hkeeps.steady htarget)
  rw [hkeeps.tree, hkeeps'.tree] at hspec
  obtain ⟨merged, hmerged⟩ := hspec.2 hfits
  obtain ⟨htree, hsteady, -⟩ := hspec.1 merged hmerged
  exact ⟨merged, hmerged, htree, hsteady⟩

theorem patchesOnce {target patch : Node} (htarget : target.NoDuplicates)
    (hpatch : patch.NoDuplicates) (hfits : target.tree.MergeFits patch.tree) :
    PatchesOnce target patch := by
  intro target' patch' patch'' res res' hkeeps hkeeps' hkeeps''
  obtain ⟨merged, hmerged, htree, hsteady⟩ :=
    mergePatch_spec htarget hpatch hfits hkeeps hkeeps' res
  obtain ⟨again, hagain, htree', -⟩ := mergePatch_spec hsteady.noDuplicates hpatch
    (by rw [htree]; exact mergeFits_mergePatch hpatch hfits) (.refl hsteady.sound) hkeeps'' res'
  refine ⟨merged, hmerged, again, hagain, ?_⟩
  rw [htree', htree, mergePatch_mergePatch hpatch]

theorem ignoresOrder {target patch : Node} (htarget : target.NoDuplicates)
    (hpatch : patch.NoDuplicates) (hfits : target.tree.MergeFits patch.tree) :
    IgnoresOrder target patch := by
  intro permuted target' target'' patch' res res' hperm hsound hfits' hkeeps hkeeps' hkeeps''
  obtain ⟨hpermuted, hcode⟩ := hperm.code hpatch
  obtain ⟨merged, hmerged, htree, hsteady⟩ :=
    mergePatch_spec htarget hpatch hfits hkeeps hkeeps'' res
  obtain ⟨merged', hmerged', htree', hsteady'⟩ :=
    mergePatch_spec htarget hpermuted hfits' hkeeps' (.refl hsound) res'
  refine ⟨merged, merged', hmerged, hmerged', fun hindexable hnan => ?_⟩
  have hsame : merged.code = merged'.code := by
    rw [← code_ofTree merged, ← code_ofTree merged', htree, htree']
    exact mergePatch_code hpatch hpermuted htarget hcode
  rw [equal_eq hsteady.sound hsteady'.sound ⟨hsteady.noDuplicates, hnan⟩
    ⟨hsteady'.noDuplicates, noNaN_of_code hsame hnan⟩ (.inl hindexable),
    hsame, decide_eq_true rfl]

/-- Applying a patch twice is applying it once, and the order of its members does not matter. -/
theorem patchesOnce_and_ignoresOrder {target patch : Node} (htarget : target.NoDuplicates)
    (hpatch : patch.NoDuplicates) (hfits : target.tree.MergeFits patch.tree) :
    PatchesOnce target patch ∧ IgnoresOrder target patch :=
  ⟨patchesOnce htarget hpatch hfits, ignoresOrder htarget hpatch hfits⟩

/-- A patch that deletes a member, and adds an object in which a null disappears. -/
theorem patchesOnce_and_ignoresOrder_nested :
    PatchesOnce (object { data := [([1], .null), ([2], .null)] })
        (object { data := [([1], .null), ([3], object { data := [([4], .null)] })] }) ∧
      IgnoresOrder (object { data := [([1], .null), ([2], .null)] })
        (object { data := [([1], .null), ([3], object { data := [([4], .null)] })] }) := by
  refine patchesOnce_and_ignoresOrder ?_ ?_ ?_
  · rw [noDuplicates_object, List.forall_mem_cons, List.forall_mem_singleton]
    exact ⟨by decide, trivial, trivial⟩
  · rw [noDuplicates_object, List.forall_mem_cons, List.forall_mem_singleton, noDuplicates_object,
      List.forall_mem_singleton]
    exact ⟨by decide, trivial, by decide, trivial⟩
  · simp [Members.mapValues, Json.MergeFits, Json.MergeFitsEntries, Json.members, Json.isNull,
      Index.kMaxIndexed]

/-- A patch with a NaN and a deletion, and the same patch with its members exchanged. -/
theorem not_equal_permuted_nan :
    (object {}).NoDuplicates ∧
    (object { data := [([1], floating ⟨0x7FF8000000000000⟩), ([2], .null)] }).NoDuplicates ∧
    Permuted (object { data := [([1], floating ⟨0x7FF8000000000000⟩), ([2], .null)] })
      (object { data := [([2], .null), ([1], floating ⟨0x7FF8000000000000⟩)] }) ∧
    ((mergePatch (object {}) (object { data := [([1], floating ⟨0x7FF8000000000000⟩), ([2], .null)] })
        0).bind fun merged =>
      (mergePatch (object {}) (object { data := [([2], .null), ([1], floating ⟨0x7FF8000000000000⟩)] })
        0).bind fun merged' => equal merged merged') = some false := by
  refine ⟨?_, ?_, .entries (.swap _ _ _), rfl⟩
  · rw [noDuplicates_object]
    exact ⟨List.nodup_nil, fun _ hmem => absurd hmem List.not_mem_nil⟩
  · rw [noDuplicates_object, List.forall_mem_cons, List.forall_mem_singleton]
    exact ⟨by decide, trivial, trivial⟩

end Node

end PjhJson
