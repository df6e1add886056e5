import PjhJson.ObjectLimit

/-! What a `Json` says, without storage tags, resources and indexes, and that `clone` copies it. -/

namespace PjhJson

namespace Json

variable {σ : Type}

mutual

/-- No object has more entries than an index can be built for. -/
def Indexable : Json σ → Prop
  | array elements => IndexableElements elements
  | object entries => entries.length ≤ Index.kMaxIndexed ∧ IndexableEntries entries
  | _ => True

def IndexableElements : List (Json σ) → Prop
  | [] => True
  | value :: rest => value.Indexable ∧ IndexableElements rest

def IndexableEntries : List (σ × Json σ) → Prop
  | [] => True
  | (_, value) :: rest => value.Indexable ∧ IndexableEntries rest

end

theorem indexable_array {elements : List (Json σ)} :
    (array elements).Indexable ↔ ∀ value ∈ elements, value.Indexable := by
  rw [Indexable]
  induction elements with
  | nil => simp [IndexableElements]
  | cons value rest ih => rw [IndexableElements, ih, List.forall_mem_cons]

theorem indexable_object {entries : List (σ × Json σ)} : (object entries).Indexable ↔
    entries.length ≤ Index.kMaxIndexed ∧ ∀ entry ∈ entries, entry.2.Indexable := by
  have hrest : IndexableEntries entries ↔ ∀ entry ∈ entries, entry.2.Indexable := by
    induction entries with
    | nil => simp [IndexableEntries]
    | cons entry rest ih => rw [IndexableEntries, ih, List.forall_mem_cons]
  rw [Indexable, hrest]

end Json

namespace Node

mutual

/-- The tree that a node denotes. -/
def tree : Node → Json Bytes
  | null => .null
  | boolean value => .boolean value
  | integer value => .integer value
  | floating value => .double value
  | stringView text => .string text
  | stringOwned text => .string text
  | array elements => .array (treeElements elements)
  | object { data, .. } => .object (treeEntries data)

def treeElements : List Node → List (Json Bytes)
  | [] => []
  | value :: rest => value.tree :: treeElements rest

def treeEntries : List (Bytes × Node) → List (Bytes × Json Bytes)
  | [] => []
  | (key, value) :: rest => (key, value.tree) :: treeEntries rest

end

@[simp] theorem tree_array (elements : List Node) : (array elements).tree = .array (elements.map tree) := by
  rw [tree]
  congr 1
  induction elements with
  | nil => rfl
  | cons value rest ih => rw [treeElements, ih, List.map_cons]

@[simp] theorem tree_object (self : Object Node) :
    (object self).tree = .object (Members.mapValues tree self.data) := by
  obtain ⟨data, index, resource⟩ := self
  rw [tree]
  congr 1
  induction data with
  | nil => rfl
  | cons entry rest ih =>
      rw [treeEntries, ih]
      rfl

@[simp] theorem tree_null : null.tree = .null := rfl

theorem tree_bare (node : Node) : node.bare.tree = node.tree := by
  induction node using Node.induct with
  | array elements ih =>
      rw [bare_array, tree_array, tree_array, List.map_map]
      exact congrArg _ (List.map_congr_left ih)
  | object self ih =>
      rw [bare_object, tree_object, tree_object, Members.mapValues, Members.mapValues, List.map_map]
      refine congrArg _ (List.map_congr_left fun entry hmem => ?_)
      rw [Function.comp_apply, ih entry hmem]
  | _ => rfl

theorem indexable_tree (node : Node) : node.tree.Indexable ↔ node.Indexable := by
  induction node using Node.induct with
  | array elements ih =>
      rw [tree_array, Json.indexable_array, indexable_array, List.forall_mem_map]
      exact forall₂_congr ih
  | object self ih =>
      rw [tree_object, Json.indexable_object, indexable_object, Members.mapValues, List.length_map,
        length_keys, List.forall_mem_map]
      exact and_congr_right fun _ => forall₂_congr ih
  | _ => rfl

theorem Keeps.tree {before after : Node} (h : Keeps before after) : after.tree = before.tree := by
  rw [← tree_bare, h.bare, tree_bare]

theorem Keeps.steady {before after : Node} (h : Keeps before after) (hbefore : before.NoDuplicates) :
    after.Steady :=
  ⟨h.sound, by rwa [← noDuplicates_bare, h.bare, noDuplicates_bare]⟩

/-! ### Copies -/

section Clone

variable {into : Nat}

theorem cloneElements_eq_some {elements copies : List Node} :
    cloneElements into elements = some copies ↔
      List.Forall₂ (fun value copy => value.clone into = some copy) elements copies := by
  induction elements generalizing copies with
  | nil =>
      rw [List.forall₂_nil_left_iff, cloneElements, Option.some.injEq, eq_comm]
  | cons value rest ih =>
      rw [cloneElements, List.forall₂_cons_left_iff]
      constructor
      · intro h
        obtain ⟨copy, hcopy, h⟩ := Option.bind_eq_some_iff.mp h
        obtain ⟨copies', hrest, h⟩ := Option.bind_eq_some_iff.mp h
        cases h
        exact ⟨copy, copies', hcopy, ih.mp hrest, rfl⟩
      · rintro ⟨copy, copies', hcopy, hrest, rfl⟩
        rw [hcopy, ih.mpr hrest]
        rfl

theorem cloneEntries_eq_some {data copies : List (Bytes × Node)} :
    cloneEntries into data = some copies ↔
      List.Forall₂ (fun entry copy => copy.1 = entry.1 ∧ entry.2.clone into = some copy.2)
        data copies := by
  induction data generalizing copies with
  | nil => rw [List.forall₂_nil_left_iff, cloneEntries, Option.some.injEq, eq_comm]
  | cons entry rest ih =>
      rw [cloneEntries, List.forall₂_cons_left_iff]
      constructor
      · intro h
        obtain ⟨copy, hcopy, h⟩ := Option.bind_eq_some_iff.mp h
        obtain ⟨copies', hrest, h⟩ := Option.bind_eq_some_iff.mp h
        cases h
        exact ⟨(entry.1, copy), copies', ⟨rfl, hcopy⟩, ih.mp hrest, rfl⟩
      · rintro ⟨⟨key, copy⟩, copies', ⟨hkey, hcopy⟩, hrest, rfl⟩
        rw [hcopy, ih.mpr hrest, ← hkey]
        rfl

/-- A copy says what the value says, and is built within the limits. -/
structure CopyOf (value copy : Node) : Prop where
  tree : copy.tree = value.tree
  noDuplicates : value.NoDuplicates → copy.NoDuplicates
  limited : copy.Limited
  indexable : value.Indexable

theorem copyOf_array {elements copies : List Node} (h : List.Forall₂ CopyOf elements copies) :
    CopyOf (array elements) (array copies) := by
  have hall : copies.map Node.tree = elements.map Node.tree ∧
      ((∀ value ∈ elements, value.NoDuplicates) → ∀ copy ∈ copies, copy.NoDuplicates) ∧
      (∀ copy ∈ copies, copy.Limited) ∧ ∀ value ∈ elements, value.Indexable := by
    induction h with
    | nil => simp
    | cons hcopy _ ih =>
        obtain ⟨htree, hnodup, hlimited, hindexable⟩ := ih
        simp only [List.map_cons, List.forall_mem_cons]
        exact ⟨by rw [hcopy.tree, htree], fun h => ⟨hcopy.noDuplicates h.1, hnodup h.2⟩,
          ⟨hcopy.limited, hlimited⟩, hcopy.indexable, hindexable⟩
  obtain ⟨htree, hnodup, hlimited, hindexable⟩ := hall
  exact ⟨by rw [tree_array, tree_array, htree],
    fun h => noDuplicates_array.mpr (hnodup (noDuplicates_array.mp h)), limited_array.mpr hlimited,
    indexable_array.mpr hindexable⟩

theorem ofEntries_copyOf {data copies : List (Bytes × Node)} {index : Option Index} {resource : Nat}
    {copy : Object Node} (hdata : List.Forall₂ (fun entry copy => copy.1 = entry.1 ∧
      CopyOf entry.2 copy.2) data copies)
    (hcopy : Object.ofEntries copies into = some copy) :
    CopyOf (object { data, index, resource }) (object copy) := by
  have hall : copies.map (·.1) = data.map (·.1) ∧
      Members.mapValues Node.tree copies = Members.mapValues Node.tree data ∧
      ((∀ entry ∈ data, entry.2.NoDuplicates) → ∀ copy ∈ copies, copy.2.NoDuplicates) ∧
      (∀ copy ∈ copies, copy.2.Limited) ∧ ∀ entry ∈ data, entry.2.Indexable := by
    clear hcopy
    induction hdata with
    | nil => simp [Members.mapValues]
    | cons hcopy _ ih =>
        obtain ⟨hkeys, htree, hnodup, hlimited, hindexable⟩ := ih
        simp only [List.map_cons, List.forall_mem_cons]
        refine ⟨by rw [hcopy.1, hkeys], ?_, fun h => ⟨hcopy.2.noDuplicates h.1, hnodup h.2⟩,
          ⟨hcopy.2.limited, hlimited⟩, hcopy.2.indexable, hindexable⟩
        rw [Members.mapValues, Members.mapValues, List.map_cons, List.map_cons, hcopy.1, hcopy.2.tree]
        exact congrArg _ htree
  obtain ⟨hkeys, htree, hnodup, hlimited, hindexable⟩ := hall
  have hlength : copies.length = data.length := by
    have := congrArg List.length hkeys
    rwa [List.length_map, List.length_map] at this
  have hcopied : copy.data = copies ∧ Index.Limited copy.keys copy.index ∧
      data.length ≤ Index.kMaxIndexed := by
    rw [Object.ofEntries] at hcopy
    split at hcopy
    · rename_i hlarge
      obtain ⟨fresh, hbuild, heq⟩ := Option.bind_eq_some_iff.mp hcopy
      cases heq
      have hne : copies.map (·.1) ≠ [] :=
        List.length_pos_iff.mp (by rw [List.length_map]; exact Nat.zero_lt_of_lt hlarge)
      obtain ⟨hle, hbuilt⟩ := Index.build_limited hne hbuild
      rw [List.length_map, hlength] at hle
      exact ⟨rfl, hbuilt, hle⟩
    · rename_i hsmall
      cases hcopy
      rw [hlength, kIndexThreshold] at hsmall
      exact ⟨rfl, Index.limited_none _, by rw [Index.kMaxIndexed]; omega⟩
  obtain ⟨hdata', hindex, hle⟩ := hcopied
  refine ⟨?_, fun h => ?_, ?_, ?_⟩
  · rw [tree_object, tree_object, hdata', htree]
  · obtain ⟨hdistinct, hvalues⟩ := noDuplicates_object.mp h
    refine noDuplicates_object.mpr ⟨?_, hdata' ▸ hnodup hvalues⟩
    rw [Object.keys, hdata', hkeys]
    exact hdistinct
  · exact limited_object.mpr ⟨hindex, hdata' ▸ hlimited⟩
  · refine indexable_object.mpr ⟨?_, hindexable⟩
    rw [length_keys]
    exact hle

/-- `clone` copies the trees without an object too large for an index. -/
theorem clone_spec (value : Node) : (∀ copy, value.clone into = some copy → CopyOf value copy) ∧
    (value.Indexable → ∃ copy, value.clone into = some copy) := by
  induction value using Node.induct with
  | array elements ih =>
      constructor
      · intro copy hcopy
        obtain ⟨copies, hcopies, hcopy⟩ := Option.bind_eq_some_iff.mp hcopy
        cases hcopy
        refine copyOf_array ?_
        rw [cloneElements_eq_some] at hcopies
        clear * - hcopies ih
        induction hcopies with
        | nil => exact .nil
        | cons hcopy _ ih' =>
            rw [List.forall_mem_cons] at ih
            exact .cons (ih.1.1 _ hcopy) (ih' ih.2)
      · intro hindexable
        have hcopies : ∃ copies, cloneElements into elements = some copies := by
          rw [indexable_array] at hindexable
          induction elements with
          | nil => exact ⟨[], rfl⟩
          | cons value rest ih' =>
              rw [List.forall_mem_cons] at ih hindexable
              obtain ⟨copy, hcopy⟩ := ih.1.2 hindexable.1
              obtain ⟨copies, hcopies⟩ := ih' ih.2 hindexable.2
              exact ⟨copy :: copies, by rw [cloneElements, hcopy, hcopies]; rfl⟩
        obtain ⟨copies, hcopies⟩ := hcopies
        exact ⟨array copies, by rw [clone, hcopies]; rfl⟩
  | object self ih =>
      obtain ⟨data, index, resource⟩ := self
      constructor
      · intro copy hcopy
        obtain ⟨copies, hcopies, hcopy⟩ := Option.bind_eq_some_iff.mp hcopy
        obtain ⟨self', hself, hcopy⟩ := Option.bind_eq_some_iff.mp hcopy
        cases hcopy
        refine ofEntries_copyOf ?_ hself
        rw [cloneEntries_eq_some] at hcopies
        clear * - hcopies ih
        simp only at ih
        induction hcopies with
        | nil => exact .nil
        | cons hcopy _ ih' =>
            rw [List.forall_mem_cons] at ih
            exact .cons ⟨hcopy.1, ih.1.1 _ hcopy.2⟩ (ih' ih.2)
      · intro hindexable
        obtain ⟨hle, hvalues⟩ := indexable_object.mp hindexable
        rw [length_keys] at hle
        have hcopies : ∃ copies, cloneEntries into data = some copies ∧
            copies.length = data.length := by
          clear hle hindexable
          simp only at ih hvalues
          induction data with
          | nil => exact ⟨[], rfl, rfl⟩
          | cons entry rest ih' =>
              rw [List.forall_mem_cons] at ih hvalues
              obtain ⟨copy, hcopy⟩ := ih.1.2 hvalues.1
              obtain ⟨copies, hcopies, hlength⟩ := ih' ih.2 hvalues.2
              exact ⟨(entry.1, copy) :: copies, by rw [cloneEntries, hcopy, hcopies]; rfl,
                congrArg (· + 1) hlength⟩
        obtain ⟨copies, hcopies, hlength⟩ := hcopies
        have hsound : ∀ copy ∈ copies, copy.2.Sound :=
          (cloneEntries_spec (fun entry _ => clones entry.2) into).1 copies hcopies
        obtain ⟨index', hself⟩ := (Object.ofEntries_spec into hsound).2 (hlength ▸ hle)
        exact ⟨_, by rw [clone, hcopies, Option.bind_eq_bind, Option.bind_some, hself]; rfl⟩
  | _ =>
      refine ⟨fun copy hcopy => ?_, fun _ => ⟨_, rfl⟩⟩
      cases hcopy
      exact ⟨rfl, fun _ => trivial, trivial, trivial⟩

theorem clone_steady {value copy : Node} (hvalue : value.NoDuplicates)
    (hcopy : value.clone into = some copy) : copy.Steady :=
  ⟨(clones value into).1 copy hcopy, ((clone_spec value).1 copy hcopy).noDuplicates hvalue⟩

end Clone

end Node
end PjhJson
