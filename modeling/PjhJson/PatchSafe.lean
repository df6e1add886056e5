import PjhJson.LibExcept
import PjhJson.Patch

/-! The operations of a patch that the pre-scan accepts, on any document. The pre-scan establishes, for
each kind of operation, the members and the pointers that `apply_one` reads; the bounds of the arrays
are checked by `resolve_slot` on the document as it is at that moment. -/

namespace PjhJson

open Grammar

namespace Stop

/-- A failure that the document decides: it is none of the errors of the pre-scan, and neither an
exception nor undefined behaviour. -/
def Semantic : Stop → Prop
  | failed error => error.kind ≠ .invalidPatchDocument ∧ error.kind ≠ .unknownOp ∧
      error.kind ≠ .invalidPointer
  | overflow => True
  | _ => False

end Stop

/-- An operation of `Object` without a result stops in the limit of an index. -/
theorem upholds_orOverflow {α : Type} {result : Option α} {done : α → Prop}
    (h : ∀ a, result = some a → done a) : (orOverflow result).Upholds Stop.Semantic done := by
  cases result with
  | none => trivial
  | some a => exact h a rfl

namespace Node

/-! ### Places in the document -/

theorem setChild_sound {node value : Node} (hnode : node.Sound) (pos : Nat) (hvalue : value.Sound) :
    (node.setChild pos value).Sound := by
  cases node with
  | array elements =>
      refine sound_array.mpr fun element hmem => ?_
      rcases List.mem_or_eq_of_mem_set hmem with hmem | rfl
      · exact sound_array.mp hnode element hmem
      · exact hvalue
  | object self => exact Object.setValue_sound hnode pos hvalue
  | _ => exact hnode

theorem child?_setChild {node child : Node} {pos : Nat} (h : node.child? pos = some child)
    (value : Node) : (node.setChild pos value).child? pos = some value := by
  rcases child?_tree h with ⟨elements, rfl, hget⟩ | ⟨self, key, rfl, hget⟩
  · obtain ⟨hlt, -⟩ := List.getElem?_eq_some_iff.mp hget
    exact List.getElem?_set_self hlt
  · rw [setChild, child?, Object.setValue, List.getElem?_modify, hget]
    simp

theorem nodeAt_sound {root node : Node} {location : List Nat} (hroot : root.Sound)
    (h : root.nodeAt location = some node) : node.Sound := by
  induction location generalizing root with
  | nil =>
      cases h
      exact hroot
  | cons pos location ih =>
      obtain ⟨child, hchild, hrest⟩ := Option.bind_eq_some_iff.mp h
      exact ih (child?_sound hroot hchild) hrest

theorem putAt_sound {root value : Node} (location : List Nat) (hroot : root.Sound)
    (hvalue : value.Sound) : (root.putAt location value).Sound := by
  induction location generalizing root with
  | nil => exact hvalue
  | cons pos location ih =>
      rw [putAt]
      cases hchild : root.child? pos with
      | none => exact hroot
      | some child => exact setChild_sound hroot pos (ih (child?_sound hroot hchild))

theorem nodeAt_putAt {root node : Node} {location : List Nat} (h : root.nodeAt location = some node)
    (value : Node) : (root.putAt location value).nodeAt location = some value := by
  induction location generalizing root with
  | nil => rfl
  | cons pos location ih =>
      obtain ⟨child, hchild, hrest⟩ := Option.bind_eq_some_iff.mp h
      rw [putAt, hchild]
      dsimp only
      rw [nodeAt, child?_setChild hchild, Option.bind_eq_bind, Option.bind_some]
      exact ih hrest

/-! ### Lookups -/

/-- `at` of a key that is there. -/
theorem valueAt_spec {self : Object Node} (h : (object self).Sound) {key : Bytes}
    (hkey : key ∈ self.keys) : ∃ pos value self', valueAt self key = .ok (pos, value, self') ∧
      value.Sound ∧ (object self').Sound ∧ self'.keys = self.keys ∧
      (object self').child? pos = some value := by
  obtain ⟨self', hfind, hkeeps, hdata⟩ := Object.findSlot_spec h key true
  obtain ⟨pos, hmatch⟩ := exists_firstMatch hkey
  obtain ⟨value, hentry⟩ := Object.firstMatch_get hmatch
  have hat : self.at key = some (.ok pos, self') := by
    rw [Object.at, hfind, hmatch]
    rfl
  refine ⟨pos, value, self', ?_, (sound_object.mp h).2 _ (List.mem_of_getElem? hentry), hkeeps.sound,
    hkeeps.keys, ?_⟩
  · rw [valueAt, hat, orOverflow, Option.elim, Except.ok_bind]
    dsimp only
    rw [hdata, hentry]
  · rw [child?, hdata, hentry]
    rfl

section Resolve

variable {opIndex : Nat} {op pointer : Bytes}

/-- A failure of a lookup in the document. -/
theorem semantic_failed {kind : PatchErrorKind} {text detail : Bytes}
    (h : kind ≠ .invalidPatchDocument ∧ kind ≠ .unknownOp ∧ kind ≠ .invalidPointer := by decide) :
    (Stop.failed (makeError kind opIndex op text detail)).Semantic := h

/-- A hop leads to a child that is there: the index is tested before the subscript. -/
theorem patchHop_safe {cur : Node} (h : cur.Sound) (token : Bytes) :
    (patchHop opIndex op pointer cur token).Upholds Stop.Semantic fun found =>
      found.2.Sound ∧ ∃ child, found.2.child? found.1 = some child := by
  cases cur with
  | object self =>
      obtain ⟨self₁, hcontains, hkeeps, -⟩ := contains_spec h token
      rw [patchHop, hcontains, orOverflow, Option.elim, Except.ok_bind]
      dsimp only
      refine Except.upholds_guard semantic_failed fun hpresent => ?_
      have hkey : token ∈ self₁.keys := by simpa [hkeeps.keys] using hpresent
      obtain ⟨pos, value, self₂, hat, -, hsound₂, -, hchild⟩ := valueAt_spec hkeeps.sound hkey
      rw [hat, Except.ok_bind]
      exact ⟨hsound₂, value, hchild⟩
  | array elements =>
      rw [patchHop]
      cases strictIndex token with
      | none => exact semantic_failed
      | some index =>
          refine Except.upholds_guard semantic_failed fun hrange => ?_
          have hget : elements[index]? = some elements[index] :=
            List.getElem?_eq_getElem (not_le.mp hrange)
          rw [elementRef, hget, Option.elim, Except.ok_bind]
          exact ⟨h, _, hget⟩
  | _ => exact semantic_failed

/-- A pointer that resolves leads to a node of the document. -/
theorem resolveNode_safe {cur : Node} (h : cur.Sound) (ptr : JsonPointer) :
    (resolveNode opIndex op pointer cur ptr).Upholds Stop.Semantic fun found =>
      found.2.Sound ∧ ∃ node, found.2.nodeAt found.1 = some node := by
  induction ptr generalizing cur with
  | nil => exact ⟨h, cur, rfl⟩
  | cons token ptr ih =>
      rw [resolveNode]
      refine (patchHop_safe h token).bind fun found hfound => ?_
      obtain ⟨pos, cur₁⟩ := found
      obtain ⟨hsound, child, hchild⟩ := hfound
      dsimp only at hsound hchild ⊢
      rw [hchild]
      dsimp only
      refine (ih (child?_sound hsound hchild)).bind fun rest hrest => ?_
      obtain ⟨location, child₁⟩ := rest
      obtain ⟨hsound₁, node, hnode⟩ := hrest
      refine ⟨setChild_sound hsound pos hsound₁, node, ?_⟩
      dsimp only at hnode ⊢
      rw [nodeAt, child?_setChild hchild, Option.bind_eq_bind, Option.bind_some, hnode]

end Resolve

end Node

/-! ### Slots -/

/-- The slot fits its parent: a key that exists, if it has to, or a position within the bounds. -/
def Slot.Fits (slot : Slot) (mode : SlotMode) : Node → Prop
  | .object self => slot.object = true ∧ (mode = .existing → slot.token ∈ self.keys)
  | .array elements => slot.object = false ∧ slot.index ≤ elements.length ∧
      (mode = .existing → slot.index < elements.length)
  | _ => False

/-- The parent of the slot is in the document, and the slot fits it. -/
def Slot.Valid (slot : Slot) (mode : SlotMode) (root : Node) : Prop :=
  ∃ parent, root.nodeAt slot.parent = some parent ∧ slot.Fits mode parent

namespace Node

section Slots

variable {opIndex : Nat} {op pointer : Bytes}

theorem arraySlot_safe (elements : List Node) (parent : List Nat) (token : Bytes) (mode : SlotMode) :
    (arraySlot opIndex op pointer elements parent token mode).Upholds Stop.Semantic fun slot =>
      slot.parent = parent ∧ slot.Fits mode (array elements) := by
  rw [arraySlot]
  refine Except.upholds_ite (fun _ => ?_) fun _ => ?_
  · refine Except.upholds_guard semantic_failed fun hmode => ?_
    exact ⟨rfl, rfl, le_rfl, fun heq => by cases heq ▸ not_not.mp hmode⟩
  · cases strictIndex token with
    | none => exact semantic_failed
    | some index =>
        refine Except.upholds_guard semantic_failed fun hnear => ?_
        cases mode with
        | insert =>
            have hle : ¬elements.length < index := fun hlt => hnear (decide_eq_true hlt)
            exact ⟨rfl, rfl, not_lt.mp hle, fun heq => by cases heq⟩
        | existing =>
            have hlt : ¬elements.length ≤ index := fun hle =>
              hnear (Bool.or_eq_true_iff.mpr (.inr (decide_eq_true hle)))
            exact ⟨rfl, rfl, (not_le.mp hlt).le, fun _ => not_le.mp hlt⟩

/-- `resolve_slot` of a pointer with a last token. -/
theorem resolveSlot_safe {root : Node} (h : root.Sound) {ptr : JsonPointer} (hptr : ptr ≠ [])
    (mode : SlotMode) :
    (resolveSlot opIndex op pointer root ptr mode).Upholds Stop.Semantic fun found =>
      found.2.Sound ∧ found.1.Valid mode found.2 := by
  rw [resolveSlot]
  refine (resolveNode_safe h ptr.dropLast).bind fun found hfound => ?_
  obtain ⟨parent, root₁⟩ := found
  obtain ⟨hsound, node, hnode⟩ := hfound
  dsimp only at hsound hnode ⊢
  rw [List.getLast?_eq_some_getLast hptr, hnode]
  have hsound' := nodeAt_sound hsound hnode
  cases node with
  | object self =>
      refine Except.upholds_ite (fun hmode => ?_) fun hmode => ?_
      · obtain ⟨self₁, hcontains, hkeeps, -⟩ := contains_spec hsound' (ptr.getLast hptr)
        rw [hcontains, orOverflow, Option.elim, Except.ok_bind]
        dsimp only
        refine Except.upholds_guard semantic_failed fun hpresent => ?_
        refine ⟨putAt_sound parent hsound hkeeps.sound, object self₁, nodeAt_putAt hnode _, rfl, fun _ => ?_⟩
        simpa [hkeeps.keys] using hpresent
      · exact ⟨hsound, object self, hnode, rfl, fun heq => absurd heq hmode⟩
  | array elements =>
      refine (arraySlot_safe elements parent _ mode).bind fun slot hslot => ?_
      obtain ⟨hparent, hfits⟩ := hslot
      exact ⟨hsound, array elements, hparent ▸ hnode, hfits⟩
  | _ => exact semantic_failed

end Slots

end Node

namespace Slot

variable {slot : Slot} {mode : SlotMode} {root : Node}

theorem Valid.objectAt (h : slot.Valid mode root) (hobject : slot.object = true) :
    ∃ self, root.objectAt slot.parent = .ok self ∧ root.nodeAt slot.parent = some (.object self) ∧
      (mode = .existing → slot.token ∈ self.keys) := by
  obtain ⟨parent, hparent, hfits⟩ := h
  cases parent with
  | object self => exact ⟨self, by rw [Node.objectAt, hparent], hparent, hfits.2⟩
  | array elements => cases hfits.1 ▸ hobject
  | _ => exact hfits.elim

theorem Valid.arrayAt (h : slot.Valid mode root) (hobject : ¬slot.object = true) :
    ∃ elements, root.arrayAt slot.parent = .ok elements ∧
      root.nodeAt slot.parent = some (.array elements) ∧ slot.index ≤ elements.length ∧
      (mode = .existing → slot.index < elements.length) := by
  obtain ⟨parent, hparent, hfits⟩ := h
  cases parent with
  | object self => exact absurd hfits.1 hobject
  | array elements => exact ⟨elements, by rw [Node.arrayAt, hparent], hparent, hfits.2⟩
  | _ => exact hfits.elim

end Slot

namespace Node

/-! ### Changes of an array -/

theorem insertBefore_safe {elements : List Node} (h : (array elements).Sound) {index : Nat}
    (hindex : index ≤ elements.length) {value : Node} (hvalue : value.Sound) :
    ∃ elements', insertBefore elements index value = .ok elements' ∧ (array elements').Sound := by
  refine ⟨elements.insertIdx index value, if_pos hindex, sound_array.mpr fun element hmem => ?_⟩
  rcases List.eq_or_mem_of_mem_insertIdx hmem with rfl | hmem
  · exact hvalue
  · exact sound_array.mp h element hmem

theorem eraseAt_safe {elements : List Node} (h : (array elements).Sound) {index : Nat}
    (hindex : index < elements.length) :
    ∃ elements', eraseAt elements index = .ok elements' ∧ (array elements').Sound := by
  refine ⟨elements.eraseIdx index, if_neg (by omega), sound_array.mpr fun element hmem => ?_⟩
  exact sound_array.mp h element (List.mem_of_mem_eraseIdx hmem)

theorem elementRef_safe {elements : List Node} (h : (array elements).Sound) {index : Nat}
    (hindex : index < elements.length) :
    ∃ element, elementRef elements index = .ok element ∧ element.Sound := by
  have hget : elements[index]? = some elements[index] := List.getElem?_eq_getElem hindex
  refine ⟨elements[index], ?_, sound_array.mp h _ (List.getElem_mem hindex)⟩
  rw [elementRef, hget]
  rfl

/-! ### One operation -/

section Operations

variable {opIndex : Nat} {opName pathText : Bytes} {shadow : Node}

/-- `insert_at` of a value that owns its indexes. -/
theorem insertAt_safe (h : shadow.Sound) (ptr : JsonPointer) {value : Node} (hvalue : value.Sound) :
    (insertAt opIndex opName pathText shadow ptr value).Upholds Stop.Semantic Sound := by
  rw [insertAt]
  refine Except.upholds_ite (fun _ => hvalue) fun hptr => ?_
  refine (resolveSlot_safe h hptr .insert).bind fun found hfound => ?_
  obtain ⟨slot, shadow₁⟩ := found
  obtain ⟨hsound, hvalid⟩ := hfound
  dsimp only at hsound hvalid ⊢
  refine Except.upholds_ite (fun hobject => ?_) fun hobject => ?_
  · obtain ⟨self, hself, hparent, -⟩ := hvalid.objectAt hobject
    have hinsert := (Object.insert_spec (nodeAt_sound hsound hparent) slot.token hvalue).1
    rw [hself, Except.ok_bind]
    refine (upholds_orOverflow hinsert).bind fun self₁ hself₁ => ?_
    exact putAt_sound slot.parent hsound hself₁
  · obtain ⟨elements, helements, hparent, hindex, -⟩ := hvalid.arrayAt hobject
    obtain ⟨elements₁, hinsert, hsound₁⟩ :=
      insertBefore_safe (nodeAt_sound hsound hparent) hindex hvalue
    rw [helements, Except.ok_bind, hinsert, Except.ok_bind]
    exact putAt_sound slot.parent hsound hsound₁

theorem clone_safe (res : Nat) (value : Node) :
    (orOverflow (value.clone res)).Upholds Stop.Semantic Sound :=
  upholds_orOverflow (clones value res).1

theorem applyRemove_safe (h : shadow.Sound) (path : JsonPointer) :
    (applyRemove shadow opIndex opName pathText path).Upholds Stop.Semantic Sound := by
  rw [applyRemove]
  refine Except.upholds_guard semantic_failed fun hpath => ?_
  refine (resolveSlot_safe h hpath .existing).bind fun found hfound => ?_
  obtain ⟨slot, shadow₁⟩ := found
  obtain ⟨hsound, hvalid⟩ := hfound
  dsimp only at hsound hvalid ⊢
  refine Except.upholds_ite (fun hobject => ?_) fun hobject => ?_
  · obtain ⟨self, hself, hparent, -⟩ := hvalid.objectAt hobject
    obtain ⟨removed, self₁, hremove, hself₁⟩ :=
      Object.remove_spec (nodeAt_sound hsound hparent) slot.token
    rw [hself, Except.ok_bind, hremove, orOverflow, Option.elim, Except.ok_bind]
    exact putAt_sound slot.parent hsound hself₁
  · obtain ⟨elements, helements, hparent, -, hindex⟩ := hvalid.arrayAt hobject
    obtain ⟨elements₁, herase, hsound₁⟩ := eraseAt_safe (nodeAt_sound hsound hparent) (hindex rfl)
    rw [helements, Except.ok_bind, herase, Except.ok_bind]
    exact putAt_sound slot.parent hsound hsound₁

/-- The value that is taken out of a slot, and the document without it. -/
theorem takeOut_safe (h : shadow.Sound) {slot : Slot} (hvalid : slot.Valid .existing shadow) :
    (takeOut shadow slot).Upholds Stop.Semantic fun taken => taken.1.Sound ∧ taken.2.Sound := by
  rw [takeOut]
  refine Except.upholds_ite (fun hobject => ?_) fun hobject => ?_
  · obtain ⟨self, hself, hparent, hkey⟩ := hvalid.objectAt hobject
    obtain ⟨pos, moved, self₁, hat, hmoved, hself₁, -, -⟩ :=
      valueAt_spec (nodeAt_sound h hparent) (hkey rfl)
    obtain ⟨removed, self₂, hremove, hself₂⟩ := Object.remove_spec hself₁ slot.token
    rw [hself, Except.ok_bind, hat, Except.ok_bind]
    dsimp only
    rw [hremove, orOverflow, Option.elim, Except.ok_bind]
    exact ⟨hmoved, putAt_sound slot.parent h hself₂⟩
  · obtain ⟨elements, helements, hparent, -, hindex⟩ := hvalid.arrayAt hobject
    have hsound := nodeAt_sound h hparent
    obtain ⟨moved, hget, hmoved⟩ := elementRef_safe hsound (hindex rfl)
    obtain ⟨elements₁, herase, hsound₁⟩ := eraseAt_safe hsound (hindex rfl)
    rw [helements, Except.ok_bind, hget, Except.ok_bind, herase, Except.ok_bind]
    exact ⟨hmoved, putAt_sound slot.parent h hsound₁⟩

theorem applyMove_safe (h : shadow.Sound) (path source : JsonPointer) (fromText : Bytes) :
    (applyMove shadow opIndex opName pathText path source fromText).Upholds Stop.Semantic Sound := by
  rw [applyMove]
  refine Except.upholds_guard semantic_failed fun hsource => ?_
  refine (resolveSlot_safe h hsource .existing).bind fun found hfound => ?_
  obtain ⟨slot, shadow₁⟩ := found
  obtain ⟨hsound, hvalid⟩ := hfound
  dsimp only at hsound hvalid ⊢
  refine Except.upholds_ite (fun _ => hsound) fun _ => ?_
  refine Except.upholds_guard semantic_failed fun _ => ?_
  refine (takeOut_safe hsound hvalid).bind fun taken htaken => ?_
  exact insertAt_safe htaken.2 path htaken.1

theorem applyCopy_safe (h : shadow.Sound) (res : Nat) (path source : JsonPointer) (fromText : Bytes) :
    (applyCopy shadow opIndex opName pathText res path source fromText).Upholds
      Stop.Semantic Sound := by
  rw [applyCopy]
  refine (resolveNode_safe h source).bind fun found hfound => ?_
  obtain ⟨location, shadow₁⟩ := found
  obtain ⟨hsound, node, hnode⟩ := hfound
  dsimp only at hsound hnode ⊢
  rw [hnode]
  exact (clone_safe res node).bind fun copy hcopy => insertAt_safe hsound path hcopy

end Operations

/-! ### The members of an operation -/

section Members

variable {obj : Object Node} {opIndex : Nat} {opName pathText : Bytes} {shadow : Node}

theorem hasMember_spec (h : (object obj).Sound) (key : Bytes) :
    hasMember obj key = .ok (decide (key ∈ obj.keys)) := by
  obtain ⟨obj₁, hcontains, -⟩ := contains_spec h key
  rw [hasMember, hcontains]
  rfl

theorem memberAt_spec (h : (object obj).Sound) {key : Bytes} (hkey : hasMember obj key = .ok true) :
    ∃ value, memberAt obj key = .ok value ∧ value.Sound := by
  rw [hasMember_spec h] at hkey
  obtain ⟨pos, value, obj₁, hat, hvalue, -⟩ :=
    valueAt_spec h (of_decide_eq_true (Except.ok.inj hkey))
  refine ⟨value, ?_, hvalue⟩
  rw [memberAt, hat]
  rfl

/-- A string member is there, and its value is that string. -/
theorem stringMember_eq_some {key text : Bytes} (h : stringMember obj key = .ok (some text)) :
    hasMember obj key = .ok true ∧ ∃ value, memberAt obj key = .ok value ∧ value.asString = some text := by
  obtain ⟨present, hpresent, h⟩ := Except.bind_eq_ok.mp h
  cases present with
  | false => cases h
  | true =>
      obtain ⟨value, hvalue, h⟩ := Except.bind_eq_ok.mp h
      exact ⟨hpresent, value, hvalue, Except.ok.inj h⟩

theorem requiredValue_spec (h : (object obj).Sound)
    (hvalue : hasMember obj (asciiBytes "value") = .ok true) :
    ∃ value, requiredValue obj opIndex opName pathText = .ok value ∧ value.Sound := by
  obtain ⟨value, hat, hsound⟩ := memberAt_spec h hvalue
  refine ⟨value, ?_, hsound⟩
  rw [requiredValue, hvalue, Except.ok_bind]
  exact hat

theorem applyAdd_safe (h : shadow.Sound) (hobj : (object obj).Sound)
    (hvalue : hasMember obj (asciiBytes "value") = .ok true) (res : Nat) (path : JsonPointer) :
    (applyAdd shadow obj opIndex opName pathText res path).Upholds Stop.Semantic Sound := by
  obtain ⟨value, hrequired, -⟩ := requiredValue_spec hobj hvalue
  rw [applyAdd, hrequired, Except.ok_bind]
  exact (clone_safe res value).bind fun copy hcopy => insertAt_safe h path hcopy

theorem applyReplace_safe (h : shadow.Sound) (hobj : (object obj).Sound)
    (hvalue : hasMember obj (asciiBytes "value") = .ok true) (res : Nat) (path : JsonPointer) :
    (applyReplace shadow obj opIndex opName pathText res path).Upholds Stop.Semantic Sound := by
  obtain ⟨value, hrequired, -⟩ := requiredValue_spec hobj hvalue
  rw [applyReplace, hrequired, Except.ok_bind]
  refine (clone_safe res value).bind fun copy hcopy => ?_
  refine Except.upholds_ite (fun _ => hcopy) fun hpath => ?_
  refine (resolveSlot_safe h hpath .existing).bind fun found hfound => ?_
  obtain ⟨slot, shadow₁⟩ := found
  obtain ⟨hsound, hvalid⟩ := hfound
  dsimp only at hsound hvalid ⊢
  refine Except.upholds_ite (fun hobject => ?_) fun hobject => ?_
  · obtain ⟨self, hself, hparent, -⟩ := hvalid.objectAt hobject
    have hinsert := (Object.insert_spec (nodeAt_sound hsound hparent) slot.token hcopy).1
    rw [hself, Except.ok_bind]
    refine (upholds_orOverflow hinsert).bind fun self₁ hself₁ => ?_
    exact putAt_sound slot.parent hsound hself₁
  · obtain ⟨elements, helements, hparent, -, hindex⟩ := hvalid.arrayAt hobject
    have helems := nodeAt_sound hsound hparent
    obtain ⟨old, hget, -⟩ := elementRef_safe helems (hindex rfl)
    rw [helements, Except.ok_bind, hget, Except.ok_bind]
    exact putAt_sound slot.parent hsound (setChild_sound helems slot.index hcopy)

theorem applyTest_safe (h : shadow.Sound) (hobj : (object obj).Sound)
    (hvalue : hasMember obj (asciiBytes "value") = .ok true) (path : JsonPointer) :
    (applyTest shadow obj opIndex opName pathText path).Upholds Stop.Semantic Sound := by
  obtain ⟨value, hat, hsound⟩ := memberAt_spec hobj hvalue
  rw [applyTest, hvalue, Except.ok_bind]
  dsimp only
  refine (resolveNode_safe h path).bind fun found hfound => ?_
  obtain ⟨location, shadow₁⟩ := found
  obtain ⟨hsound₁, node, hnode⟩ := hfound
  dsimp only at hsound₁ hnode ⊢
  rw [hnode]
  dsimp only
  rw [hat, Except.ok_bind]
  have hkeeps : ∀ result, equalAfter node value = some result → result.2.1.Sound := by
    intro result hequal
    exact ((equalWithin_answers _ _ _ (nodeAt_sound hsound₁ hnode) hsound).keeps _ _ _ hequal).1.sound
  refine (upholds_orOverflow hkeeps).bind fun result hresult => ?_
  refine Except.upholds_guard semantic_failed fun _ => ?_
  exact putAt_sound location hsound₁ hresult

end Members

/-! ### The pre-scan -/

/-- What the pre-scan establishes of an operation object. -/
structure Shaped (obj : Object Node) (opName pathText : Bytes) (path : JsonPointer) : Prop where
  name : stringMember obj (asciiBytes "op") = .ok (some opName)
  pathMember : stringMember obj (asciiBytes "path") = .ok (some pathText)
  known : isKnownOp opName = true
  pointer : parseJsonPointer pathText = .ok path
  value : opName = asciiBytes "add" ∨ opName = asciiBytes "replace" ∨ opName = asciiBytes "test" →
    hasMember obj (asciiBytes "value") = .ok true
  source : opName = asciiBytes "copy" ∨ opName = asciiBytes "move" → ∃ fromText source,
    stringMember obj (asciiBytes "from") = .ok (some fromText) ∧
      parseJsonPointer fromText = .ok source

theorem checkPointer_eq_none {text : Bytes} {error : PatchError}
    (h : checkPointer text error = .ok none) : ∃ ptr, parseJsonPointer text = .ok ptr := by
  rw [checkPointer] at h
  cases hparse : parseJsonPointer text with
  | ok ptr => exact ⟨ptr, rfl⟩
  | error stop =>
      rw [hparse] at h
      cases stop <;> cases h

theorem validateFrom_eq_none {obj : Object Node} {i : Nat} {opName pathText : Bytes}
    (h : validateFrom obj i opName pathText = .ok none) : ∃ fromText source,
      stringMember obj (asciiBytes "from") = .ok (some fromText) ∧
        parseJsonPointer fromText = .ok source := by
  obtain ⟨fromOpt, hfrom, h⟩ := Except.bind_eq_ok.mp h
  cases fromOpt with
  | none => cases h
  | some fromText =>
      obtain ⟨source, hsource⟩ := checkPointer_eq_none h
      exact ⟨fromText, source, hfrom, hsource⟩

/-- An operation that the pre-scan accepts is an object with the members of its kind. -/
theorem shaped_of_validateOp {op : Node} {i : Nat} (h : validateOp op i = .ok none) :
    ∃ obj opName pathText path, op = object obj ∧ Shaped obj opName pathText path := by
  cases op with
  | object obj =>
      obtain ⟨nameOpt, hname, h⟩ := Except.bind_eq_ok.mp h
      cases nameOpt with
      | none => cases h
      | some opName =>
          obtain ⟨pathOpt, hpath, h⟩ := Except.bind_eq_ok.mp h
          dsimp only at h
          cases hknown : isKnownOp opName with
          | false =>
              rw [hknown] at h
              cases h
          | true =>
              cases pathOpt with
              | none =>
                  rw [hknown] at h
                  cases h
              | some pathText =>
                  rw [hknown] at h
                  obtain ⟨bad, hbad, h⟩ := Except.bind_eq_ok.mp h
                  cases bad with
                  | some error => cases h
                  | none =>
                      obtain ⟨path, hptr⟩ := checkPointer_eq_none hbad
                      rw [Option.isSome_none, if_neg Bool.false_ne_true] at h
                      refine ⟨obj, opName, pathText, path, rfl, hname, hpath, hknown, hptr,
                        fun hkind => ?_, fun hkind => ?_⟩
                      · rw [if_pos hkind] at h
                        obtain ⟨present, hpresent, h⟩ := Except.bind_eq_ok.mp h
                        cases present with
                        | false => cases h
                        | true => exact hpresent
                      · rcases hkind with rfl | rfl
                        · exact validateFrom_eq_none h
                        · exact validateFrom_eq_none h
  | _ => cases h

/-! ### The whole patch -/

theorem applyFrom_safe {shadow : Node} {obj : Object Node} {opIndex : Nat} {opName pathText : Bytes}
    (h : shadow.Sound) (res : Nat) (path : JsonPointer)
    (hsource : ∃ fromText source, stringMember obj (asciiBytes "from") = .ok (some fromText) ∧
      parseJsonPointer fromText = .ok source) :
    (applyFrom shadow obj opIndex opName pathText res path).Upholds Stop.Semantic Sound := by
  obtain ⟨fromText, source, hfrom, hptr⟩ := hsource
  obtain ⟨hpresent, value, hat, hvalue⟩ := stringMember_eq_some hfrom
  rw [applyFrom, hpresent, Except.ok_bind]
  rw [Bool.not_true, if_neg Bool.false_ne_true, hat, Except.ok_bind, hvalue]
  dsimp only
  rw [hptr, Except.ok_bind]
  refine Except.upholds_ite (fun _ => ?_) fun _ => ?_
  · exact applyCopy_safe h res path source fromText
  · exact applyMove_safe h path source fromText

/-- One operation that the pre-scan accepts, on any document. -/
theorem applyOne_safe {shadow op : Node} {i : Nat} (h : shadow.Sound) (hop : op.Sound)
    (hshape : validateOp op i = .ok none) (opIndex res : Nat) :
    (applyOne shadow op opIndex res).Upholds Stop.Semantic Sound := by
  obtain ⟨obj, opName, pathText, path, rfl, hshaped⟩ := shaped_of_validateOp hshape
  rw [applyOne, hshaped.name, Except.ok_bind, hshaped.pathMember, Except.ok_bind]
  dsimp only
  rw [hshaped.known, Bool.not_true, if_neg Bool.false_ne_true, hshaped.pointer, Except.ok_bind]
  refine Except.upholds_ite (fun hadd => ?_) fun hadd => ?_
  · exact applyAdd_safe h hop (hshaped.value (.inl hadd)) res path
  refine Except.upholds_ite (fun _ => applyRemove_safe h path) fun hremove => ?_
  refine Except.upholds_ite (fun hreplace => ?_) fun hreplace => ?_
  · exact applyReplace_safe h hop (hshaped.value (.inr (.inl hreplace))) res path
  refine Except.upholds_ite (fun htest => ?_) fun htest => ?_
  · exact applyTest_safe h hop (hshaped.value (.inr (.inr htest))) path
  -- What is left of the known operations reads `from`.
  refine applyFrom_safe h res path (hshaped.source ?_)
  have hknown := hshaped.known
  simp only [isKnownOp, Bool.or_eq_true, beq_iff_eq] at hknown
  tauto

theorem validatePatchShape_eq_none {i : Nat} {ops : List Node}
    (h : validatePatchShape i ops = .ok none) : ∀ op ∈ ops, ∃ j, validateOp op j = .ok none := by
  induction ops generalizing i with
  | nil => exact fun _ hmem => absurd hmem List.not_mem_nil
  | cons op ops ih =>
      obtain ⟨error, hop, h⟩ := Except.bind_eq_ok.mp h
      cases error with
      | some error => cases h
      | none => exact List.forall_mem_cons.mpr ⟨⟨i, hop⟩, ih h⟩

/-- The operations one after the other, each on the document that the ones before it left. -/
theorem applyFromIndex_safe {shadow : Node} {ops : List Node} (h : shadow.Sound)
    (hops : ∀ op ∈ ops, op.Sound ∧ ∃ j, validateOp op j = .ok none) (res i : Nat) :
    (applyFromIndex shadow res i ops).Upholds Stop.Semantic Sound := by
  induction ops generalizing shadow i with
  | nil => exact h
  | cons op ops ih =>
      obtain ⟨⟨hop, j, hshape⟩, hrest⟩ := List.forall_mem_cons.mp hops
      exact (applyOne_safe h hop hshape i res).bind fun shadow₁ hshadow₁ => ih hshadow₁ hrest (i + 1)

/-- Whatever the document: no operation of a patch that the pre-scan accepts, and no run of the whole
patch, lets an exception escape, subscripts out of range or ends in an error of the pre-scan. -/
theorem acceptedPatch_safe {ops : List Node} (hops : ∀ op ∈ ops, op.Sound)
    (h : validatePatchShape 0 ops = .ok none) :
    (∀ shadow : Node, shadow.Sound → ∀ op ∈ ops, ∀ opIndex res,
      (applyOne shadow op opIndex res).Upholds Stop.Semantic Sound) ∧
    ∀ target : Node, target.Sound → ∀ res,
      (patchResult target (array ops) res).Upholds Stop.Semantic Sound := by
  have hshapes := validatePatchShape_eq_none h
  constructor
  · intro shadow hshadow op hmem opIndex res
    obtain ⟨j, hshape⟩ := hshapes op hmem
    exact applyOne_safe hshadow (hops op hmem) hshape opIndex res
  · intro target htarget res
    rw [patchResult]
    refine Except.upholds_ite (fun _ => htarget) fun _ => ?_
    rw [h, Except.ok_bind]
    refine (clone_safe res target).bind fun shadow hshadow => ?_
    exact applyFromIndex_safe hshadow (fun op hmem => ⟨hops op hmem, hshapes op hmem⟩) res 0

/-- A patch that moves a member into an array. -/
def moveIntoArray : List Node :=
  [object { data := [(asciiBytes "op", stringView (asciiBytes "move")),
    (asciiBytes "from", stringView (asciiBytes "/a")),
    (asciiBytes "path", stringView (asciiBytes "/b/0"))] }]

def memberAndArray : Node :=
  object { data := [(asciiBytes "a", integer 1), (asciiBytes "b", array [])] }

theorem memberAndArray_sound : memberAndArray.Sound := by
  simp [memberAndArray, Sound, All, AllElements, Index.CacheHolds]

theorem moveIntoArray_sound : ∀ op ∈ moveIntoArray, op.Sound := by
  simp [moveIntoArray, Sound, All, AllEntries, Index.CacheHolds]

theorem acceptedPatch_safe_move :
    validatePatchShape 0 moveIntoArray = .ok none ∧
      (memberAndArray.patchResult (array moveIntoArray) 0).Upholds Stop.Semantic Sound :=
  have haccepted : validatePatchShape 0 moveIntoArray = .ok none := by rfl
  ⟨haccepted, (acceptedPatch_safe moveIntoArray_sound haccepted).2 memberAndArray
    memberAndArray_sound 0⟩

end Node

end PjhJson
