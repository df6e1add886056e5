import PjhJson.NodeLaws

/-! The operations of `Object`, and what any sequence of them leaves the lookup index as. An
operation without a result needs an index for more entries than one can be built for. -/

namespace PjhJson

namespace Object

/-- `find_slot`. -/
def findSlot (self : Object Node) (key : Bytes) (rebuild : Bool := true) :
    Option (Option Nat × Object Node) := do
  let (slot, index) ← Index.findSlot self.keys self.index key rebuild
  some (slot, { self with index })

/-- Append an entry and note it in the index. -/
def append (self : Object Node) (key : Bytes) (value : Node) : Option (Object Node) := do
  let self := { self with data := self.data ++ [(key, value)] }
  let index ← Index.noteAppend self.keys self.index (self.data.length - 1)
  some { self with index }

/-- `operator[]`: the position of the entry, which is appended with a null value if need be. -/
def subscript (self : Object Node) (key : Bytes) : Option (Nat × Object Node) := do
  let (slot, self) ← self.findSlot key
  match slot with
  | some pos => some (pos, self)
  | none =>
    let self ← self.append key .null
    some (self.data.length - 1, self)

/-- `insert`. Its three forms differ in who owns the bytes of a new key. -/
def insert (self : Object Node) (key : Bytes) (value : Node) : Option (Object Node) := do
  let (slot, self) ← self.findSlot key
  match slot with
  | some pos => some (self.setValue pos value)
  | none => self.append key value

/-- `remove`. -/
def remove (self : Object Node) (key : Bytes) : Option (Bool × Object Node) := do
  let (slot, self) ← self.findSlot key false
  match slot with
  | none => some (false, self)
  | some pos =>
    let self := { self with data := self.data.eraseIdx pos }
    some (true, { self with index := Index.afterErase self.keys self.index })

/-- `clear`. -/
def clear (self : Object Node) : Object Node := { self with data := [], index := none }

/-- The mutable `data()`, and what its caller leaves in the vector. -/
def edited (self : Object Node) (data : List (Bytes × Node)) : Object Node :=
  { self with data, index := none }

/-- The move constructor: the new object, and the source. -/
def moveConstruct (other : Object Node) : Object Node × Object Node :=
  (other, { other with data := [], index := none })

/-- `operator=(Object &&)` from another object: the target, and the source. -/
def moveAssign (self other : Object Node) : Object Node × Object Node :=
  if self.resource = other.resource then (other, { other with data := [], index := none })
  else ({ self with data := other.data, index := none }, { other with data := [], index := none })

/-- The end of `clone`, when the entries are copied. -/
def ofEntries (data : List (Bytes × Node)) (resource : Nat) : Option (Object Node) :=
  let out : Object Node := { data, resource }
  if kIndexThreshold < data.length then do
    let index ← Index.build out.keys
    some { out with index := some index }
  else some out

end Object

namespace Node

mutual

/-- `clone`. -/
def clone (into : Nat) : Node → Option Node
  | stringView text => some (stringOwned text)
  | array elements => do
    let elements ← cloneElements into elements
    some (array elements)
  | object { data, .. } => do
    let data ← cloneEntries into data
    let self ← Object.ofEntries data into
    some (object self)
  | node => some node

def cloneElements (into : Nat) : List Node → Option (List Node)
  | [] => some []
  | value :: rest => do
    let value ← value.clone into
    let rest ← cloneElements into rest
    some (value :: rest)

def cloneEntries (into : Nat) : List (Bytes × Node) → Option (List (Bytes × Node))
  | [] => some []
  | (key, value) :: rest => do
    let value ← value.clone into
    let rest ← cloneEntries into rest
    some ((key, value) :: rest)

end

mutual

/-- What `merge` leaves at the value `found` of a key that both objects have. -/
def mergeValue (resource : Nat) (found : Node) : Node → Option Node
  | object { data, index, resource := other } =>
    match found with
    | object target => do
      let target ← mergeEntries target data
      some (object target)
    | _ => clone resource (object { data, index, resource := other })
  | value => clone resource value

/-- `Object::merge`, over the entries of the other object. -/
def mergeEntries (self : Object Node) : List (Bytes × Node) → Option (Object Node)
  | [] => some self
  | (key, value) :: rest => do
    let (slot, self) ← self.findSlot key
    match slot with
    | some pos =>
      let entry ← self.data[pos]?
      let merged ← mergeValue self.resource entry.2 value
      mergeEntries (self.setValue pos merged) rest
    | none =>
      let copy ← value.clone self.resource
      let self ← self.append key copy
      mergeEntries self rest

end

end Node

/-- `Object::merge` of another object. -/
def Object.merge (self other : Object Node) : Option (Object Node) :=
  Node.mergeEntries self other.data

/-! ### One operation -/

namespace Object

open Node

variable {self : Object Node} {key : Bytes}

theorem findSlot_spec (h : (object self).Sound) (key : Bytes) (rebuild : Bool) :
    ∃ self', self.findSlot key rebuild = some (firstMatch self.keys key, self') ∧
      Keeps (object self) (object self') ∧ self'.data = self.data := by
  obtain ⟨index, hfind, hindex, -⟩ := Index.findSlot_spec (sound_object.mp h).1 key rebuild
  refine ⟨{ self with index }, ?_, keeps_index h hindex, rfl⟩
  rw [findSlot, hfind]
  rfl

theorem keys_append (data : List (Bytes × Node)) (key : Bytes) (value : Node)
    (index : Option Index) (resource : Nat) :
    Object.keys { data := data ++ [(key, value)], index, resource } =
      Object.keys { data, index, resource } ++ [key] := List.map_append

/-- Appending an entry with a new key. -/
theorem append_spec (h : (object self).Sound) (hnew : key ∉ self.keys) {value : Node}
    (hvalue : value.Sound) :
    (∀ self', self.append key value = some self' → (object self').Sound) ∧
      (self.data.length + 1 ≤ Index.kMaxIndexed → ∃ index, self.append key value =
        some { self with data := self.data ++ [(key, value)], index }) := by
  have hkeys := keys_append self.data key value self.index self.resource
  have hlast : (self.data ++ [(key, value)]).length - 1 = self.keys.length := by
    rw [List.length_append, List.length_singleton, Nat.add_sub_cancel, length_keys]
  obtain ⟨hholds, hreturns⟩ := Index.noteAppend_spec (sound_object.mp h).1 hnew
  constructor
  · intro self' happend
    obtain ⟨index, hindex, heq⟩ := Option.bind_eq_some_iff.mp happend
    cases heq
    simp only [hkeys, hlast] at hindex
    refine sound_object.mpr ⟨?_, fun entry hmem => ?_⟩
    · have hcache := hholds index hindex
      rwa [← hkeys] at hcache
    · rcases List.mem_append.mp hmem with hmem | hmem
      · exact (sound_object.mp h).2 entry hmem
      · obtain rfl := List.mem_singleton.mp hmem
        exact hvalue
  · intro hmax
    obtain ⟨index, hindex⟩ := hreturns (by rwa [length_keys])
    refine ⟨index, ?_⟩
    rw [append]
    simp only [hkeys, hlast]
    rw [hindex]
    rfl

theorem firstMatch_get {pos : Nat} (h : firstMatch self.keys key = some pos) :
    ∃ value, self.data[pos]? = some (key, value) := getElem?_keys.mp (firstMatch_eq_some.mp h).1

theorem setValue_sound (h : (object self).Sound) (pos : Nat) {value : Node} (hvalue : value.Sound) :
    (object (self.setValue pos value)).Sound := by
  have hkeys : (self.setValue pos value).keys = self.keys := by
    refine List.ext_getElem? fun i => ?_
    rw [keys, keys, setValue, List.getElem?_map, List.getElem?_map, List.getElem?_modify]
    cases self.data[i]? with
    | none => rfl
    | some entry => by_cases hi : pos = i <;> simp [hi]
  rw [sound_object, hkeys]
  refine ⟨(sound_object.mp h).1, fun entry hmem => ?_⟩
  obtain ⟨i, hi⟩ := List.getElem?_of_mem hmem
  rw [setValue, List.getElem?_modify] at hi
  obtain ⟨old, hold, rfl⟩ := Option.map_eq_some_iff.mp hi
  split
  · exact hvalue
  · exact (sound_object.mp h).2 old (List.mem_of_getElem? hold)

theorem insert_spec (h : (object self).Sound) (key : Bytes) {value : Node} (hvalue : value.Sound) :
    (∀ self', self.insert key value = some self' → (object self').Sound) ∧
      (self.data.length + 1 ≤ Index.kMaxIndexed → ∃ self', self.insert key value = some self') := by
  obtain ⟨self₁, hfind, hkeeps, hdata⟩ := findSlot_spec h key true
  rw [insert, hfind, Option.bind_eq_bind, Option.bind_some]
  cases hmatch : firstMatch self.keys key with
  | some pos =>
      refine ⟨fun self' heq => ?_, fun _ => ⟨_, rfl⟩⟩
      cases heq
      exact setValue_sound hkeeps.sound pos hvalue
  | none =>
      have hnew : key ∉ self₁.keys := hkeeps.keys ▸ firstMatch_eq_none.mp hmatch
      obtain ⟨hsound, hreturns⟩ := append_spec hkeeps.sound hnew hvalue
      refine ⟨hsound, fun hmax => ?_⟩
      obtain ⟨index, hindex⟩ := hreturns (by rwa [hdata])
      exact ⟨_, hindex⟩

theorem subscript_spec (h : (object self).Sound) (key : Bytes) :
    (∀ pos self', self.subscript key = some (pos, self') → (object self').Sound) ∧
      (self.data.length + 1 ≤ Index.kMaxIndexed → ∃ result, self.subscript key = some result) := by
  obtain ⟨self₁, hfind, hkeeps, hdata⟩ := findSlot_spec h key true
  rw [subscript, hfind, Option.bind_eq_bind, Option.bind_some]
  cases hmatch : firstMatch self.keys key with
  | some pos =>
      refine ⟨fun pos' self' heq => ?_, fun _ => ⟨_, rfl⟩⟩
      cases heq
      exact hkeeps.sound
  | none =>
      have hnew : key ∉ self₁.keys := hkeeps.keys ▸ firstMatch_eq_none.mp hmatch
      obtain ⟨hsound, hreturns⟩ := @append_spec self₁ key hkeeps.sound hnew .null trivial
      constructor
      · intro pos' self' heq
        obtain ⟨self₂, happend, heq⟩ := Option.bind_eq_some_iff.mp heq
        cases heq
        exact hsound _ happend
      · intro hmax
        obtain ⟨index, hindex⟩ := hreturns (by rwa [hdata])
        exact ⟨_, by simp only [hindex]; rfl⟩

theorem remove_spec (h : (object self).Sound) (key : Bytes) :
    ∃ removed self', self.remove key = some (removed, self') ∧ (object self').Sound := by
  obtain ⟨self₁, hfind, hkeeps, hdata⟩ := findSlot_spec h key false
  rw [remove, hfind, Option.bind_eq_bind, Option.bind_some]
  cases hmatch : firstMatch self.keys key with
  | none => exact ⟨false, self₁, rfl, hkeeps.sound⟩
  | some pos =>
      refine ⟨true, _, rfl, sound_object.mpr ⟨?_, fun entry hmem => ?_⟩⟩
      · have hlt : pos < self₁.keys.length := hkeeps.keys ▸ firstMatch_lt hmatch
        have hkeys : Object.keys { self₁ with data := self₁.data.eraseIdx pos } =
            self₁.keys.eraseIdx pos := by
          rw [keys, keys, List.eraseIdx_map]
        have herase := Index.afterErase_spec (sound_object.mp hkeeps.sound).1 hlt
        change Index.CacheHolds (Object.keys { self₁ with data := self₁.data.eraseIdx pos }) _
        rwa [hkeys]
      · exact (sound_object.mp hkeeps.sound).2 entry (List.mem_of_mem_eraseIdx hmem)

theorem ofEntries_spec {data : List (Bytes × Node)} (resource : Nat)
    (hdata : ∀ entry ∈ data, entry.2.Sound) :
    (∀ self', ofEntries data resource = some self' → (object self').Sound) ∧
      (data.length ≤ Index.kMaxIndexed →
        ∃ index, ofEntries data resource = some { data, index, resource }) := by
  have hlength : Object.keys { data, index := none, resource } =
      (data.map (·.1) : List Bytes) := rfl
  rw [ofEntries]
  by_cases hlarge : kIndexThreshold < data.length
  · have hne : data.map (·.1) ≠ [] :=
      List.length_pos_iff.mp (by rw [List.length_map]; exact Nat.zero_lt_of_lt hlarge)
    rw [if_pos hlarge, hlength]
    constructor
    · intro self' heq
      obtain ⟨index, hindex, heq⟩ := Option.bind_eq_some_iff.mp heq
      cases heq
      exact sound_object.mpr ⟨Index.cacheHolds_some (Index.build_holds hne hindex), hdata⟩
    · intro hmax
      obtain ⟨index, hindex, -⟩ := Index.build_spec hne (by rwa [List.length_map])
      exact ⟨some index, by rw [hindex]; rfl⟩
  · rw [if_neg hlarge]
    refine ⟨fun self' heq => ?_, fun _ => ⟨none, rfl⟩⟩
    cases heq
    exact sound_object.mpr ⟨Index.cacheHolds_none _, hdata⟩

end Object

/-! ### Copies and merges -/

namespace Node

mutual

/-- The outermost objects of the tree. -/
def objects : Node → List (Object Node)
  | array elements => objectsElements elements
  | object self => [self]
  | _ => []

def objectsElements : List Node → List (Object Node)
  | [] => []
  | value :: rest => value.objects ++ objectsElements rest

end

theorem sound_of_objects {value : Node}
    (h : ∀ inner ∈ value.objects, (object inner).Sound) : value.Sound := by
  induction value using Node.induct with
  | array elements ih =>
      refine sound_array.mpr fun value hmem => ih value hmem fun inner hinner => h inner ?_
      rw [objects]
      clear ih h
      induction elements with
      | nil => cases hmem
      | cons other rest ih =>
          rw [objectsElements, List.mem_append]
          rcases List.mem_cons.mp hmem with rfl | hmem
          · exact .inl hinner
          · exact .inr (ih hmem)
  | object self => exact h self (List.mem_singleton_self self)
  | _ => trivial

theorem sound_objects {value : Node} (h : value.Sound) :
    ∀ inner ∈ value.objects, (object inner).Sound := by
  induction value using Node.induct with
  | array elements ih =>
      rw [sound_array] at h
      intro inner hinner
      rw [objects] at hinner
      induction elements with
      | nil => cases hinner
      | cons other rest ih' =>
          rw [List.forall_mem_cons] at h ih
          rw [objectsElements, List.mem_append] at hinner
          rcases hinner with hinner | hinner
          · exact ih.1 h.1 inner hinner
          · exact ih' ih.2 h.2 hinner
  | object self =>
      intro inner hinner
      rw [List.mem_singleton.mp hinner]
      exact h
  | _ => exact fun _ hmem => absurd hmem List.not_mem_nil

mutual

/-- How many entries the objects of the tree have together. -/
def entryCount : Node → Nat
  | array elements => entryCountElements elements
  | object { data, .. } => entryCountEntries data
  | _ => 0

def entryCountElements : List Node → Nat
  | [] => 0
  | value :: rest => value.entryCount + entryCountElements rest

def entryCountEntries : List (Bytes × Node) → Nat
  | [] => 0
  | (_, value) :: rest => 1 + value.entryCount + entryCountEntries rest

end

theorem length_le_entryCount (data : List (Bytes × Node)) :
    data.length ≤ entryCountEntries data := by
  induction data with
  | nil => exact Nat.le_refl 0
  | cons entry rest ih =>
      rw [entryCountEntries, List.length_cons]
      omega

theorem entryCount_object (self : Object Node) :
    (object self).entryCount = entryCountEntries self.data := by
  obtain ⟨data, index, resource⟩ := self
  rw [entryCount]

theorem entryCount_le_of_mem {data : List (Bytes × Node)} {entry : Bytes × Node}
    (hmem : entry ∈ data) : entry.2.entryCount ≤ entryCountEntries data := by
  induction data with
  | nil => cases hmem
  | cons other rest ih =>
      rw [entryCountEntries]
      rcases List.mem_cons.mp hmem with rfl | hmem
      · omega
      · have := ih hmem
        omega

theorem entryCountEntries_append (data : List (Bytes × Node)) (key : Bytes) (value : Node) :
    entryCountEntries (data ++ [(key, value)]) = entryCountEntries data + (1 + value.entryCount) := by
  induction data with
  | nil => simp [entryCountEntries]
  | cons entry rest ih =>
      rw [List.cons_append, entryCountEntries, ih, entryCountEntries]
      omega

theorem entryCountEntries_modify {data : List (Bytes × Node)} {pos : Nat} {entry : Bytes × Node}
    (hentry : data[pos]? = some entry) {value : Node} {more : Nat}
    (hvalue : value.entryCount ≤ entry.2.entryCount + more) :
    entryCountEntries (data.modify pos fun old => (old.1, value)) ≤ entryCountEntries data + more := by
  induction data generalizing pos with
  | nil => cases hentry
  | cons old rest ih =>
      cases pos with
      | zero =>
          obtain rfl := Option.some.inj hentry
          rw [List.modify_zero_cons, entryCountEntries, entryCountEntries]
          omega
      | succ pos =>
          rw [List.modify_succ_cons, entryCountEntries, entryCountEntries]
          have := ih hentry
          omega

/-- A copy that can be made has its own indexes, and it can be made of a tree with few entries. -/
def Clones (value : Node) : Prop := ∀ into,
  (∀ copy, value.clone into = some copy → copy.Sound) ∧
    (value.entryCount ≤ Index.kMaxIndexed →
      ∃ copy, value.clone into = some copy ∧ copy.entryCount = value.entryCount)

theorem cloneElements_spec {elements : List Node} (h : ∀ value ∈ elements, value.Clones) (into : Nat) :
    (∀ copies, cloneElements into elements = some copies → ∀ copy ∈ copies, copy.Sound) ∧
      (entryCountElements elements ≤ Index.kMaxIndexed → ∃ copies,
        cloneElements into elements = some copies ∧
          entryCountElements copies = entryCountElements elements) := by
  induction elements with
  | nil =>
      refine ⟨fun copies hcopies => ?_, fun _ => ⟨[], rfl, rfl⟩⟩
      cases hcopies
      exact fun _ hmem => absurd hmem List.not_mem_nil
  | cons value rest ih =>
      rw [List.forall_mem_cons] at h
      obtain ⟨hsound, hreturns⟩ := h.1 into
      obtain ⟨hsound', hreturns'⟩ := ih h.2
      constructor
      · intro copies hcopies
        obtain ⟨copy, hcopy, hcopies⟩ := Option.bind_eq_some_iff.mp hcopies
        obtain ⟨copies', hrest, hcopies⟩ := Option.bind_eq_some_iff.mp hcopies
        cases hcopies
        exact List.forall_mem_cons.mpr ⟨hsound copy hcopy, hsound' copies' hrest⟩
      · intro hmax
        rw [entryCountElements] at hmax
        obtain ⟨copy, hcopy, hcount⟩ := hreturns (by omega)
        obtain ⟨copies, hrest, hcount'⟩ := hreturns' (by omega)
        refine ⟨copy :: copies, ?_, by rw [entryCountElements, entryCountElements, hcount, hcount']⟩
        rw [cloneElements, hcopy, hrest]
        rfl

theorem cloneEntries_spec {data : List (Bytes × Node)} (h : ∀ entry ∈ data, entry.2.Clones)
    (into : Nat) :
    (∀ copies, cloneEntries into data = some copies → ∀ copy ∈ copies, copy.2.Sound) ∧
      (entryCountEntries data ≤ Index.kMaxIndexed → ∃ copies,
        cloneEntries into data = some copies ∧
          entryCountEntries copies = entryCountEntries data) := by
  induction data with
  | nil =>
      refine ⟨fun copies hcopies => ?_, fun _ => ⟨[], rfl, rfl⟩⟩
      cases hcopies
      exact fun _ hmem => absurd hmem List.not_mem_nil
  | cons entry rest ih =>
      rw [List.forall_mem_cons] at h
      obtain ⟨hsound, hreturns⟩ := h.1 into
      obtain ⟨hsound', hreturns'⟩ := ih h.2
      constructor
      · intro copies hcopies
        obtain ⟨copy, hcopy, hcopies⟩ := Option.bind_eq_some_iff.mp hcopies
        obtain ⟨copies', hrest, hcopies⟩ := Option.bind_eq_some_iff.mp hcopies
        cases hcopies
        exact List.forall_mem_cons.mpr ⟨hsound copy hcopy, hsound' copies' hrest⟩
      · intro hmax
        rw [entryCountEntries] at hmax
        obtain ⟨copy, hcopy, hcount⟩ := hreturns (by omega)
        obtain ⟨copies, hrest, hcount'⟩ := hreturns' (by omega)
        refine ⟨(entry.1, copy) :: copies, ?_, by
          rw [entryCountEntries, entryCountEntries, hcount, hcount']⟩
        rw [cloneEntries, hcopy, hrest]
        rfl

theorem clones (value : Node) : value.Clones := by
  induction value using Node.induct with
  | array elements ih =>
      intro into
      obtain ⟨hsound, hreturns⟩ := cloneElements_spec ih into
      constructor
      · intro copy hcopy
        obtain ⟨copies, hcopies, hcopy⟩ := Option.bind_eq_some_iff.mp hcopy
        cases hcopy
        exact sound_array.mpr (hsound copies hcopies)
      · intro hmax
        obtain ⟨copies, hcopies, hcount⟩ := hreturns hmax
        exact ⟨array copies, by rw [clone, hcopies]; rfl, hcount⟩
  | object self ih =>
      intro into
      obtain ⟨data, index, resource⟩ := self
      obtain ⟨hsound, hreturns⟩ := cloneEntries_spec ih into
      constructor
      · intro copy hcopy
        obtain ⟨copies, hcopies, hcopy⟩ := Option.bind_eq_some_iff.mp hcopy
        obtain ⟨self', hself, hcopy⟩ := Option.bind_eq_some_iff.mp hcopy
        cases hcopy
        exact (Object.ofEntries_spec into (hsound copies hcopies)).1 self' hself
      · intro hmax
        obtain ⟨copies, hcopies, hcount⟩ := hreturns hmax
        have hlength : copies.length ≤ Index.kMaxIndexed :=
          (length_le_entryCount copies).trans (hcount.le.trans hmax)
        obtain ⟨index', hself⟩ := (Object.ofEntries_spec into (hsound copies hcopies)).2 hlength
        exact ⟨object { data := copies, index := index', resource := into },
          by rw [clone, hcopies, Option.bind_eq_bind, Option.bind_some, hself]; rfl, hcount⟩
  | _ =>
      refine fun into => ⟨fun copy hcopy => ?_, fun _ => ⟨_, rfl, rfl⟩⟩
      cases hcopy
      trivial

/-- A merge that can be made keeps the indexes, and it can be made of trees with few entries. -/
def Merges (value : Node) : Prop := ∀ resource found, found.Sound →
  (∀ merged, mergeValue resource found value = some merged → merged.Sound) ∧
    (found.entryCount + value.entryCount ≤ Index.kMaxIndexed →
      ∃ merged, mergeValue resource found value = some merged ∧
        merged.entryCount ≤ found.entryCount + value.entryCount)

theorem mergeEntries_spec {data : List (Bytes × Node)} (h : ∀ entry ∈ data, entry.2.Merges)
    {self : Object Node} (hself : (object self).Sound) :
    (∀ merged, mergeEntries self data = some merged → (object merged).Sound) ∧
      ((object self).entryCount + entryCountEntries data ≤ Index.kMaxIndexed →
        ∃ merged, mergeEntries self data = some merged ∧
          (object merged).entryCount ≤ (object self).entryCount + entryCountEntries data) := by
  induction data generalizing self with
  | nil =>
      refine ⟨fun merged hmerged => ?_, fun _ => ⟨self, rfl, Nat.le_refl _⟩⟩
      cases hmerged
      exact hself
  | cons entry rest ih =>
      obtain ⟨key, value⟩ := entry
      rw [List.forall_mem_cons] at h
      obtain ⟨self₁, hfind, hkeeps, hdata⟩ := Object.findSlot_spec hself key true
      simp only [entryCount_object] at ih ⊢
      rw [mergeEntries, hfind, Option.bind_eq_bind, Option.bind_some, entryCountEntries, ← hdata]
      cases hmatch : firstMatch self.keys key with
      | some pos =>
          obtain ⟨found, hfound⟩ := Object.firstMatch_get (hkeeps.keys ▸ hmatch)
          have hmem := List.mem_of_getElem? hfound
          have hle : found.entryCount ≤ entryCountEntries self₁.data := entryCount_le_of_mem hmem
          have hmerges : value.Merges := h.1
          obtain ⟨hsound, hreturns⟩ :=
            hmerges self₁.resource found ((sound_object.mp hkeeps.sound).2 _ hmem)
          simp only [hfound, Option.bind_eq_bind, Option.bind_some]
          constructor
          · intro merged hmerged
            obtain ⟨value', hvalue, hmerged⟩ := Option.bind_eq_some_iff.mp hmerged
            exact (ih h.2 (Object.setValue_sound hkeeps.sound pos (hsound value' hvalue))).1 merged
              hmerged
          · intro hmax
            obtain ⟨value', hvalue, hcount⟩ := hreturns (by omega)
            have hset : entryCountEntries (self₁.setValue pos value').data ≤ _ :=
              entryCountEntries_modify hfound hcount
            obtain ⟨merged, hmerged, hcount'⟩ :=
              (ih h.2 (Object.setValue_sound hkeeps.sound pos (hsound value' hvalue))).2 (by omega)
            exact ⟨merged, by rw [hvalue, Option.bind_some, hmerged], by omega⟩
      | none =>
          have hnew : key ∉ self₁.keys := hkeeps.keys ▸ firstMatch_eq_none.mp hmatch
          obtain ⟨hsound, hreturns⟩ := clones value self₁.resource
          simp only [Option.bind_eq_bind]
          constructor
          · intro merged hmerged
            obtain ⟨copy, hcopy, hmerged⟩ := Option.bind_eq_some_iff.mp hmerged
            obtain ⟨self₂, happend, hmerged⟩ := Option.bind_eq_some_iff.mp hmerged
            have hself₂ := (Object.append_spec hkeeps.sound hnew (hsound copy hcopy)).1 _ happend
            exact (ih h.2 hself₂).1 merged hmerged
          · intro hmax
            obtain ⟨copy, hcopy, hcount⟩ := hreturns (by omega)
            have hlength := length_le_entryCount self₁.data
            obtain ⟨hsound₂, hreturns₂⟩ := Object.append_spec hkeeps.sound hnew (hsound copy hcopy)
            obtain ⟨index, happend⟩ := hreturns₂ (by omega)
            have hcount₂ := entryCountEntries_append self₁.data key copy
            obtain ⟨merged, hmerged, hcount'⟩ := (ih h.2 (hsound₂ _ happend)).2 (by
              simp only
              omega)
            refine ⟨merged, ?_, ?_⟩
            · rw [hcopy, Option.bind_some, happend, Option.bind_some, hmerged]
            · simp only at hcount'
              omega

/-- Where the two values are not both objects, the new one is copied. -/
theorem merges_of_clone {value : Node}
    (h : ∀ resource found, mergeValue resource found value = value.clone resource) :
    value.Merges := by
  intro resource found _
  rw [h]
  obtain ⟨hsound, hreturns⟩ := clones value resource
  refine ⟨hsound, fun hmax => ?_⟩
  obtain ⟨copy, hcopy, hcount⟩ := hreturns (by omega)
  exact ⟨copy, hcopy, by omega⟩

theorem merges (value : Node) : value.Merges := by
  induction value using Node.induct with
  | object self ih =>
      obtain ⟨data, index, resource⟩ := self
      intro resource' found hfound
      cases found with
      | object target =>
          obtain ⟨hsound, hreturns⟩ := mergeEntries_spec ih hfound
          constructor
          · intro merged hmerged
            obtain ⟨target', htarget, hmerged⟩ := Option.bind_eq_some_iff.mp hmerged
            cases hmerged
            exact hsound target' htarget
          · intro hmax
            obtain ⟨target', htarget, hcount⟩ := hreturns hmax
            exact ⟨object target', by rw [mergeValue, htarget]; rfl, hcount⟩
      | _ =>
          obtain ⟨hsound, hreturns⟩ := clones (object { data, index, resource }) resource'
          refine ⟨hsound, fun hmax => ?_⟩
          obtain ⟨copy, hcopy, hcount⟩ := hreturns (by omega)
          exact ⟨copy, hcopy, by omega⟩
  | _ => exact merges_of_clone fun _ _ => rfl

end Node

/-! ### Every sequence of operations -/

/-- The objects that the operations reach, from the empty object or an adopted entry vector. The
values that are stored come from elsewhere, so the objects in them are reached as well. -/
inductive Reached : Object Node → Prop where
  | empty (resource : Nat) : Reached { resource }
  | adopt {data : List (Bytes × Node)} (resource : Nat) :
      (∀ entry ∈ data, ∀ inner ∈ entry.2.objects, Reached inner) → Reached { data, resource }
  | inner {self inner : Object Node} {entry : Bytes × Node} : Reached self → entry ∈ self.data →
      inner ∈ entry.2.objects → Reached inner
  | lookup {self self' : Object Node} {slot : Option Nat} (key : Bytes) (rebuild : Bool) :
      Reached self → self.findSlot key rebuild = some (slot, self') → Reached self'
  | subscript {self self' : Object Node} {pos : Nat} (key : Bytes) : Reached self →
      self.subscript key = some (pos, self') → Reached self'
  | assign {self : Object Node} {value : Node} (pos : Nat) : Reached self →
      (∀ inner ∈ value.objects, Reached inner) → Reached (self.setValue pos value)
  | insert {self self' : Object Node} {value : Node} (key : Bytes) : Reached self →
      (∀ inner ∈ value.objects, Reached inner) → self.insert key value = some self' → Reached self'
  | remove {self self' : Object Node} {removed : Bool} (key : Bytes) : Reached self →
      self.remove key = some (removed, self') → Reached self'
  | merge {self other self' : Object Node} : Reached self → self.merge other = some self' →
      Reached self'
  | clone {self self' : Object Node} (into : Nat) :
      (Node.object self).clone into = some (Node.object self') → Reached self'
  | clear {self : Object Node} : Reached self → Reached self.clear
  | edited {self : Object Node} {data : List (Bytes × Node)} :
      (∀ entry ∈ data, ∀ inner ∈ entry.2.objects, Reached inner) → Reached (self.edited data)
  | moved {other : Object Node} : Reached other → Reached other.moveConstruct.1
  | movedFrom {other : Object Node} : Reached other → Reached other.moveConstruct.2
  | assigned {self other : Object Node} : Reached self → Reached other →
      Reached (self.moveAssign other).1
  | assignedFrom {self other : Object Node} : Reached other → Reached (self.moveAssign other).2
  | comparedLeft {self other self' other' : Object Node} {fuel : Nat} {same : Bool} :
      Reached self → Reached other → Node.equalWithin fuel (.object self) (.object other) =
        some (same, .object self', .object other') → Reached self'
  | comparedRight {self other self' other' : Object Node} {fuel : Nat} {same : Bool} :
      Reached self → Reached other → Node.equalWithin fuel (.object self) (.object other) =
        some (same, .object self', .object other') → Reached other'

/-- The indexes of every object reached, and of the objects in it, hold their entries. -/
theorem reached_sound {self : Object Node} (h : Reached self) : (Node.object self).Sound := by
  have hempty : ∀ {data : List (Bytes × Node)} (resource : Nat),
      (∀ entry ∈ data, ∀ inner ∈ entry.2.objects, (Node.object inner).Sound) →
        (Node.object { data, resource }).Sound := fun _ hdata =>
    Node.sound_object.mpr ⟨Index.cacheHolds_none _, fun entry hmem =>
      Node.sound_of_objects (hdata entry hmem)⟩
  have hbare : ∀ resource, (Node.object { data := [], index := none, resource }).Sound :=
    fun resource => hempty resource fun _ hmem => absurd hmem List.not_mem_nil
  induction h with
  | empty resource => exact hbare resource
  | adopt resource _ ih => exact hempty resource ih
  | inner _ hentry hinner ih =>
      exact Node.sound_objects ((Node.sound_object.mp ih).2 _ hentry) _ hinner
  | lookup key rebuild _ hfind ih =>
      obtain ⟨self', hfind', hkeeps, -⟩ := Object.findSlot_spec ih key rebuild
      rw [hfind] at hfind'
      cases hfind'
      exact hkeeps.sound
  | subscript key _ hsubscript ih => exact (Object.subscript_spec ih key).1 _ _ hsubscript
  | assign pos _ _ ih ihvalue => exact Object.setValue_sound ih pos (Node.sound_of_objects ihvalue)
  | insert key _ _ hinsert ih ihvalue =>
      exact (Object.insert_spec ih key (Node.sound_of_objects ihvalue)).1 _ hinsert
  | remove key _ hremove ih =>
      obtain ⟨removed, self', hremove', hsound⟩ := Object.remove_spec ih key
      rw [hremove] at hremove'
      cases hremove'
      exact hsound
  | merge _ hmerge ih =>
      exact (Node.mergeEntries_spec (fun entry _ => Node.merges entry.2) ih).1 _ hmerge
  | clone into hclone => exact (Node.clones _ into).1 _ hclone
  | clear _ _ => exact hbare _
  | edited _ ih => exact hempty _ ih
  | moved _ ih => exact ih
  | movedFrom _ _ => exact hbare _
  | @assigned self other _ _ ih ih' =>
      rw [Object.moveAssign]
      split
      · exact ih'
      · exact Node.sound_object.mpr ⟨Index.cacheHolds_none _, (Node.sound_object.mp ih').2⟩
  | assignedFrom _ _ =>
      rw [Object.moveAssign]
      split <;> exact hbare _
  | comparedLeft _ _ hequal ih ih' =>
      exact ((Node.equalWithin_answers _ _ _ ih ih').keeps _ _ _ hequal).1.sound
  | comparedRight _ _ hequal ih ih' =>
      exact ((Node.equalWithin_answers _ _ _ ih ih').keeps _ _ _ hequal).2.sound

/-- Whatever operations an object went through, a lookup ends, and ends at the first entry with the
key, with both values of `rebuild`; and every operation that leaves at most `2 ^ 30` entries
returns. -/
theorem reached_lookups {self : Object Node} (h : Reached self) :
    (∀ key rebuild, ∃ self', self.findSlot key rebuild = some (firstMatch self.keys key, self')) ∧
      (∀ key, ∃ result, self.remove key = some result) ∧
      (self.data.length < Index.kMaxIndexed → ∀ key, ∃ result, self.subscript key = some result) ∧
      (self.data.length < Index.kMaxIndexed → ∀ key value, (∀ inner ∈ value.objects, Reached inner) →
        ∃ self', self.insert key value = some self') ∧
      (∀ other, (Node.object self).entryCount + (Node.object other).entryCount ≤ Index.kMaxIndexed →
        ∃ self', self.merge other = some self') ∧
      (∀ other, Reached other → (Node.object self).Indexable → (Node.object other).Indexable →
        ∃ result, Node.equalAfter (.object self) (.object other) = some result) := by
  have hsound := reached_sound h
  refine ⟨fun key rebuild => ?_, fun key => ?_, fun hmax key => ?_, fun hmax key value hvalue => ?_,
    fun other hmax => ?_, fun other hother hself hother' => ?_⟩
  · obtain ⟨self', hfind, -⟩ := Object.findSlot_spec hsound key rebuild
    exact ⟨self', hfind⟩
  · obtain ⟨removed, self', hremove, -⟩ := Object.remove_spec hsound key
    exact ⟨_, hremove⟩
  · exact (Object.subscript_spec hsound key).2 hmax
  · have hvalue' := Node.sound_of_objects fun inner hinner => reached_sound (hvalue inner hinner)
    exact (Object.insert_spec hsound key hvalue').2 hmax
  · rw [Node.entryCount_object other] at hmax
    obtain ⟨self', hmerge, -⟩ :=
      (Node.mergeEntries_spec (fun entry _ => Node.merges entry.2) hsound).2 hmax
    exact ⟨self', hmerge⟩
  · obtain ⟨same, a', b', hanswer, -⟩ := Node.equalAfter_spec hsound (reached_sound hother) (.inl hself)
    exact ⟨_, hanswer⟩

/-- Enough entries for an index, one of its keys twice. -/
def crowded : Object Node :=
  { data := (List.range 17).map (fun n => ([n.toUInt8], .null)) ++ [([3], .integer 5)] }

/-- Lookups in the index that an insertion builds, and in the stale one that a removal leaves. -/
theorem reached_lookups_crowded : ∃ fresh stale removed,
    crowded.insert [20] .null = some fresh ∧ fresh.index.map (·.stale) = some false ∧
    fresh.remove [3] = some (removed, stale) ∧ stale.index.map (·.stale) = some true ∧
    (∃ found, fresh.findSlot [3] = some (some 3, found)) ∧ ∃ found, stale.findSlot [3] = some (some 16, found) := by
  have hnone : ∀ inner ∈ (Node.null).objects, Reached inner := fun _ hinner => absurd hinner List.not_mem_nil
  have hadopt : Reached crowded := by
    refine .adopt 0 fun entry hentry inner hinner => ?_
    rcases List.mem_append.mp hentry with hrange | hlast
    · obtain ⟨n, -, rfl⟩ := List.mem_map.mp hrange
      cases hinner
    · obtain rfl := List.mem_singleton.mp hlast
      cases hinner
  obtain ⟨fresh, hinsert⟩ := (reached_lookups hadopt).2.2.2.1 (by decide) [20] .null hnone
  have hfresh : Reached fresh := .insert [20] hadopt hnone hinsert
  obtain ⟨⟨removed, stale⟩, hremove⟩ := (reached_lookups hfresh).2.1 [3]
  have hstale : Reached stale := .remove [3] hfresh hremove
  have hbuilt : (crowded.insert [20] .null).map (fun self => (self.index.map (·.stale), firstMatch self.keys [3])) =
      some (some false, some 3) := by decide +kernel
  have hleft : ((crowded.insert [20] .null).bind (·.remove [3])).map
      (fun found => (found.2.index.map (·.stale), firstMatch found.2.keys [3])) = some (some true, some 16) := by
    decide +kernel
  rw [hinsert] at hbuilt hleft
  rw [Option.bind_some, hremove] at hleft
  obtain ⟨hindex, hfirst⟩ := Prod.mk.inj (Option.some.inj hbuilt)
  obtain ⟨hindex', hfirst'⟩ := Prod.mk.inj (Option.some.inj hleft)
  obtain ⟨found, hfind⟩ := (reached_lookups hfresh).1 [3] true
  obtain ⟨found', hfind'⟩ := (reached_lookups hstale).1 [3] true
  dsimp only at hfirst hfirst'
  rw [hfirst] at hfind
  rw [hfirst'] at hfind'
  exact ⟨fresh, stale, removed, hinsert, hindex, hremove, hindex', ⟨found, hfind⟩, found', hfind'⟩

end PjhJson
