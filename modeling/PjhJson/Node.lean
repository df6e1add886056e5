import PjhJson.Json
import PjhJson.ObjectIndex

/-! A `Json` as it lives in memory: strings keep their storage tag, and objects their resource and
their cached lookup index. -/

namespace PjhJson

/-- `Object`: the entries in insertion order, the cached index and the memory resource. -/
structure Object (ν : Type) where
  data : List (Bytes × ν) := []
  index : Option Index := none
  resource : Nat := 0

/-- The keys of an object, which the index depends on. -/
def Object.keys {ν : Type} (object : Object ν) : List Bytes := object.data.map (·.1)

/-- `Json`, by its tag. -/
inductive Node where
  | null
  | boolean (value : Bool)
  | integer (value : Int64)
  | floating (value : Double)
  | stringView (text : Bytes)
  | stringOwned (text : Bytes)
  | array (elements : List Node)
  | object (self : Object Node)

namespace Node

/-- `as_string`, of the nodes that `is_string` holds of. -/
def asString : Node → Option Bytes
  | stringView text => some text
  | stringOwned text => some text
  | _ => none

/-- `as_object`, of the nodes that `is_object` holds of. -/
def asObject : Node → Option (Object Node)
  | object self => some self
  | _ => none

mutual

/-- The number of containers open around the deepest container, that one included. -/
def nesting : Node → Nat
  | array elements => nestingElements elements + 1
  | object { data, .. } => nestingEntries data + 1
  | _ => 0

def nestingElements : List Node → Nat
  | [] => 0
  | value :: rest => max value.nesting (nestingElements rest)

def nestingEntries : List (Bytes × Node) → Nat
  | [] => 0
  | (_, value) :: rest => max value.nesting (nestingEntries rest)

end

mutual

/-- Every node of the tree satisfies `P`. -/
def All (P : Node → Prop) : Node → Prop
  | array elements => P (array elements) ∧ AllElements P elements
  | object { data, index, resource } => P (object { data, index, resource }) ∧ AllEntries P data
  | node => P node

def AllElements (P : Node → Prop) : List Node → Prop
  | [] => True
  | value :: rest => value.All P ∧ AllElements P rest

def AllEntries (P : Node → Prop) : List (Bytes × Node) → Prop
  | [] => True
  | (_, value) :: rest => value.All P ∧ AllEntries P rest

end

mutual

/-- The tree without its indexes: what the tree says, and nothing that was cached. -/
def bare : Node → Node
  | array elements => array (bareElements elements)
  | object { data, resource, .. } => object { data := bareEntries data, index := none, resource }
  | node => node

def bareElements : List Node → List Node
  | [] => []
  | value :: rest => value.bare :: bareElements rest

def bareEntries : List (Bytes × Node) → List (Bytes × Node)
  | [] => []
  | (key, value) :: rest => (key, value.bare) :: bareEntries rest

end

/-- No object has two entries with the same key. -/
def NoDuplicates (node : Node) : Prop := node.All fun
  | object self => self.keys.Nodup
  | _ => True

def NoNaN (node : Node) : Prop := node.All fun
  | floating value => value.isNaN = false
  | _ => True

/-- The index of every object is absent, or holds its entries. -/
def Sound (node : Node) : Prop := node.All fun
  | object self => Index.CacheHolds self.keys self.index
  | _ => True

/-- No object has more entries than an index can be built for. -/
def Indexable (node : Node) : Prop := node.All fun
  | object self => self.keys.length ≤ Index.kMaxIndexed
  | _ => True

/-- An induction principle that follows the tree: the lists of children are visited by membership. -/
theorem induct {motive : Node → Prop}
    (null : motive null)
    (boolean : ∀ value, motive (boolean value))
    (integer : ∀ value, motive (integer value))
    (floating : ∀ value, motive (floating value))
    (stringView : ∀ text, motive (stringView text))
    (stringOwned : ∀ text, motive (stringOwned text))
    (array : ∀ elements, (∀ value ∈ elements, motive value) → motive (array elements))
    (object : ∀ self : Object Node, (∀ entry ∈ self.data, motive entry.2) → motive (object self)) :
    ∀ node, motive node := by
  refine @Node.rec motive (fun elements => ∀ value ∈ elements, motive value)
    (fun self => ∀ entry ∈ self.data, motive entry.2)
    (fun entries => ∀ entry ∈ entries, motive entry.2) (fun entry => motive entry.2)
    null boolean integer floating stringView stringOwned array object
    ?_ ?_ (fun _ _ _ h => h) ?_ ?_ (fun _ _ h => h)
  · exact fun _ hmem => absurd hmem List.not_mem_nil
  · exact fun _ _ hvalue hrest => List.forall_mem_cons.mpr ⟨hvalue, hrest⟩
  · exact fun _ hmem => absurd hmem List.not_mem_nil
  · exact fun _ _ hentry hrest => List.forall_mem_cons.mpr ⟨hentry, hrest⟩

@[simp] theorem all_array {P : Node → Prop} {elements : List Node} :
    (array elements).All P ↔ P (array elements) ∧ ∀ value ∈ elements, value.All P := by
  have hrest : AllElements P elements ↔ ∀ value ∈ elements, value.All P := by
    induction elements with
    | nil => simp [AllElements]
    | cons value rest ih => rw [AllElements, ih, List.forall_mem_cons]
  rw [All, hrest]

@[simp] theorem all_object {P : Node → Prop} {self : Object Node} :
    (object self).All P ↔ P (object self) ∧ ∀ entry ∈ self.data, entry.2.All P := by
  obtain ⟨data, index, resource⟩ := self
  have hrest : AllEntries P data ↔ ∀ entry ∈ data, entry.2.All P := by
    induction data with
    | nil => simp [AllEntries]
    | cons entry rest ih => rw [AllEntries, ih, List.forall_mem_cons]
  rw [All, hrest]

theorem nestingElements_le {elements : List Node} {n : Nat} :
    nestingElements elements ≤ n ↔ ∀ value ∈ elements, value.nesting ≤ n := by
  induction elements with
  | nil => simp [nestingElements]
  | cons value rest ih => rw [nestingElements, Nat.max_le, ih, List.forall_mem_cons]

theorem nestingEntries_le {entries : List (Bytes × Node)} {n : Nat} :
    nestingEntries entries ≤ n ↔ ∀ entry ∈ entries, entry.2.nesting ≤ n := by
  induction entries with
  | nil => simp [nestingEntries]
  | cons entry rest ih => rw [nestingEntries, Nat.max_le, ih, List.forall_mem_cons]

@[simp] theorem bare_array (elements : List Node) :
    (array elements).bare = array (elements.map bare) := by
  rw [bare]
  congr 1
  induction elements with
  | nil => rfl
  | cons value rest ih => rw [bareElements, ih, List.map_cons]

@[simp] theorem bare_object (self : Object Node) : (object self).bare =
    object { self with data := self.data.map fun entry => (entry.1, entry.2.bare), index := none } := by
  obtain ⟨data, index, resource⟩ := self
  rw [bare]
  congr 2
  induction data with
  | nil => rfl
  | cons entry rest ih => rw [bareEntries, ih, List.map_cons]

end Node
end PjhJson
