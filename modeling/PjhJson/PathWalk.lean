import PjhJson.NodeTree
import PjhJson.PathSyntax

/-! The two walkers along a path: the one of `path.cpp`, which throws, behind `at_path`, `find_path`
and `contains`, and the one of `access.cpp`, which returns the first failing hop. A lookup may refill
the index of an object, so a walk returns the tree along with the node it found; the node is given by
its position among the children at each hop. -/

namespace PjhJson

open Grammar

/-- What a walk throws. The text of a failed range check is the standard library's. -/
inductive Thrown where
  | typeError (what : String)
  | outOfRange (what : Option String)
  deriving DecidableEq, Repr

/-- `AccessErrorKind`, of the failures of a walk along a typed path. -/
inductive AccessErrorKind where
  | missing
  | outOfRange
  | typeMismatch
  | invalidIndex
  deriving DecidableEq, Repr

/-- `AccessError`. -/
structure AccessError where
  code : AccessErrorKind
  path : Bytes
  expected : Bytes
  actual : Bytes
  hop : Nat
  deriving DecidableEq, Repr

/-- `message()`. -/
def AccessError.message (error : AccessError) : Bytes :=
  match error.code with
  | .missing => asciiBytes "missing key: " ++ error.path
  | .outOfRange => asciiBytes "index out of range: " ++ error.path
  | .typeMismatch => asciiBytes "type mismatch at " ++ error.path ++ asciiBytes ": expected " ++
      error.expected ++ asciiBytes ", got " ++ error.actual
  | .invalidIndex => asciiBytes "invalid array index: " ++ error.path

/-- `std::to_string`. -/
def decimal (idx : Nat) : Bytes := asciiBytes (toString idx)

/-- The loop of `to_index`, of which each walker has its own copy. -/
def toIndexLoop (v : Nat) : Bytes → Option Nat
  | [] => some v
  | c :: s =>
    if !isDigit c then none
    else if kIndexGuard < v then none
    else toIndexLoop ((v * 10 + digitOf c) % (kSizeMax + 1)) s

/-- `to_index`. -/
def toIndex (s : Bytes) : Option Nat := if s = [] then none else toIndexLoop 0 s

namespace Object

/-- `contains`. -/
def contains (self : Object Node) (key : Bytes) : Option (Bool × Object Node) := do
  let (slot, self) ← self.findSlot key
  some (slot.isSome, self)

/-- `at`: the position of the entry. -/
def «at» (self : Object Node) (key : Bytes) : Option (Except Thrown Nat × Object Node) := do
  let (slot, self) ← self.findSlot key
  match slot with
  | some pos => some (.ok pos, self)
  | none => some (.error (.outOfRange (some "json key not found")), self)

end Object

/-- `Array::at`. -/
def elementAt (elements : List Node) (idx : Nat) : Except Thrown Nat :=
  if idx < elements.length then .ok idx else .error (.outOfRange none)

namespace Node

/-- The child at a position. -/
def child? : Node → Nat → Option Node
  | array elements, pos => elements[pos]?
  | object self, pos => self.data[pos]?.map (·.2)
  | _, _ => none

/-- The tree after a walk below the child at a position. -/
def setChild : Node → Nat → Node → Node
  | array elements, pos, value => array (elements.set pos value)
  | object self, pos, value => object (self.setValue pos value)
  | node, _, _ => node

/-! ### `path.cpp` -/

/-- `hop`: the position of the child. -/
def hop (node : Node) : PathStep → Option (Except Thrown Nat × Node)
  | .key key =>
    match node with
    | object self => do
      let (found, self) ← self.at key
      some (found, object self)
    | array elements =>
      match toIndex key with
      | none => some (.error (.outOfRange (some "not a valid array index")), array elements)
      | some idx => some (elementAt elements idx, array elements)
    | node => some (.error (.typeError "expected object"), node)
  | .index idx =>
    match node with
    | array elements => some (elementAt elements idx, array elements)
    | object self => do
      let (found, self) ← self.at (decimal idx)
      some (found, object self)
    | node => some (.error (.typeError "expected array"), node)

/-- `walk`. -/
def walk (root : Node) : Path → Option (Except Thrown (List Nat) × Node)
  | [] => some (.ok [], root)
  | s :: path => do
    let (found, root) ← root.hop s
    match found with
    | .error thrown => some (.error thrown, root)
    | .ok pos =>
      let cur ← root.child? pos
      let (found, cur) ← cur.walk path
      some (found.map (pos :: ·), root.setChild pos cur)

/-- `at_path`. -/
def atPath (root : Node) (path : Path) : Option (Except Thrown (List Nat) × Node) :=
  root.walk path

/-- `find_path`, which catches both exceptions. -/
def findPath (root : Node) (path : Path) : Option (Option (List Nat) × Node) := do
  let (found, root) ← root.walk path
  match found with
  | .ok location => some (some location, root)
  | .error (.typeError _) => some (none, root)
  | .error (.outOfRange _) => some (none, root)

/-- `contains`. -/
def contains (root : Node) (path : Path) : Option (Bool × Node) := do
  let (found, root) ← root.walk path
  match found with
  | .ok _ => some (true, root)
  | .error (.typeError _) => some (false, root)
  | .error (.outOfRange _) => some (false, root)

/-! ### `access.cpp` -/

/-- `type_name`. -/
def typeName : Node → Bytes
  | null => asciiBytes "null"
  | boolean _ => asciiBytes "boolean"
  | integer _ => asciiBytes "integer"
  | floating _ => asciiBytes "number"
  | stringView _ => asciiBytes "string"
  | stringOwned _ => asciiBytes "string"
  | array _ => asciiBytes "array"
  | object _ => asciiBytes "object"

end Node

/-- `render_path`. -/
def renderPath (path : Path) : Bytes :=
  path.foldl (fun out step =>
    match step with
    | .key key => (if out = [] then out else out ++ [ascii '.']) ++ key
    | .index idx => out ++ [ascii '['] ++ decimal idx ++ [ascii ']']) []

namespace Node

/-- The `AccessError` of the hop at `i`, where `path` is walked up to and with this hop. -/
def accessError (code : AccessErrorKind) (path : Path) (expected actual : Bytes) (i : Nat) :
    AccessError where
  code := code
  path := renderPath path
  expected := expected
  actual := actual
  hop := i

/-- A key looked up in the object `self`: `contains`, and then `at`. -/
def accessKey (self : Object Node) (key : Bytes) (path : Path) (i : Nat) :
    Option (Except AccessError Nat × Node) := do
  let (present, self) ← self.contains key
  if !present then some (.error (accessError .missing path (asciiBytes "object") [] i), object self)
  else
    let (found, self) ← self.at key
    match found with
    | .ok pos => some (.ok pos, object self)
    | .error _ => none

/-- An index tested against the size of an array, and then `at`. -/
def accessElement (elements : List Node) (idx : Nat) (path : Path) (i : Nat) :
    Option (Except AccessError Nat × Node) :=
  if elements.length ≤ idx then
    some (.error (accessError .outOfRange path (asciiBytes "array") [] i), array elements)
  else
    match elementAt elements idx with
    | .ok pos => some (.ok pos, array elements)
    | .error _ => none

/-- The body of the loop of `walk`. An exception of `at` would leave `find_path_result`, and has no
result here. -/
def accessHop (cur : Node) (step : PathStep) (path : Path) (i : Nat) :
    Option (Except AccessError Nat × Node) :=
  match step with
  | .key key =>
    match cur with
    | object self => accessKey self key path i
    | array elements =>
      match toIndex key with
      | none => some (.error (accessError .invalidIndex path (asciiBytes "array") [] i),
          array elements)
      | some idx => accessElement elements idx path i
    | node => some (.error (accessError .typeMismatch path (asciiBytes "object") node.typeName i),
        node)
  | .index idx =>
    match cur with
    | array elements => accessElement elements idx path i
    | object self => accessKey self (decimal idx) path i
    | node => some (.error (accessError .typeMismatch path (asciiBytes "array") node.typeName i),
        node)

/-- `walk`, behind the hops of `walked`. -/
def accessWalk (cur : Node) (walked : Path) : Path → Option (Except AccessError (List Nat) × Node)
  | [] => some (.ok [], cur)
  | step :: path => do
    let (found, cur) ← cur.accessHop step (walked ++ [step]) walked.length
    match found with
    | .error error => some (.error error, cur)
    | .ok pos =>
      let next ← cur.child? pos
      let (found, next) ← next.accessWalk (walked ++ [step]) path
      some (found.map (pos :: ·), cur.setChild pos next)

/-- `find_path_result`. -/
def findPathResult (root : Node) (path : Path) : Option (Except AccessError (List Nat) × Node) :=
  root.accessWalk [] path

end Node

/-! ### Paths into a tree -/

/-- Why a hop cannot be resolved. -/
inductive Miss where
  | missing
  | invalidIndex
  | outOfRange
  | notObject
  | notArray

namespace Miss

/-- The kind that `access.cpp` reports. -/
def code : Miss → AccessErrorKind
  | missing => .missing
  | invalidIndex => .invalidIndex
  | outOfRange => .outOfRange
  | notObject => .typeMismatch
  | notArray => .typeMismatch

/-- What `path.cpp` throws. -/
def thrown : Miss → Thrown
  | missing => .outOfRange (some "json key not found")
  | invalidIndex => .outOfRange (some "not a valid array index")
  | outOfRange => .outOfRange none
  | notObject => .typeError "expected object"
  | notArray => .typeError "expected array"

/-- The container that `access.cpp` names as expected. -/
def expected : Miss → Bytes
  | missing => asciiBytes "object"
  | invalidIndex => asciiBytes "array"
  | outOfRange => asciiBytes "array"
  | notObject => asciiBytes "object"
  | notArray => asciiBytes "array"

/-- The `AccessError` of a miss at the hop `i` from the node `cur`. -/
def error (miss : Miss) (cur : Node) (path : Path) (i : Nat) : AccessError :=
  Node.accessError miss.code path miss.expected
    (if miss.code = .typeMismatch then cur.typeName else []) i

/-- The outcome of a hop in `path.cpp`. -/
def throws {α : Type} : Except Miss (Nat × α) → Except Thrown Nat
  | .ok found => .ok found.1
  | .error miss => .error miss.thrown

/-- The outcome of a hop in `access.cpp`. -/
def reports {α : Type} (cur : Node) (path : Path) (i : Nat) :
    Except Miss (Nat × α) → Except AccessError Nat
  | .ok found => .ok found.1
  | .error miss => .error (miss.error cur path i)

end Miss

namespace Json

/-- The first member with a key, and its position. -/
def member? (entries : List (Bytes × Json Bytes)) (key : Bytes) : Except Miss (Nat × Json Bytes) :=
  match firstMatch (entries.map (·.1)) key with
  | some pos => (entries[pos]?.map fun entry => (pos, entry.2)).elim (.error .missing) .ok
  | none => .error .missing

/-- The element at an index. -/
def element? (elements : List (Json Bytes)) (idx : Nat) : Except Miss (Nat × Json Bytes) :=
  (elements[idx]?.map fun value => (idx, value)).elim (.error .outOfRange) .ok

/-- The child that a hop leads to: the parent decides how the step is read. -/
def child? (tree : Json Bytes) (step : PathStep) : Except Miss (Nat × Json Bytes) :=
  match step, tree with
  | .key key, .object entries => member? entries key
  | .key key, .array elements =>
    match toIndex key with
    | some idx => element? elements idx
    | none => .error .invalidIndex
  | .key _, _ => .error .notObject
  | .index idx, .array elements => element? elements idx
  | .index idx, .object entries => member? entries (decimal idx)
  | .index _, _ => .error .notArray

/-- The location that a path leads to, or the first hop that cannot be resolved. -/
def resolve (tree : Json Bytes) : Path → Except (Nat × Miss) (List Nat)
  | [] => .ok []
  | step :: path =>
    match tree.child? step with
    | .error miss => .error (0, miss)
    | .ok (pos, child) =>
      match child.resolve path with
      | .error (i, miss) => .error (i + 1, miss)
      | .ok location => .ok (pos :: location)

/-- The hop of a miss is the first one that cannot be resolved. -/
theorem resolve_error {tree : Json Bytes} {path : Path} {i : Nat} {miss : Miss}
    (h : tree.resolve path = .error (i, miss)) :
    i < path.length ∧ (∃ location, tree.resolve (path.take i) = .ok location) ∧
      tree.resolve (path.take (i + 1)) = .error (i, miss) := by
  induction path generalizing tree i with
  | nil => cases h
  | cons step path ih =>
      rw [resolve] at h
      cases hchild : tree.child? step with
      | error miss' =>
          rw [hchild] at h
          cases h
          refine ⟨Nat.succ_pos _, ⟨[], rfl⟩, ?_⟩
          rw [Nat.zero_add, List.take_succ_cons, resolve, hchild]
      | ok found =>
          obtain ⟨pos, child⟩ := found
          rw [hchild] at h
          dsimp only at h
          cases hrest : child.resolve path with
          | ok location => rw [hrest] at h; cases h
          | error failed =>
              obtain ⟨j, miss'⟩ := failed
              rw [hrest] at h
              cases h
              obtain ⟨hlt, ⟨location, hbefore⟩, hafter⟩ := ih hrest
              refine ⟨Nat.succ_lt_succ hlt, ⟨pos :: location, ?_⟩, ?_⟩
              · rw [List.take_succ_cons, resolve, hchild]
                dsimp only
                rw [hbefore]
              · rw [List.take_succ_cons, resolve, hchild]
                dsimp only
                rw [hafter]

end Json

namespace Node

/-! ### One hop -/

theorem child?_tree {node child : Node} {pos : Nat} (h : node.child? pos = some child) :
    (∃ elements, node = array elements ∧ elements[pos]? = some child) ∨
      ∃ self key, node = object self ∧ self.data[pos]? = some (key, child) := by
  cases node with
  | array elements => exact .inl ⟨elements, rfl, h⟩
  | object self =>
      obtain ⟨entry, hentry, rfl⟩ := Option.map_eq_some_iff.mp h
      exact .inr ⟨self, entry.1, rfl, hentry⟩
  | _ => cases h

theorem child?_sound {node child : Node} {pos : Nat} (hnode : node.Sound)
    (h : node.child? pos = some child) : child.Sound := by
  rcases child?_tree h with ⟨elements, rfl, hget⟩ | ⟨self, key, rfl, hget⟩
  · exact sound_array.mp hnode child (List.mem_of_getElem? hget)
  · exact (sound_object.mp hnode).2 _ (List.mem_of_getElem? hget)

/-- A walk below a child keeps the tree. -/
theorem keeps_setChild {node child child' : Node} {pos : Nat} (hnode : node.Sound)
    (h : node.child? pos = some child) (hchild : Keeps child child') :
    Keeps node (node.setChild pos child') := by
  rcases child?_tree h with ⟨elements, rfl, hget⟩ | ⟨self, key, rfl, hget⟩
  · refine keeps_array ?_
    rw [List.forall₂_iff_get]
    refine ⟨by simp, fun i hi hi' => ?_⟩
    have hself : Keeps (elements.get ⟨i, hi⟩) (elements.get ⟨i, hi⟩) :=
      Keeps.refl (sound_array.mp hnode _ (List.get_mem elements ⟨i, hi⟩))
    rw [List.get_eq_getElem, List.get_eq_getElem] at *
    rw [List.getElem_set]
    split
    · rename_i heq
      subst heq
      rw [List.getElem?_eq_getElem hi] at hget
      cases hget
      exact hchild
    · exact hself
  · exact keeps_setValue hnode hget hchild

/-- A lookup of the tree, through the entries of the node. -/
theorem member?_tree (self : Object Node) (key : Bytes) :
    (∃ pos value, firstMatch self.keys key = some pos ∧ self.data[pos]? = some (key, value) ∧
      Json.member? (Members.mapValues tree self.data) key = .ok (pos, value.tree)) ∨
    (firstMatch self.keys key = none ∧
      Json.member? (Members.mapValues tree self.data) key = .error .missing) := by
  have hkeys : (Members.mapValues tree self.data).map (·.1) = self.keys := by
    rw [Members.mapValues, List.map_map]
    rfl
  rw [Json.member?, hkeys]
  cases hmatch : firstMatch self.keys key with
  | none => exact .inr ⟨rfl, rfl⟩
  | some pos =>
      obtain ⟨value, hvalue⟩ := Object.firstMatch_get hmatch
      refine .inl ⟨pos, value, rfl, hvalue, ?_⟩
      simp [Members.mapValues, hvalue]

theorem element?_tree (elements : List Node) (idx : Nat) :
    (∃ value, elements[idx]? = some value ∧ idx < elements.length ∧
      Json.element? (elements.map tree) idx = .ok (idx, value.tree)) ∨
    (elements.length ≤ idx ∧ Json.element? (elements.map tree) idx = .error .outOfRange) := by
  rw [Json.element?, List.getElem?_map]
  cases hget : elements[idx]? with
  | none => exact .inr ⟨List.getElem?_eq_none_iff.mp hget, rfl⟩
  | some value =>
      exact .inl ⟨value, rfl, (List.getElem?_eq_some_iff.mp hget).1, rfl⟩

/-- A child of the tree is a child of the node. -/
theorem child?_of_tree {node : Node} {step : PathStep} {pos : Nat} {child : Json Bytes}
    (h : node.tree.child? step = .ok (pos, child)) :
    ∃ next, node.child? pos = some next ∧ next.tree = child := by
  have hmember : ∀ (self : Object Node) (key : Bytes),
      Json.member? (Members.mapValues tree self.data) key = .ok (pos, child) →
        ∃ next, (object self).child? pos = some next ∧ next.tree = child := by
    intro self key hfound
    rcases member?_tree self key with ⟨pos', value, -, hvalue, heq⟩ | ⟨-, heq⟩
    · cases heq.symm.trans hfound
      exact ⟨value, by rw [Node.child?, hvalue]; rfl, rfl⟩
    · cases heq.symm.trans hfound
  have helement : ∀ (elements : List Node) (idx : Nat),
      Json.element? (elements.map tree) idx = .ok (pos, child) →
        ∃ next, (array elements).child? pos = some next ∧ next.tree = child := by
    intro elements idx hfound
    rcases element?_tree elements idx with ⟨value, hvalue, -, heq⟩ | ⟨-, heq⟩
    · cases heq.symm.trans hfound
      exact ⟨value, hvalue, rfl⟩
    · cases heq.symm.trans hfound
  cases node with
  | array elements =>
      rw [tree_array] at h
      cases step with
      | index idx => exact helement elements idx h
      | key key =>
          rw [Json.child?] at h
          split at h
          · exact helement elements _ h
          · cases h
  | object self =>
      rw [tree_object] at h
      cases step with
      | index idx => exact hmember self _ h
      | key key => exact hmember self key h
  | _ => cases step <;> cases h

/-! ### One hop -/

/-- `Object::contains` of a sound object. -/
theorem contains_spec {self : Object Node} (h : (object self).Sound) (key : Bytes) :
    ∃ self', self.contains key = some (decide (key ∈ self.keys), self') ∧
      Keeps (object self) (object self') ∧ self'.data = self.data := by
  obtain ⟨self', hfind, hkeeps, hdata⟩ := Object.findSlot_spec h key true
  have hpresent : (firstMatch self.keys key).isSome = decide (key ∈ self.keys) := by
    rw [Bool.eq_iff_iff, decide_eq_true_iff, Option.isSome_iff_ne_none, Ne, firstMatch_eq_none, not_not]
  refine ⟨self', ?_, hkeeps, hdata⟩
  rw [Object.contains, hfind, ← hpresent]
  rfl

/-- `Object::at` of a sound object. -/
theorem at_spec {self : Object Node} (h : (object self).Sound) (key : Bytes) :
    ∃ self', Keeps (object self) (object self') ∧
      self.at key = some (Miss.throws (Json.member? (Members.mapValues tree self.data) key), self') := by
  obtain ⟨self', hfind, hkeeps, -⟩ := Object.findSlot_spec h key true
  refine ⟨self', hkeeps, ?_⟩
  rw [Object.at, hfind, Option.bind_eq_bind, Option.bind_some]
  rcases member?_tree self key with ⟨pos, value, hmatch, -, hfound⟩ | ⟨hmatch, hfound⟩
  · rw [hmatch, hfound]
    rfl
  · rw [hmatch, hfound]
    rfl

theorem elementAt_eq (elements : List Node) (idx : Nat) :
    elementAt elements idx = Miss.throws (Json.element? (elements.map tree) idx) := by
  rw [elementAt]
  rcases element?_tree elements idx with ⟨value, -, hlt, hfound⟩ | ⟨hle, hfound⟩
  · rw [if_pos hlt, hfound]
    rfl
  · rw [if_neg (Nat.not_lt.mpr hle), hfound]
    rfl

theorem hop_spec {node : Node} (h : node.Sound) (step : PathStep) :
    ∃ after, Keeps node after ∧
      node.hop step = some (Miss.throws (node.tree.child? step), after) := by
  cases node with
  | array elements =>
      refine ⟨array elements, Keeps.refl h, ?_⟩
      rw [tree_array]
      cases step with
      | index idx => rw [hop, elementAt_eq]; rfl
      | key key =>
          rw [hop, Json.child?]
          cases toIndex key with
          | none => rfl
          | some idx =>
              dsimp only
              rw [elementAt_eq]
  | object self =>
      rw [tree_object]
      cases step with
      | index idx =>
          obtain ⟨self', hkeeps, hat⟩ := at_spec h (decimal idx)
          exact ⟨object self', hkeeps, by rw [hop, hat]; rfl⟩
      | key key =>
          obtain ⟨self', hkeeps, hat⟩ := at_spec h key
          exact ⟨object self', hkeeps, by rw [hop, hat]; rfl⟩
  | _ => exact ⟨_, Keeps.refl h, by cases step <;> rfl⟩

/-- `contains` and `at` one after the other, of a sound object. -/
theorem accessKey_spec {self : Object Node} (h : (object self).Sound) (key : Bytes) (path : Path)
    (i : Nat) : ∃ after, Keeps (object self) after ∧ accessKey self key path i =
      some (Miss.reports (object self) path i
        (Json.member? (Members.mapValues tree self.data) key), after) := by
  obtain ⟨self₁, hfind, hkeeps, -⟩ := Object.findSlot_spec h key true
  rw [accessKey, Object.contains, hfind]
  simp only [Option.bind_eq_bind, Option.bind_some]
  rcases member?_tree self key with ⟨pos, value, hmatch, -, hfound⟩ | ⟨hmatch, hfound⟩
  · obtain ⟨self₂, hfind₂, hkeeps₂, -⟩ := Object.findSlot_spec hkeeps.sound key true
    rw [hkeeps.keys, hmatch] at hfind₂
    refine ⟨object self₂, hkeeps.trans hkeeps₂, ?_⟩
    rw [hmatch, hfound, Object.at, hfind₂]
    rfl
  · refine ⟨object self₁, hkeeps, ?_⟩
    rw [hmatch, hfound]
    rfl

theorem accessElement_eq (elements : List Node) (idx : Nat) (path : Path) (i : Nat) :
    accessElement elements idx path i = some (Miss.reports (array elements) path i
      (Json.element? (elements.map tree) idx), array elements) := by
  rw [accessElement, elementAt_eq]
  rcases element?_tree elements idx with ⟨value, -, hlt, hfound⟩ | ⟨hle, hfound⟩
  · rw [if_neg (Nat.not_le.mpr hlt), hfound]
    rfl
  · rw [if_pos hle, hfound]
    rfl

theorem accessHop_spec {node : Node} (h : node.Sound) (step : PathStep) (path : Path) (i : Nat) :
    ∃ after, Keeps node after ∧ node.accessHop step path i =
      some (Miss.reports node path i (node.tree.child? step), after) := by
  cases node with
  | array elements =>
      refine ⟨array elements, Keeps.refl h, ?_⟩
      rw [tree_array]
      cases step with
      | index idx => exact accessElement_eq elements idx path i
      | key key =>
          rw [accessHop, Json.child?]
          cases toIndex key with
          | none => rfl
          | some idx => exact accessElement_eq elements idx path i
  | object self =>
      rw [tree_object]
      cases step with
      | index idx => exact accessKey_spec h (decimal idx) path i
      | key key => exact accessKey_spec h key path i
  | _ => exact ⟨_, Keeps.refl h, by cases step <;> rfl⟩

/-! ### The walk -/

/-- The exception walker finds what the tree says, and throws at the first miss. -/
theorem walk_spec {root : Node} (h : root.Sound) (path : Path) :
    ∃ after, Keeps root after ∧ root.walk path = some ((root.tree.resolve path).mapError
      (fun failed => failed.2.thrown), after) := by
  induction path generalizing root with
  | nil => exact ⟨root, Keeps.refl h, rfl⟩
  | cons step path ih =>
      obtain ⟨after, hkeeps, hhop⟩ := hop_spec h step
      rw [walk, hhop, Json.resolve]
      cases hchild : root.tree.child? step with
      | error miss => exact ⟨after, hkeeps, rfl⟩
      | ok found =>
          obtain ⟨pos, child⟩ := found
          rw [← hkeeps.tree] at hchild
          obtain ⟨next, hnext, rfl⟩ := child?_of_tree hchild
          obtain ⟨next', hkeeps', hwalk⟩ := ih (child?_sound hkeeps.sound hnext)
          refine ⟨after.setChild pos next', hkeeps.trans (keeps_setChild hkeeps.sound hnext hkeeps'), ?_⟩
          change (after.child? pos).bind _ = _
          rw [hnext, Option.bind_some, hwalk]
          dsimp only
          cases next.tree.resolve path with
          | error failed => rfl
          | ok location => rfl

/-- The result walker finds the same, and reports the first miss with its hop. -/
theorem accessWalk_spec {root : Node} (h : root.Sound) (walked path : Path) :
    ∃ after, Keeps root after ∧
      (∀ location, root.tree.resolve path = .ok location →
        root.accessWalk walked path = some (.ok location, after)) ∧
      ∀ i miss, root.tree.resolve path = .error (i, miss) →
        ∃ error : AccessError, root.accessWalk walked path = some (.error error, after) ∧
          error.code = miss.code ∧ error.hop = walked.length + i := by
  induction path generalizing root walked with
  | nil =>
      refine ⟨root, Keeps.refl h, fun location heq => ?_, fun i miss heq => ?_⟩
      · cases heq
        rfl
      · cases heq
  | cons step path ih =>
      obtain ⟨after, hkeeps, hhop⟩ := accessHop_spec h step (walked ++ [step]) walked.length
      cases hchild : root.tree.child? step with
      | error miss =>
          refine ⟨after, hkeeps, fun location heq => ?_, fun i miss' heq => ?_⟩
          · rw [Json.resolve, hchild] at heq
            cases heq
          · rw [Json.resolve, hchild] at heq
            cases heq
            refine ⟨miss.error root (walked ++ [step]) walked.length, ?_, rfl, rfl⟩
            rw [accessWalk, hhop, hchild]
            rfl
      | ok found =>
          obtain ⟨pos, child⟩ := found
          have hchild' := hchild
          rw [← hkeeps.tree] at hchild'
          obtain ⟨next, hnext, rfl⟩ := child?_of_tree hchild'
          obtain ⟨next', hkeeps', hfound, hmissed⟩ :=
            ih (child?_sound hkeeps.sound hnext) (walked ++ [step])
          have hwalk : root.accessWalk walked (step :: path) =
              (next.accessWalk (walked ++ [step]) path).bind fun result =>
                some (result.1.map (pos :: ·), after.setChild pos result.2) := by
            rw [accessWalk, hhop, hchild]
            change (after.child? pos).bind _ = _
            rw [hnext]
            rfl
          refine ⟨after.setChild pos next',
            hkeeps.trans (keeps_setChild hkeeps.sound hnext hkeeps'),
            fun location heq => ?_, fun i miss heq => ?_⟩
          · rw [Json.resolve, hchild] at heq
            dsimp only at heq
            cases hrest : next.tree.resolve path with
            | error failed => rw [hrest] at heq; cases heq
            | ok location' =>
                rw [hrest] at heq
                cases heq
                rw [hwalk, hfound location' hrest]
                rfl
          · rw [Json.resolve, hchild] at heq
            dsimp only at heq
            cases hrest : next.tree.resolve path with
            | ok location' => rw [hrest] at heq; cases heq
            | error failed =>
                rw [hrest] at heq
                cases heq
                obtain ⟨error, herror, hcode, hat⟩ := hmissed failed.1 failed.2 hrest
                refine ⟨error, ?_, hcode, ?_⟩
                · rw [hwalk, herror]
                  rfl
                · rw [hat, List.length_append, List.length_singleton]
                  omega

end Node

/-! ### The four ways to ask -/

/-- The exception that a kind of `AccessError` stands for. -/
def AccessErrorKind.Throws : AccessErrorKind → Thrown → Prop
  | typeMismatch, .typeError _ => True
  | missing, .outOfRange _ => True
  | outOfRange, .outOfRange _ => True
  | invalidIndex, .outOfRange _ => True
  | _, _ => False

theorem Miss.throws_thrown (miss : Miss) : miss.code.Throws miss.thrown := by
  cases miss <;> trivial

namespace Node

/-- A call answers `answer`, and leaves the tree as it was but for the indexes. -/
def Answered {α : Type} (root : Node) (call : Option (α × Node)) (answer : α) : Prop :=
  ∃ after, call = some (answer, after) ∧ Keeps root after

/-- All four find the same node. -/
structure Finds (root : Node) (path : Path) (location : List Nat) : Prop where
  atPath : root.Answered (root.atPath path) (.ok location)
  findPath : root.Answered (root.findPath path) (some location)
  contains : root.Answered (root.contains path) true
  findPathResult : root.Answered (root.findPathResult path) (.ok location)

/-- All four miss, and the two walkers at the same hop, the first that cannot be resolved. -/
structure Misses (root : Node) (path : Path) (thrown : Thrown) (error : AccessError) : Prop where
  atPath : root.Answered (root.atPath path) (.error thrown)
  findPath : root.Answered (root.findPath path) none
  contains : root.Answered (root.contains path) false
  findPathResult : root.Answered (root.findPathResult path) (.error error)
  kind : error.code.Throws thrown
  hop_lt : error.hop < path.length
  before : ∃ location, root.Answered (root.atPath (path.take error.hop)) (.ok location)
  here : root.Answered (root.atPath (path.take (error.hop + 1))) (.error thrown)

/-- `at_path`, `find_path`, `contains` and `find_path_result` agree on every typed path. -/
theorem findPathResult_agrees {root : Node} (h : root.Sound) (path : Path) :
    (∃ location, root.Finds path location) ∨ ∃ thrown error, root.Misses path thrown error := by
  have hwalk : ∀ path, ∃ after, Keeps root after ∧ root.walk path =
      some ((root.tree.resolve path).mapError (fun failed => failed.2.thrown), after) :=
    fun path => walk_spec h path
  obtain ⟨after, hkeeps, hwalked⟩ := hwalk path
  obtain ⟨after', hkeeps', hfound, hmissed⟩ := accessWalk_spec h [] path
  cases hresolve : root.tree.resolve path with
  | ok location =>
      rw [hresolve] at hwalked
      refine .inl ⟨location, ⟨after, hwalked, hkeeps⟩, ⟨after, ?_, hkeeps⟩, ⟨after, ?_, hkeeps⟩,
        ⟨after', hfound location hresolve, hkeeps'⟩⟩
      · rw [Node.findPath, hwalked]
        rfl
      · rw [Node.contains, hwalked]
        rfl
  | error failed =>
      obtain ⟨i, miss⟩ := failed
      rw [hresolve] at hwalked
      obtain ⟨error, herror, hcode, hat⟩ := hmissed i miss hresolve
      rw [List.length_nil, Nat.zero_add] at hat
      obtain ⟨hlt, ⟨location, hbefore⟩, hhere⟩ := Json.resolve_error hresolve
      obtain ⟨left, hleft, hwalkedBefore⟩ := hwalk (path.take i)
      obtain ⟨right, hright, hwalkedHere⟩ := hwalk (path.take (i + 1))
      rw [hbefore] at hwalkedBefore
      rw [hhere] at hwalkedHere
      refine .inr ⟨miss.thrown, error, ⟨⟨after, hwalked, hkeeps⟩, ⟨after, ?_, hkeeps⟩,
        ⟨after, ?_, hkeeps⟩, ⟨after', herror, hkeeps'⟩, hcode ▸ miss.throws_thrown, hat ▸ hlt,
        ⟨location, left, by rw [hat]; exact hwalkedBefore, hleft⟩,
        ⟨right, by rw [hat]; exact hwalkedHere, hright⟩⟩⟩
      · rw [Node.findPath, hwalked]
        cases miss <;> rfl
      · rw [Node.contains, hwalked]
        cases miss <;> rfl

theorem findPathResult_agrees_element :
    let root := object { data := [(asciiBytes "a", array [null])] }
    let path := [PathStep.key (asciiBytes "a"), .index 1]
    root.Sound ∧
      ((∃ location, root.Finds path location) ∨ ∃ thrown error, root.Misses path thrown error) := by
  have hsound : (object { data := [(asciiBytes "a", array [null])] }).Sound := by
    refine sound_object.mpr ⟨Index.cacheHolds_none _, fun entry hmem => ?_⟩
    cases List.mem_singleton.mp hmem
    refine sound_array.mpr fun value hvalue => ?_
    cases List.mem_singleton.mp hvalue
    trivial
  exact ⟨hsound, findPathResult_agrees hsound _⟩

end Node

end PjhJson
