import PjhJson.PathWalk

/-! The RFC 6902 engine of `patch.cpp`. A `Json *` into the shadow document is the location of the
node below the root. A lookup may refill the index of an object, so every step returns the document
as it leaves it. The operation objects are const: the indexes that lookups refill in them are
dropped. -/

namespace PjhJson

open Grammar

/-- `PatchErrorKind`. -/
inductive PatchErrorKind where
  | invalidPatchDocument
  | unknownOp
  | invalidPointer
  | pathNotFound
  | typeMismatch
  | indexOutOfRange
  | invalidArrayIndex
  | testFailed
  | moveIntoDescendant
  | rootOperation
  deriving DecidableEq, Repr

/-- `PatchError`. -/
structure PatchError where
  kind : PatchErrorKind
  opIndex : Nat
  op : Bytes
  pointer : Bytes
  detail : Bytes
  deriving DecidableEq, Repr

/-- How a step of the engine ends without a result: with an `Err`, with an exception, with undefined
behaviour (a subscript, an insert position or a `back()` that is not there), or in an index that is
built for too many entries. -/
inductive Stop where
  | failed (error : PatchError)
  | invalidArgument (what : String)
  | thrown (exception : Thrown)
  | undefined
  | overflow
  deriving DecidableEq, Repr

/-- `make_error`. -/
def makeError (kind : PatchErrorKind) (opIndex : Nat) (op pointer : Bytes) (detail : Bytes := []) :
    PatchError where
  kind := kind
  opIndex := opIndex
  op := op
  pointer := pointer
  detail := detail

/-- The outcome of an operation of `Object`. -/
def orOverflow {α : Type} (result : Option α) : Except Stop α := result.elim (.error .overflow) .ok

/-! ### Pointers -/

abbrev JsonPointer := List Bytes

/-- `unescape_token`. -/
def unescapeToken : Bytes → Except Stop Bytes
  | [] => pure []
  | c :: raw =>
    if c ≠ ascii '~' then do
      let out ← unescapeToken raw
      pure (c :: out)
    else
      match raw with
      | [] => .error (.invalidArgument "json pointer: trailing '~'")
      | e :: raw =>
        if e = ascii '0' then do
          let out ← unescapeToken raw
          pure (ascii '~' :: out)
        else if e = ascii '1' then do
          let out ← unescapeToken raw
          pure (ascii '/' :: out)
        else .error (.invalidArgument "json pointer: bad escape")

/-- `parse_json_pointer`: the tokens between the slashes. -/
def parseJsonPointer (pointer : Bytes) : Except Stop JsonPointer :=
  match pointer with
  | [] => pure []
  | c :: rest =>
    if c ≠ ascii '/' then .error (.invalidArgument "json pointer: must start with '/'")
    else (rest.splitOn (ascii '/')).mapM unescapeToken

/-- `strict_index`: the loop is the one of `to_index`. -/
def strictIndex (token : Bytes) : Option Nat :=
  if token = [] then none
  else if 1 < token.length ∧ token.head? = some (ascii '0') then none
  else toIndexLoop 0 token

/-- `is_known_op`. -/
def isKnownOp (op : Bytes) : Bool :=
  op == asciiBytes "add" || op == asciiBytes "remove" || op == asciiBytes "replace" ||
    op == asciiBytes "move" || op == asciiBytes "copy" || op == asciiBytes "test"

/-- `is_proper_prefix`. -/
def isProperPrefix (source path : JsonPointer) : Bool :=
  decide (source.length < path.length) && path.take source.length == source

/-! ### Places in the document -/

namespace Node

/-- What a `Json *` points to. -/
def nodeAt (root : Node) : List Nat → Option Node
  | [] => some root
  | pos :: location => do
    let child ← root.child? pos
    child.nodeAt location

/-- The document after an assignment through a `Json *`. -/
def putAt (root : Node) (location : List Nat) (value : Node) : Node :=
  match location with
  | [] => value
  | pos :: location =>
    match root.child? pos with
    | some child => root.setChild pos (child.putAt location value)
    | none => root

/-- `*try_as_object()` of what a `Json *` points to. -/
def objectAt (root : Node) (location : List Nat) : Except Stop (Object Node) :=
  match root.nodeAt location with
  | some (object self) => .ok self
  | _ => .error .undefined

/-- `*try_as_array()` of what a `Json *` points to. -/
def arrayAt (root : Node) (location : List Nat) : Except Stop (List Node) :=
  match root.nodeAt location with
  | some (array elements) => .ok elements
  | _ => .error .undefined

/-- `Array::operator[]`, which does not check. -/
def elementRef (elements : List Node) (index : Nat) : Except Stop Node :=
  elements[index]?.elim (.error .undefined) .ok

/-- `Array::erase` of one element. -/
def eraseAt (elements : List Node) (index : Nat) : Except Stop (List Node) :=
  if elements.length < index ∨ elements.length - index < 1 then
    .error (.thrown (.outOfRange (some "array erase out of range")))
  else .ok (elements.eraseIdx index)

/-- `vector::insert` in front of `begin() + index`. -/
def insertBefore (elements : List Node) (index : Nat) (value : Node) : Except Stop (List Node) :=
  if index ≤ elements.length then .ok (elements.insertIdx index value) else .error .undefined

/-- `Object::at`, and the value there. -/
def valueAt (self : Object Node) (key : Bytes) : Except Stop (Nat × Node × Object Node) := do
  let (found, self) ← orOverflow (self.at key)
  match found with
  | .error exception => .error (.thrown exception)
  | .ok pos =>
    match self.data[pos]? with
    | some entry => .ok (pos, entry.2, self)
    | none => .error .undefined

section Resolve

variable (opIndex : Nat) (op pointer : Bytes)

/-- One hop of `resolve_node` and `resolve_slot`: the position of the child. -/
def patchHop (cur : Node) (token : Bytes) : Except Stop (Nat × Node) :=
  match cur with
  | object self => do
    let (present, self) ← orOverflow (self.contains token)
    if !present then .error (.failed (makeError .pathNotFound opIndex op pointer))
    else
      let (pos, _, self) ← valueAt self token
      pure (pos, object self)
  | array elements =>
    match strictIndex token with
    | none => .error (.failed (makeError .invalidArrayIndex opIndex op pointer))
    | some index =>
      if elements.length ≤ index then
        .error (.failed (makeError .indexOutOfRange opIndex op pointer))
      else do
        let _ ← elementRef elements index
        pure (index, array elements)
  | _ => .error (.failed (makeError .typeMismatch opIndex op pointer))

/-- `resolve_node`, and the loop of `resolve_slot`. -/
def resolveNode (cur : Node) : JsonPointer → Except Stop (List Nat × Node)
  | [] => pure ([], cur)
  | token :: ptr => do
    let (pos, cur) ← cur.patchHop opIndex op pointer token
    match cur.child? pos with
    | none => .error .undefined
    | some child =>
      let (location, child) ← child.resolveNode ptr
      pure (pos :: location, cur.setChild pos child)

end Resolve

end Node

/-- `Slot`: where the last token of a pointer lands. -/
structure Slot where
  parent : List Nat
  token : Bytes
  object : Bool
  index : Nat := 0
  deriving DecidableEq, Repr

/-- `SlotMode`. -/
inductive SlotMode where
  | existing
  | insert
  deriving DecidableEq, Repr

namespace Node

section Slots

variable (opIndex : Nat) (op pointer : Bytes)

/-- The end of `resolve_slot` in an array. -/
def arraySlot (elements : List Node) (parent : List Nat) (token : Bytes) (mode : SlotMode) :
    Except Stop Slot :=
  if token = asciiBytes "-" then
    if mode ≠ .insert then .error (.failed (makeError .invalidArrayIndex opIndex op pointer))
    else pure { parent, token, object := false, index := elements.length }
  else
    match strictIndex token with
    | none => .error (.failed (makeError .invalidArrayIndex opIndex op pointer))
    | some index =>
      let tooFar := if mode = .insert then decide (elements.length < index)
        else elements.isEmpty || decide (elements.length ≤ index)
      if tooFar then .error (.failed (makeError .indexOutOfRange opIndex op pointer))
      else pure { parent, token, object := false, index }

/-- `resolve_slot`. -/
def resolveSlot (root : Node) (ptr : JsonPointer) (mode : SlotMode) : Except Stop (Slot × Node) := do
  let (parent, root) ← root.resolveNode opIndex op pointer ptr.dropLast
  match ptr.getLast? with
  | none => .error .undefined
  | some token =>
    match root.nodeAt parent with
    | some (object self) =>
      if mode = .existing then
        let (present, self) ← orOverflow (self.contains token)
        if !present then .error (.failed (makeError .pathNotFound opIndex op pointer))
        else pure ({ parent, token, object := true }, root.putAt parent (object self))
      else pure ({ parent, token, object := true }, root)
    | some (array elements) =>
      let slot ← arraySlot opIndex op pointer elements parent token mode
      pure (slot, root)
    | some _ => .error (.failed (makeError .typeMismatch opIndex op pointer))
    | none => .error .undefined

/-- `insert_at`. -/
def insertAt (shadow : Node) (ptr : JsonPointer) (value : Node) : Except Stop Node :=
  if ptr = [] then pure value
  else do
    let (slot, shadow) ← shadow.resolveSlot opIndex op pointer ptr .insert
    if slot.object then
      let self ← shadow.objectAt slot.parent
      let self ← orOverflow (self.insert slot.token value)
      pure (shadow.putAt slot.parent (object self))
    else
      let elements ← shadow.arrayAt slot.parent
      let elements ← insertBefore elements slot.index value
      pure (shadow.putAt slot.parent (array elements))

end Slots

/-! ### One operation -/

/-- `contains` of an operation object. -/
def hasMember (obj : Object Node) (key : Bytes) : Except Stop Bool := do
  let (present, _) ← orOverflow (obj.contains key)
  pure present

/-- `at` of an operation object. -/
def memberAt (obj : Object Node) (key : Bytes) : Except Stop Node := do
  let (_, value, _) ← valueAt obj key
  pure value

/-- `contains(key) ? at(key).try_as_string() : nullopt`. -/
def stringMember (obj : Object Node) (key : Bytes) : Except Stop (Option Bytes) := do
  let present ← hasMember obj key
  if present then
    let value ← memberAt obj key
    pure value.asString
  else pure none

section Operations

variable (shadow : Node) (obj : Object Node) (opIndex : Nat) (opName pathText : Bytes) (res : Nat)

/-- The check for the member `value`, and its value. -/
def requiredValue : Except Stop Node := do
  let present ← hasMember obj (asciiBytes "value")
  if !present then
    .error (.failed (makeError .invalidPatchDocument opIndex opName pathText
      (asciiBytes "missing \"value\"")))
  else memberAt obj (asciiBytes "value")

def applyAdd (path : JsonPointer) : Except Stop Node := do
  let value ← requiredValue obj opIndex opName pathText
  let copy ← orOverflow (value.clone res)
  shadow.insertAt opIndex opName pathText path copy

def applyRemove (path : JsonPointer) : Except Stop Node :=
  if path = [] then .error (.failed (makeError .rootOperation opIndex opName pathText))
  else do
    let (slot, shadow) ← shadow.resolveSlot opIndex opName pathText path .existing
    if slot.object then
      let self ← shadow.objectAt slot.parent
      let (_, self) ← orOverflow (self.remove slot.token)
      pure (shadow.putAt slot.parent (object self))
    else
      let elements ← shadow.arrayAt slot.parent
      let elements ← eraseAt elements slot.index
      pure (shadow.putAt slot.parent (array elements))

def applyReplace (path : JsonPointer) : Except Stop Node := do
  let value ← requiredValue obj opIndex opName pathText
  let copy ← orOverflow (value.clone res)
  if path = [] then pure copy
  else
    let (slot, shadow) ← shadow.resolveSlot opIndex opName pathText path .existing
    if slot.object then
      let self ← shadow.objectAt slot.parent
      let self ← orOverflow (self.insert slot.token copy)
      pure (shadow.putAt slot.parent (object self))
    else
      let elements ← shadow.arrayAt slot.parent
      let _ ← elementRef elements slot.index
      pure (shadow.putAt slot.parent (array (elements.set slot.index copy)))

def applyTest (path : JsonPointer) : Except Stop Node := do
  let present ← hasMember obj (asciiBytes "value")
  if !present then
    .error (.failed (makeError .invalidPatchDocument opIndex opName pathText
      (asciiBytes "missing \"value\"")))
  else
    let (location, shadow) ← shadow.resolveNode opIndex opName pathText path
    match shadow.nodeAt location with
    | none => .error .undefined
    | some node =>
      let value ← memberAt obj (asciiBytes "value")
      let (same, node, _) ← orOverflow (equalAfter node value)
      if !same then .error (.failed (makeError .testFailed opIndex opName pathText))
      else pure (shadow.putAt location node)

def applyCopy (path source : JsonPointer) (fromText : Bytes) : Except Stop Node := do
  let (location, shadow) ← shadow.resolveNode opIndex opName fromText source
  match shadow.nodeAt location with
  | none => .error .undefined
  | some node =>
    let copy ← orOverflow (node.clone res)
    shadow.insertAt opIndex opName pathText path copy

/-- Take the value out of the slot. -/
def takeOut (slot : Slot) : Except Stop (Node × Node) :=
  if slot.object then do
    let self ← shadow.objectAt slot.parent
    let (_, moved, self) ← valueAt self slot.token
    let (_, self) ← orOverflow (self.remove slot.token)
    pure (moved, shadow.putAt slot.parent (object self))
  else do
    let elements ← shadow.arrayAt slot.parent
    let moved ← elementRef elements slot.index
    let elements ← eraseAt elements slot.index
    pure (moved, shadow.putAt slot.parent (array elements))

def applyMove (path source : JsonPointer) (fromText : Bytes) : Except Stop Node :=
  if source = [] then .error (.failed (makeError .rootOperation opIndex opName fromText))
  else do
    let (slot, shadow) ← shadow.resolveSlot opIndex opName fromText source .existing
    if source = path then pure shadow
    else if isProperPrefix source path then
      .error (.failed (makeError .moveIntoDescendant opIndex opName pathText))
    else
      let (moved, shadow) ← shadow.takeOut slot
      shadow.insertAt opIndex opName pathText path moved

/-- What `apply_one` does for `copy` and `move`. -/
def applyFrom (path : JsonPointer) : Except Stop Node := do
  let present ← hasMember obj (asciiBytes "from")
  if !present then
    .error (.failed (makeError .invalidPatchDocument opIndex opName pathText
      (asciiBytes "missing string \"from\"")))
  else
    let value ← memberAt obj (asciiBytes "from")
    match value.asString with
    | none => .error (.failed (makeError .invalidPatchDocument opIndex opName pathText
        (asciiBytes "missing string \"from\"")))
    | some fromText =>
      let source ← parseJsonPointer fromText
      if opName = asciiBytes "copy" then
        applyCopy shadow opIndex opName pathText res path source fromText
      else applyMove shadow opIndex opName pathText path source fromText

end Operations

/-- `apply_one`. -/
def applyOne (shadow op : Node) (opIndex : Nat) (res : Nat) : Except Stop Node :=
  match op with
  | object obj => do
    let nameOpt ← stringMember obj (asciiBytes "op")
    let pathOpt ← stringMember obj (asciiBytes "path")
    match nameOpt, pathOpt with
    | some opName, some pathText =>
      if !isKnownOp opName then .error (.failed (makeError .unknownOp opIndex opName pathText))
      else
        let path ← parseJsonPointer pathText
        if opName = asciiBytes "add" then applyAdd shadow obj opIndex opName pathText res path
        else if opName = asciiBytes "remove" then applyRemove shadow opIndex opName pathText path
        else if opName = asciiBytes "replace" then
          applyReplace shadow obj opIndex opName pathText res path
        else if opName = asciiBytes "test" then applyTest shadow obj opIndex opName pathText path
        else applyFrom shadow obj opIndex opName pathText res path
    | _, _ => .error (.failed (makeError .invalidPatchDocument opIndex [] []
        (asciiBytes "operation missing string \"op\"/\"path\"")))
  | _ => .error (.failed (makeError .invalidPatchDocument opIndex [] []
      (asciiBytes "operation must be an object")))

/-! ### The pre-scan -/

/-- A pointer that parses, or else the error. Only `std::invalid_argument` is caught. -/
def checkPointer (text : Bytes) (error : PatchError) : Except Stop (Option PatchError) :=
  match parseJsonPointer text with
  | .ok _ => pure none
  | .error (.invalidArgument _) => pure (some error)
  | .error stop => .error stop

/-- What `validate_patch_shape` requires of `copy` and `move`. -/
def validateFrom (obj : Object Node) (i : Nat) (opName pathText : Bytes) :
    Except Stop (Option PatchError) := do
  let fromOpt ← stringMember obj (asciiBytes "from")
  match fromOpt with
  | none =>
    pure (some (makeError .invalidPatchDocument i opName pathText
      (asciiBytes "operation missing string \"from\"")))
  | some fromText =>
    checkPointer fromText
      (makeError .invalidPointer i opName fromText (asciiBytes "bad \"from\" pointer"))

/-- The body of the loop of `validate_patch_shape`. -/
def validateOp (op : Node) (i : Nat) : Except Stop (Option PatchError) :=
  match op with
  | object obj => do
    let nameOpt ← stringMember obj (asciiBytes "op")
    match nameOpt with
    | none => pure (some (makeError .invalidPatchDocument i [] []
        (asciiBytes "operation missing string \"op\"")))
    | some opName =>
      let pathOpt ← stringMember obj (asciiBytes "path")
      let pathText := pathOpt.getD []
      if !isKnownOp opName then pure (some (makeError .unknownOp i opName pathText))
      else if pathOpt.isNone then
        pure (some (makeError .invalidPatchDocument i opName []
          (asciiBytes "operation missing string \"path\"")))
      else
        let bad ← checkPointer pathText
          (makeError .invalidPointer i opName pathText (asciiBytes "bad \"path\" pointer"))
        if bad.isSome then pure bad
        else if opName = asciiBytes "add" ∨ opName = asciiBytes "replace" ∨
            opName = asciiBytes "test" then
          let present ← hasMember obj (asciiBytes "value")
          if !present then pure (some (makeError .invalidPatchDocument i opName pathText
            (asciiBytes "operation missing \"value\"")))
          else pure none
        else if opName = asciiBytes "remove" then pure none
        else validateFrom obj i opName pathText
  | _ => pure (some (makeError .invalidPatchDocument i [] []
      (asciiBytes "operation must be an object")))

/-- `validate_patch_shape`, from the operation `i` on. -/
def validatePatchShape (i : Nat) : List Node → Except Stop (Option PatchError)
  | [] => pure none
  | op :: ops => do
    let error ← validateOp op i
    match error with
    | some error => pure (some error)
    | none => validatePatchShape (i + 1) ops

/-! ### The whole patch -/

/-- The loop of `patch_result`, from the operation `i` on. -/
def applyFromIndex (shadow : Node) (res : Nat) (i : Nat) : List Node → Except Stop Node
  | [] => pure shadow
  | op :: ops => do
    let shadow ← shadow.applyOne op i res
    shadow.applyFromIndex res (i + 1) ops

/-- `patch_result`: the target it leaves when it succeeds. -/
def patchResult (target patch : Node) (res : Nat) : Except Stop Node :=
  match patch with
  | array ops =>
    if ops.isEmpty then pure target
    else do
      let error ← validatePatchShape 0 ops
      match error with
      | some error => .error (.failed error)
      | none =>
        let shadow ← orOverflow (target.clone res)
        shadow.applyFromIndex res 0 ops
  | _ => .error (.failed (makeError .invalidPatchDocument 0 [] []
      (asciiBytes "top-level patch must be an array")))

end Node

end PjhJson
