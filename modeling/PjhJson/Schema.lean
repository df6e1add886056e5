import PjhJson.ConstJsonRuntime
import PjhJson.DoubleRounding
import PjhJson.LibCheck
import PjhJson.PathWalk

/-! `schema.hpp`: the validation of a `Json` against a compile-time schema. The value is const, so of it only
the cached indexes of its objects can change; they are dropped after each lookup and comparison. A
validation has no result where an index can not be built. -/

namespace PjhJson

open Grammar Trail

/-- `SchemaErrorKind`. -/
inductive SchemaErrorKind where
  | typeMismatch
  | missingRequired
  | unexpectedProperty
  | tooShort
  | tooLong
  | belowMinimum
  | aboveMaximum
  | enumMismatch
  | constMismatch
  | invalidSchema
  deriving DecidableEq, Repr

/-- What a `SchemaError` says besides the path. -/
structure SchemaDetail where
  code : SchemaErrorKind
  expected : Bytes
  actual : Bytes
  keyword : Bytes
  deriving DecidableEq, Repr

/-- `SchemaError`. -/
structure SchemaError extends SchemaDetail where
  path : Bytes
  deriving DecidableEq, Repr

/-- `schema_error_message`. -/
def SchemaError.message (error : SchemaError) : Bytes :=
  let display := if error.path = [] then asciiBytes "<root>" else error.path
  let at_ (text : Bytes) := text ++ display ++ asciiBytes ": expected " ++ error.expected ++
    asciiBytes ", got " ++ error.actual
  match error.code with
  | .typeMismatch => at_ (asciiBytes "schema type mismatch at ")
  | .missingRequired => asciiBytes "missing required property: " ++ display
  | .unexpectedProperty => asciiBytes "unexpected property: " ++ display
  | .tooShort => at_ (asciiBytes "too short at ")
  | .tooLong => at_ (asciiBytes "too long at ")
  | .belowMinimum => at_ (asciiBytes "below minimum at ")
  | .aboveMaximum => at_ (asciiBytes "above maximum at ")
  | .enumMismatch => asciiBytes "value not in enum at " ++ display ++ asciiBytes ": got " ++ error.actual
  | .constMismatch =>
    asciiBytes "value does not match const at " ++ display ++ asciiBytes ": got " ++ error.actual
  | .invalidSchema => asciiBytes "invalid schema: " ++ error.keyword

namespace Node

/-- `as_int` and `as_float`, of the nodes that `is_number` holds of. -/
def asNumber : Node → Option (Int64 ⊕ Double)
  | integer value => some (.inl value)
  | floating value => some (.inr value)
  | _ => none

/-- `as_array`, of the nodes that `is_array` holds of. -/
def asArray : Node → Option (List Node)
  | array elements => some elements
  | _ => none

end Node

namespace Schema

/-! ### `PathBuf` -/

/-- `push_key`: the mark, and the buffer. -/
def pushKey (k : Bytes) (s : Bytes) : Nat × Bytes :=
  (s.length, (if s = [] then s else s ++ [ascii '.']) ++ k)

/-- `push_index`. -/
def pushIndex (i : Nat) (s : Bytes) : Nat × Bytes := (s.length, s ++ [ascii '['] ++ decimal i ++ [ascii ']'])

/-- `rewind`. -/
def rewind (mark : Nat) (s : Bytes) : Bytes := s.take mark ++ List.replicate (mark - s.length) 0

def pushHop : PathStep → Bytes → Nat × Bytes
  | .key k => pushKey k
  | .index i => pushIndex i

theorem rewind_append (s hop : Bytes) : rewind s.length (s ++ hop) = s := by
  rw [rewind, List.take_left, List.length_append, Nat.sub_eq_zero_of_le (Nat.le_add_right _ _)]
  exact List.append_nil s

theorem rewind_pushHop (step : PathStep) (s : Bytes) :
    rewind (pushHop step s).1 (pushHop step s).2 = s := by
  cases step with
  | key k =>
      rw [pushHop, pushKey]
      dsimp only
      split
      · exact rewind_append s k
      · rw [List.append_assoc]
        exact rewind_append s _
  | index i =>
      rw [pushHop, pushIndex]
      dsimp only
      rw [List.append_assoc, List.append_assoc]
      exact rewind_append s _

/-- The hops of a `PathBuf`. -/
def pathBuf : Steps PathStep Bytes Nat where
  enter := pushHop
  rewind := rewind
  rewind_enter := rewind_pushHop

/-! ### Results -/

/-- A `schema_result` of a function that is given a `PathBuf`. -/
abbrev SchemaCheck := Check Bytes SchemaError

/-- The error at the path of the buffer. -/
def report (detail : SchemaDetail) (pb : Bytes) : SchemaError := { detail with path := pb }

def err (code : SchemaErrorKind) (expected actual keyword : Bytes) : SchemaCheck :=
  .fail (report { code, expected, actual, keyword })

/-- `invalid_schema`. -/
def invalidSchema (keyword expected : Bytes) (actual : Bytes := []) : SchemaCheck :=
  err .invalidSchema expected actual keyword

/-! ### Keywords -/

inductive Keyword where
  | type
  | required
  | properties
  | items
  | enum
  | const
  | minLength
  | maxLength
  | minItems
  | maxItems
  | minimum
  | maximum
  | additionalProperties
  deriving DecidableEq, Repr

namespace Keyword

def text : Keyword → Bytes
  | type => asciiBytes "type"
  | required => asciiBytes "required"
  | properties => asciiBytes "properties"
  | items => asciiBytes "items"
  | enum => asciiBytes "enum"
  | const => asciiBytes "const"
  | minLength => asciiBytes "minLength"
  | maxLength => asciiBytes "maxLength"
  | minItems => asciiBytes "minItems"
  | maxItems => asciiBytes "maxItems"
  | minimum => asciiBytes "minimum"
  | maximum => asciiBytes "maximum"
  | additionalProperties => asciiBytes "additionalProperties"

def all : List Keyword :=
  [type, required, properties, items, enum, const, minLength, maxLength, minItems, maxItems, minimum,
    maximum, additionalProperties]

/-- The keyword that a key of a schema spells: the comparisons of `validate_node` and `apply_keyword`. -/
def ofText? (key : Bytes) : Option Keyword := all.find? (·.text = key)

theorem mem_all (keyword : Keyword) : keyword ∈ all := by cases keyword <;> decide

theorem nodup_texts : (all.map text).Nodup := by decide +kernel

theorem text_injective : Function.Injective text := fun _ _ h =>
  List.inj_on_of_nodup_map nodup_texts (mem_all _) (mem_all _) h

theorem text_of_ofText? {key : Bytes} {keyword : Keyword} (h : ofText? key = some keyword) :
    keyword.text = key := by
  have hsome := List.find?_some (p := fun keyword : Keyword => keyword.text = key) h
  exact of_decide_eq_true hsome

theorem ofText?_text (keyword : Keyword) : ofText? keyword.text = some keyword := by
  cases hfind : ofText? keyword.text with
  | none =>
      have hne := List.find?_eq_none.mp hfind keyword (mem_all keyword)
      exact absurd (decide_eq_true rfl) hne
  | some found =>
      rw [text_injective (text_of_ofText? hfind)]

end Keyword

/-! ### `type`, `required` -/

/-- The comparison of `check_type`, for a name that is known. -/
def matchesType (expectedType : Bytes) (value : Node) : Option Bool :=
  if expectedType = asciiBytes "null" then some (value matches .null)
  else if expectedType = asciiBytes "boolean" then some (value matches .boolean _)
  else if expectedType = asciiBytes "integer" then some (value matches .integer _)
  else if expectedType = asciiBytes "number" then some value.asNumber.isSome
  else if expectedType = asciiBytes "string" then some value.asString.isSome
  else if expectedType = asciiBytes "array" then some value.asArray.isSome
  else if expectedType = asciiBytes "object" then some value.asObject.isSome
  else none

/-- `check_type`. -/
def checkType (expectedType : Bytes) (value : Node) : SchemaCheck :=
  match matchesType expectedType value with
  | none => invalidSchema Keyword.type.text (asciiBytes "known JSON type name") expectedType
  | some true => .ok
  | some false => err .typeMismatch expectedType value.typeName Keyword.type.text

/-- `required_element_shape`. -/
def requiredElementShape : ConstJson → SchemaCheck
  | .str _ => .ok
  | _ => invalidSchema Keyword.required.text (asciiBytes "array of strings")

/-- `required_one`. -/
def requiredOne (obj : Object Node) : ConstJson → SchemaCheck
  | .str v => .needs (obj.contains v) fun (found, _) =>
    if found then .ok
    else .under pathBuf (.key v)
      (err .missingRequired (asciiBytes "present") (asciiBytes "missing") Keyword.required.text)
  | _ => .ok

/-- `check_required`. -/
def checkRequired (schemaValue : ConstJson) (value : Node) : SchemaCheck :=
  match schemaValue with
  | .array elems =>
    .andThen (.forEach requiredElementShape elems)
      (match value.asObject with
      | none => .ok
      | some obj => .forEach (requiredOne obj) elems)
  | _ => invalidSchema Keyword.required.text (asciiBytes "array of strings")

/-! ### `properties`, `items` -/

/-- The `operator[]` of a const object, of a key that it contains. -/
def subscript (obj : Object Node) (key : Bytes) : Option Node := do
  let (found, obj) ← obj.at key
  match found with
  | .ok pos => (obj.data[pos]?).map (·.2)
  | .error _ => none

/-- `property_one`, where `validate` is `validate_node`. -/
def propertyOne (validate : ConstJson → Node → SchemaCheck) (obj : Object Node)
    (entry : Bytes × ConstJson) : SchemaCheck :=
  .needs (obj.contains entry.1) fun (found, obj) =>
    if found then
      .needs (subscript obj entry.1) fun child => .under pathBuf (.key entry.1) (validate entry.2 child)
    else .ok

/-- `check_properties`. -/
def checkProperties (validate : ConstJson → Node → SchemaCheck) (schemaValue : ConstJson) (value : Node) :
    SchemaCheck :=
  match schemaValue with
  | .object entries =>
    match value.asObject with
    | none => .ok
    | some obj => .forEach (propertyOne validate obj) entries
  | _ => invalidSchema Keyword.properties.text (asciiBytes "object schema")

/-- A round of the loop of `check_items`. -/
def itemOne (validate : ConstJson → Node → SchemaCheck) (itemSchema : ConstJson) (entry : Node × Nat) :
    SchemaCheck := .under pathBuf (.index entry.2) (validate itemSchema entry.1)

/-- `check_items`. -/
def checkItems (validate : ConstJson → Node → SchemaCheck) (itemSchema : ConstJson) (value : Node) :
    SchemaCheck :=
  match itemSchema with
  | .object _ =>
    match value.asArray with
    | none => .ok
    | some arr => .forEach (itemOne validate itemSchema) arr.zipIdx
  | _ => invalidSchema Keyword.items.text (asciiBytes "object schema")

/-! ### `enum`, `const` -/

section Texts

variable (platform : Platform)

/-- The text of a double in a buffer of 32 bytes, which holds every text that `to_chars` writes. -/
def doubleRepr (d : Double) : Bytes := (platform.toChars d).getD []

/-- `value_repr`. -/
def valueRepr (value : Node) : Bytes :=
  match value with
  | .null => asciiBytes "null"
  | .boolean b => asciiBytes (if b then "true" else "false")
  | .integer i => asciiBytes (toString i.toInt)
  | .floating d => doubleRepr platform d
  | .stringView s => [ascii '"'] ++ s ++ [ascii '"']
  | .stringOwned s => [ascii '"'] ++ s ++ [ascii '"']
  | value => value.typeName

/-- The loop of `check_enum`. -/
def equalsOneOf (value : Node) : List Node → Option Bool
  | [] => some false
  | allowed :: values => do
    if ← value.equal allowed then some true else equalsOneOf value values

/-- `check_enum`. -/
def checkEnum (schemaValue : ConstJson) (value : Node) : SchemaCheck :=
  match schemaValue with
  | .array elems =>
    .needs (ConstJson.pushElems 0 elems) fun values => .needs (equalsOneOf value values) fun found =>
      if found then .ok
      else err .enumMismatch (asciiBytes "one of enum") (valueRepr platform value) Keyword.enum.text
  | _ => invalidSchema Keyword.enum.text (asciiBytes "array of values")

/-- `check_const`. -/
def checkConst (schemaValue : ConstJson) (value : Node) : SchemaCheck :=
  .needs (schemaValue.toRuntime 0) fun expected => .needs (value.equal expected) fun same =>
    if same then .ok
    else err .constMismatch (asciiBytes "const value") (valueRepr platform value) Keyword.const.text

/-! ### Bounds of lengths and sizes -/

/-- `utf8_code_point_length`. -/
def utf8CodePointLength (s : Bytes) : Nat := s.countP fun c => c &&& 0xC0 ≠ 0x80

/-- `non_negative_int_bound`. -/
def nonNegativeIntBound : ConstJson → Option Int64
  | .int v => if 0 ≤ v then some v else none
  | _ => none

/-- What the four bounds share: the keyword, the error, its text, the size that is bounded and the
comparison with the bound. -/
def checkSize (keyword : Keyword) (code : SchemaErrorKind) (text : String) (size : Node → Option Nat)
    (fits : Nat → Nat → Bool) (schemaValue : ConstJson) (value : Node) : SchemaCheck :=
  match nonNegativeIntBound schemaValue with
  | none => invalidSchema keyword.text (asciiBytes "non-negative integer")
  | some bound =>
    match size value with
    | none => .ok
    | some len =>
      if fits len bound.toUInt64.toNat then .ok
      else err code (asciiBytes text ++ asciiBytes (toString bound.toInt)) (decimal len) keyword.text

def lengthOf (value : Node) : Option Nat := value.asString.map utf8CodePointLength

def sizeOf (value : Node) : Option Nat := value.asArray.map List.length

/-- `check_min_length`. -/
def checkMinLength : ConstJson → Node → SchemaCheck :=
  checkSize .minLength .tooShort "length>=" lengthOf fun len bound => bound ≤ len

/-- `check_max_length`. -/
def checkMaxLength : ConstJson → Node → SchemaCheck :=
  checkSize .maxLength .tooLong "length<=" lengthOf fun len bound => len ≤ bound

/-- `check_min_items`. -/
def checkMinItems : ConstJson → Node → SchemaCheck :=
  checkSize .minItems .tooShort "items>=" sizeOf fun size bound => bound ≤ size

/-- `check_max_items`. -/
def checkMaxItems : ConstJson → Node → SchemaCheck :=
  checkSize .maxItems .tooLong "items<=" sizeOf fun size bound => size ≤ bound

/-! ### Numeric bounds -/

/-- `NumericBound`. -/
structure NumericBound where
  isInteger : Bool := true
  i : Int64 := 0
  d : Double := Double.ofInt64 0

/-- `numeric_bound_of`. -/
def numericBoundOf : ConstJson → Option NumericBound
  | .int v => some { isInteger := true, i := v, d := Double.ofInt64 v }
  | .double v => some { isInteger := false, i := 0, d := v }
  | _ => none

/-- `numeric_bound_text`. -/
def numericBoundText (bound : NumericBound) : Bytes :=
  if bound.isInteger then asciiBytes (toString bound.i.toInt) else doubleRepr platform bound.d

/-- `above_or_equal`. -/
def aboveOrEqual (value : Int64 ⊕ Double) (bound : NumericBound) : Bool :=
  match value with
  | .inl x => if bound.isInteger then bound.i ≤ x else bound.d.le (Double.ofInt64 x)
  | .inr x => if bound.isInteger then (Double.ofInt64 bound.i).le x else bound.d.le x

/-- `below_or_equal`. -/
def belowOrEqual (value : Int64 ⊕ Double) (bound : NumericBound) : Bool :=
  match value with
  | .inl x => if bound.isInteger then x ≤ bound.i else (Double.ofInt64 x).le bound.d
  | .inr x => if bound.isInteger then x.le (Double.ofInt64 bound.i) else x.le bound.d

/-- What the two bounds share: the keyword, the error, its text and the comparison with the bound. -/
def checkNumeric (keyword : Keyword) (code : SchemaErrorKind) (text : String)
    (fits : Int64 ⊕ Double → NumericBound → Bool) (schemaValue : ConstJson) (value : Node) :
    SchemaCheck :=
  match numericBoundOf schemaValue with
  | none => invalidSchema keyword.text (asciiBytes "number")
  | some bound =>
    match value.asNumber with
    | none => .ok
    | some x =>
      if fits x bound then .ok
      else err code (asciiBytes text ++ numericBoundText platform bound) (valueRepr platform value)
        keyword.text

/-- `check_minimum`. -/
def checkMinimum : ConstJson → Node → SchemaCheck :=
  checkNumeric platform .minimum .belowMinimum ">=" aboveOrEqual

/-- `check_maximum`. -/
def checkMaximum : ConstJson → Node → SchemaCheck :=
  checkNumeric platform .maximum .aboveMaximum "<=" belowOrEqual

/-! ### `additionalProperties` -/

/-- `properties_has_key`. -/
def propertiesHasKey (props : ConstJson) (key : Bytes) : Bool :=
  match props with
  | .object entries => entries.any (·.1 = key)
  | _ => false

/-- `is_declared_property`, where `parent` are the entries of the schema node. -/
def isDeclaredProperty (parent : List (Bytes × ConstJson)) (key : Bytes) : Bool :=
  parent.any fun entry => entry.1 = Keyword.properties.text && propertiesHasKey entry.2 key

/-- `check_additional_properties`. -/
def checkAdditionalProperties (parent : List (Bytes × ConstJson)) (apValue : ConstJson) (value : Node) :
    SchemaCheck :=
  match apValue with
  | .bool allowed =>
    if allowed then .ok
    else
      match value.asObject with
      | none => .ok
      | some obj => .forEach (fun entry =>
        if isDeclaredProperty parent entry.1 then .ok
        else .under pathBuf (.key entry.1) (err .unexpectedProperty (asciiBytes "declared property")
          (asciiBytes "unexpected") Keyword.additionalProperties.text)) obj.data
  | _ => invalidSchema Keyword.additionalProperties.text (asciiBytes "boolean")

/-! ### Nodes -/

/-- `apply_keyword`. -/
def applyKeyword (validate : ConstJson → Node → SchemaCheck) (keyword : Bytes) (schemaValue : ConstJson)
    (value : Node) : SchemaCheck :=
  match Keyword.ofText? keyword with
  | some .required => checkRequired schemaValue value
  | some .properties => checkProperties validate schemaValue value
  | some .items => checkItems validate schemaValue value
  | some .enum => checkEnum platform schemaValue value
  | some .const => checkConst platform schemaValue value
  | some .minLength => checkMinLength schemaValue value
  | some .maxLength => checkMaxLength schemaValue value
  | some .minItems => checkMinItems schemaValue value
  | some .maxItems => checkMaxItems schemaValue value
  | some .minimum => checkMinimum platform schemaValue value
  | some .maximum => checkMaximum platform schemaValue value
  | _ => .ok

/-- An entry in the first pass of `validate_node`. -/
def typeEntry (value : Node) (entry : Bytes × ConstJson) : SchemaCheck :=
  if entry.1 ≠ Keyword.type.text then .ok
  else
    match entry.2 with
    | .str v => checkType v value
    | _ => invalidSchema Keyword.type.text (asciiBytes "string")

/-- An entry in the second pass of `validate_node`. -/
def otherEntry (validate : ConstJson → Node → SchemaCheck) (parent : List (Bytes × ConstJson))
    (value : Node) (entry : Bytes × ConstJson) : SchemaCheck :=
  if entry.1 = Keyword.type.text then .ok
  else if entry.1 = Keyword.additionalProperties.text then checkAdditionalProperties parent entry.2 value
  else applyKeyword platform validate entry.1 entry.2 value

/-- `validate_node`, within a number of nested calls. -/
def validateWithin : Nat → ConstJson → Node → SchemaCheck
  | 0, _, _ => fun _ => none
  | fuel + 1, schema, value =>
    match schema with
    | .object entries =>
      .andThen (.forEach (typeEntry value) entries)
        (.forEach (otherEntry platform (validateWithin fuel) entries value) entries)
    | _ => invalidSchema (asciiBytes "schema") (asciiBytes "object schema")

/-- `validate_node`, which nests its calls no deeper than the schema is. -/
def validateNode (schema : ConstJson) (value : Node) : SchemaCheck :=
  validateWithin platform (schema.nesting + 1) schema value

/-- `validate_result`. -/
def validateResult (schema : ConstJson) (value : Node) : Option (Except SchemaError Unit) :=
  (validateNode platform schema value []).map (·.1)

end Texts

end Schema

end PjhJson
