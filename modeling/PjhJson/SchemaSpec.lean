import PjhJson.Schema

/-! What a schema says, without an order of its keywords and without the steps of a validation: which
arguments are the documented ones, which values satisfy a schema, and how the nesting of the schema is
followed into a value. -/

namespace PjhJson

open Grammar Trail

namespace Schema

/-- The entries of a schema node. -/
abbrev Entries := List (Bytes × ConstJson)

/-! ### Arguments -/

def typeNames : List Bytes :=
  [asciiBytes "null", asciiBytes "boolean", asciiBytes "integer", asciiBytes "number", asciiBytes "string",
    asciiBytes "array", asciiBytes "object"]

/-- The argument is of the kind that is documented for the keyword. The objects among the constants are of a
size that `to_runtime` can build. -/
def Argument (e : ConstJson) : Keyword → Prop
  | .type => ∃ name ∈ typeNames, e = .str name
  | .required => ∃ elems, e = .array elems ∧ ∀ elem ∈ elems, ∃ key, elem = .str key
  | .properties => ∃ props, e = .object props
  | .items => ∃ entries, e = .object entries
  | .enum => ∃ elems, e = .array elems ∧ e.Indexable
  | .const => e.Indexable
  | .minLength => ∃ n, e = .int n ∧ 0 ≤ n
  | .maxLength => ∃ n, e = .int n ∧ 0 ≤ n
  | .minItems => ∃ n, e = .int n ∧ 0 ≤ n
  | .maxItems => ∃ n, e = .int n ∧ 0 ≤ n
  | .minimum => (∃ n, e = .int n) ∨ ∃ d, e = .double d
  | .maximum => (∃ n, e = .int n) ∨ ∃ d, e = .double d
  | .additionalProperties => ∃ b, e = .bool b

/-- The schemas that the argument of a keyword holds. -/
inductive SubSchema : Keyword → ConstJson → ConstJson → Prop where
  | property {props : Entries} {key : Bytes} {s : ConstJson} (h : (key, s) ∈ props) :
      SubSchema .properties (.object props) s
  | item (s : ConstJson) : SubSchema .items s s

/-- A schema object, all of whose arguments are of the documented kinds, recursively. -/
inductive WellFormed : ConstJson → Prop where
  | object {entries : Entries}
      (arguments : ∀ keyword e, (keyword.text, e) ∈ entries → Argument e keyword)
      (schemas : ∀ keyword e s, (keyword.text, e) ∈ entries → SubSchema keyword e s → WellFormed s) :
      WellFormed (.object entries)

/-! ### Values -/

/-- A value of a declared type: an integer is a number as well. -/
def HasType (name : Bytes) (value : Node) : Prop :=
  value.typeName = name ∨ name = asciiBytes "number" ∧ ∃ i, value = .integer i

/-- A value that `operator==` finds equal to a constant. -/
def EqualTo (e : ConstJson) (value : Node) : Prop :=
  ∃ expected, e.toRuntime 0 = some expected ∧ value.equal expected = some true

/-- The key is listed under `required`. -/
def Required (entries : Entries) (key : Bytes) : Prop :=
  ∃ elems, (Keyword.required.text, .array elems) ∈ entries ∧ .str key ∈ elems

/-- The key is declared under `properties`. -/
def Declared (entries : Entries) (key : Bytes) : Prop :=
  ∃ props s, (Keyword.properties.text, .object props) ∈ entries ∧ (key, s) ∈ props

/-- What a keyword of the node `entries` asks of a value, apart from what it asks of its parts. -/
def Meets (entries : Entries) (e : ConstJson) (value : Node) : Keyword → Prop
  | .type => ∀ name, e = .str name → HasType name value
  | .required => ∀ elems obj, e = .array elems → value = .object obj →
      ∀ key, .str key ∈ elems → key ∈ obj.keys
  | .properties => True
  | .items => True
  | .enum => ∀ elems, e = .array elems → ∃ allowed ∈ elems, EqualTo allowed value
  | .const => EqualTo e value
  | .minLength => ∀ n len, e = .int n → lengthOf value = some len → n.toInt ≤ len
  | .maxLength => ∀ n len, e = .int n → lengthOf value = some len → len ≤ n.toInt
  | .minItems => ∀ n size, e = .int n → sizeOf value = some size → n.toInt ≤ size
  | .maxItems => ∀ n size, e = .int n → sizeOf value = some size → size ≤ n.toInt
  | .minimum => ∀ bound x, numericBoundOf e = some bound → value.asNumber = some x →
      aboveOrEqual x bound = true
  | .maximum => ∀ bound x, numericBoundOf e = some bound → value.asNumber = some x →
      belowOrEqual x bound = true
  | .additionalProperties => e = .bool false → ∀ obj, value = .object obj →
      ∀ key ∈ obj.keys, Declared entries key

/-- The parts of a value that a keyword has a schema for: the members that are declared and present, and
all elements. -/
inductive Part : Keyword → ConstJson → Node → PathStep → ConstJson → Node → Prop where
  | property {props : Entries} {obj : Object Node} {key : Bytes} {s : ConstJson} {child : Node}
      (hdeclared : (key, s) ∈ props) (hpresent : (key, child) ∈ obj.data) :
      Part .properties (.object props) (.object obj) (.key key) s child
  | item {elements : List Node} {i : Nat} {s : ConstJson} {child : Node} (hget : elements[i]? = some child) :
      Part .items s (.array elements) (.index i) s child

/-- The value meets every keyword of the schema, and each of its parts the schema for it. -/
inductive Satisfies : ConstJson → Node → Prop where
  | object {entries : Entries} {value : Node}
      (meets : ∀ keyword e, (keyword.text, e) ∈ entries → Meets entries e value keyword)
      (parts : ∀ keyword e step s child, (keyword.text, e) ∈ entries →
        Part keyword e value step s child → Satisfies s child) :
      Satisfies (.object entries) value

/-- Hops that exist in the value and in the schema lead to a part of the one and the schema for it. -/
inductive Reaches : ConstJson → Node → Path → ConstJson → Node → Prop where
  | here (schema : ConstJson) (value : Node) : Reaches schema value [] schema value
  | hop {entries : Entries} {value child target : Node} {keyword : Keyword} {e s schema : ConstJson}
      {step : PathStep} {hops : Path} (hentry : (keyword.text, e) ∈ entries)
      (hpart : Part keyword e value step s child) (hrest : Reaches s child hops schema target) :
      Reaches (.object entries) value (step :: hops) schema target

/-- The key at which a node fails: the one that is missing, or the one that is not declared; the other
failures are those of the node itself. -/
def Locates (entries : Entries) (value : Node) (code : SchemaErrorKind) (tail : Path) : Prop :=
  match code with
  | .missingRequired => ∃ key obj, value = .object obj ∧ Required entries key ∧ key ∉ obj.keys ∧
      tail = [.key key]
  | .unexpectedProperty => ∃ key obj, value = .object obj ∧ key ∈ obj.keys ∧ ¬Declared entries key ∧
      tail = [.key key]
  | _ => tail = []

/-- A schema with its keywords, or the properties under `properties`, in another order, at any depth. -/
inductive Reordered : ConstJson → ConstJson → Prop where
  | refl (schema : ConstJson) : Reordered schema schema
  | trans {a b c : ConstJson} (h : Reordered a b) (h' : Reordered b c) : Reordered a c
  | keywords {entries entries' : Entries} (h : entries.Perm entries') :
      Reordered (.object entries) (.object entries')
  | declared {before after props props' : Entries} (h : props.Perm props') :
      Reordered (.object (before ++ (Keyword.properties.text, .object props) :: after))
        (.object (before ++ (Keyword.properties.text, .object props') :: after))
  | property {before after front back : Entries} {key : Bytes} {s s' : ConstJson} (h : Reordered s s') :
      Reordered (.object (before ++ (Keyword.properties.text, .object (front ++ (key, s) :: back)) :: after))
        (.object (before ++ (Keyword.properties.text, .object (front ++ (key, s') :: back)) :: after))
  | item {before after : Entries} {s s' : ConstJson} (h : Reordered s s') :
      Reordered (.object (before ++ (Keyword.items.text, s) :: after))
        (.object (before ++ (Keyword.items.text, s') :: after))

end Schema

end PjhJson
