import PjhJson.Error

/-! The value model: IEEE doubles as their bit patterns, and the tree `Json` over a type of strings.
The parser builds trees of views into its buffer, every other part works with the bytes. -/

namespace PjhJson

/-- A `double`, by its bits: sign, eleven exponent bits, fifty-two fraction bits. -/
structure Double where
  bits : BitVec 64
  deriving DecidableEq, Repr

namespace Double

def exponentField (d : Double) : Nat := (d.bits.toNat >>> 52) % 2048

def fractionField (d : Double) : Nat := d.bits.toNat % 2 ^ 52

/-- `std::isfinite`. -/
def isFinite (d : Double) : Bool := d.exponentField != 2047

def isNaN (d : Double) : Bool := d.exponentField == 2047 && d.fractionField != 0

/-- The sign bit aside, all bits are zero. -/
def isZero (d : Double) : Bool := d.exponentField == 0 && d.fractionField == 0

/-- Unary minus flips the sign bit. -/
def neg (d : Double) : Double := ⟨d.bits ^^^ (1#64 <<< 63)⟩

def infinity : Double := ⟨0x7FF0000000000000#64⟩

def quietNaN : Double := ⟨0x7FF8000000000000#64⟩

/-- `==` on doubles: a NaN equals nothing and the two zeros are equal. -/
def eq (a b : Double) : Bool := !a.isNaN && !b.isNaN && (a.bits == b.bits || a.isZero && b.isZero)

theorem isNaN_of_isFinite {d : Double} (h : d.isFinite = true) : d.isNaN = false := by
  simp only [isFinite, bne_iff_ne, ne_eq] at h
  simp [isNaN, h]

@[simp] theorem eq_self {d : Double} (h : d.isFinite = true) : d.eq d = true := by
  simp [eq, isNaN_of_isFinite h]

end Double

/-- A JSON value with strings of type `σ`. An object is its entry vector, in insertion order. -/
inductive Json (σ : Type) where
  | null
  | boolean (value : Bool)
  | integer (value : Int64)
  | double (value : Double)
  | string (value : σ)
  | array (elements : List (Json σ))
  | object (entries : List (σ × Json σ))
  deriving Repr

namespace Json

variable {σ τ : Type}

mutual

/-- Apply a function to every string and key. -/
def map (f : σ → τ) : Json σ → Json τ
  | null => null
  | boolean value => boolean value
  | integer value => integer value
  | double value => double value
  | string value => string (f value)
  | array elements => array (mapElements f elements)
  | object entries => object (mapEntries f entries)

def mapElements (f : σ → τ) : List (Json σ) → List (Json τ)
  | [] => []
  | value :: rest => value.map f :: mapElements f rest

def mapEntries (f : σ → τ) : List (σ × Json σ) → List (τ × Json τ)
  | [] => []
  | (key, value) :: rest => (f key, value.map f) :: mapEntries f rest

end

mutual

/-- The number of containers open around the deepest container, that one included. -/
def nesting : Json σ → Nat
  | array elements => nestingElements elements + 1
  | object entries => nestingEntries entries + 1
  | _ => 0

def nestingElements : List (Json σ) → Nat
  | [] => 0
  | value :: rest => max value.nesting (nestingElements rest)

def nestingEntries : List (σ × Json σ) → Nat
  | [] => 0
  | (_, value) :: rest => max value.nesting (nestingEntries rest)

end

mutual

/-- Every string and key of the tree satisfies `P`. -/
def All (P : σ → Prop) : Json σ → Prop
  | string value => P value
  | array elements => AllElements P elements
  | object entries => AllEntries P entries
  | _ => True

def AllElements (P : σ → Prop) : List (Json σ) → Prop
  | [] => True
  | value :: rest => value.All P ∧ AllElements P rest

def AllEntries (P : σ → Prop) : List (σ × Json σ) → Prop
  | [] => True
  | (key, value) :: rest => (P key ∧ value.All P) ∧ AllEntries P rest

end

/-- An induction principle that follows the tree: the lists of children are visited by membership. -/
theorem induct {motive : Json σ → Prop}
    (null : motive null)
    (boolean : ∀ value, motive (boolean value))
    (integer : ∀ value, motive (integer value))
    (double : ∀ value, motive (double value))
    (string : ∀ value, motive (string value))
    (array : ∀ elements, (∀ value ∈ elements, motive value) → motive (array elements))
    (object : ∀ entries, (∀ entry ∈ entries, motive entry.2) → motive (object entries)) :
    ∀ value, motive value := by
  refine @Json.rec σ motive (fun elements => ∀ value ∈ elements, motive value)
    (fun entries => ∀ entry ∈ entries, motive entry.2) (fun entry => motive entry.2)
    null boolean integer double string array object ?_ ?_ ?_ ?_ (fun _ _ h => h)
  · intro value hmem
    cases hmem
  · intro value rest hvalue hrest other hmem
    rcases List.mem_cons.mp hmem with rfl | hmem
    · exact hvalue
    · exact hrest other hmem
  · intro entry hmem
    cases hmem
  · intro entry rest hentry hrest other hmem
    rcases List.mem_cons.mp hmem with rfl | hmem
    · exact hentry
    · exact hrest other hmem

theorem mapElements_eq (f : σ → τ) (elements : List (Json σ)) :
    mapElements f elements = elements.map (·.map f) := by
  induction elements with
  | nil => rfl
  | cons value rest ih => simp [mapElements, ih]

theorem mapEntries_eq (f : σ → τ) (entries : List (σ × Json σ)) :
    mapEntries f entries = entries.map fun entry => (f entry.1, entry.2.map f) := by
  induction entries with
  | nil => rfl
  | cons entry rest ih => simp [mapEntries, ih]

@[simp] theorem map_array (f : σ → τ) (elements : List (Json σ)) :
    (array elements).map f = array (elements.map (·.map f)) := by
  rw [map, mapElements_eq]

@[simp] theorem map_object (f : σ → τ) (entries : List (σ × Json σ)) :
    (object entries).map f = object (entries.map fun entry => (f entry.1, entry.2.map f)) := by
  rw [map, mapEntries_eq]

@[simp] theorem all_array (P : σ → Prop) (elements : List (Json σ)) :
    (array elements).All P ↔ ∀ value ∈ elements, value.All P := by
  rw [All]
  induction elements with
  | nil => simp [AllElements]
  | cons value rest ih => rw [AllElements, ih, List.forall_mem_cons]

@[simp] theorem all_object (P : σ → Prop) (entries : List (σ × Json σ)) :
    (object entries).All P ↔ ∀ entry ∈ entries, P entry.1 ∧ entry.2.All P := by
  rw [All]
  induction entries with
  | nil => simp [AllEntries]
  | cons entry rest ih => rw [AllEntries, ih, List.forall_mem_cons]

theorem All.mono {P Q : σ → Prop} (hPQ : ∀ s, P s → Q s) {value : Json σ} (h : value.All P) :
    value.All Q := by
  induction value using Json.induct with
  | null => trivial
  | boolean value => trivial
  | integer value => trivial
  | double value => trivial
  | string value => exact hPQ value h
  | array elements ih =>
      rw [all_array] at h ⊢
      exact fun value hmem => ih value hmem (h value hmem)
  | object entries ih =>
      rw [all_object] at h ⊢
      exact fun entry hmem => ⟨hPQ _ (h entry hmem).1, ih entry hmem (h entry hmem).2⟩

/-- Two functions that agree on the strings of a tree map it to the same tree. -/
theorem map_congr {f g : σ → τ} {value : Json σ} (h : value.All fun s => f s = g s) :
    value.map f = value.map g := by
  induction value using Json.induct with
  | null => rfl
  | boolean value => rfl
  | integer value => rfl
  | double value => rfl
  | string value => exact congrArg string h
  | array elements ih =>
      rw [all_array] at h
      rw [map_array, map_array]
      exact congrArg array (List.map_congr_left fun value hmem => ih value hmem (h value hmem))
  | object entries ih =>
      rw [all_object] at h
      rw [map_object, map_object]
      refine congrArg object (List.map_congr_left fun entry hmem => ?_)
      rw [(h entry hmem).1, ih entry hmem (h entry hmem).2]

end Json

/-- The two kinds of numbers a token becomes. -/
inductive Number where
  | integer (value : Int64)
  | double (value : Double)
  deriving DecidableEq, Repr

def Number.toJson {σ : Type} : Number → Json σ
  | integer value => .integer value
  | double value => .double value

end PjhJson
