import PjhJson.SchemaSpec

/-! A validation succeeds on the values that satisfy the schema. The faults that the checks below a node
report are faults of that node with one hop more, so a failure is found where its path leads. -/

namespace PjhJson

open Grammar Trail

namespace Schema

variable {platform : Platform} {schema schemaValue : ConstJson} {entries : Entries} {value : Node}
  {validate validate' : ConstJson → Node → SchemaCheck}

/-! ### Enough calls -/

theorem checkProperties_congr
    (h : ∀ s, SubSchema .properties schemaValue s → validate s = validate' s) :
    checkProperties validate schemaValue value = checkProperties validate' schemaValue value := by
  cases schemaValue with
  | object props =>
      rw [checkProperties, checkProperties]
      cases value.asObject with
      | none => rfl
      | some obj =>
          apply forEach_congr
          intro entry hmem
          rw [propertyOne, propertyOne, h entry.2 (.property hmem)]
  | _ => rfl

theorem checkItems_congr (h : validate schemaValue = validate' schemaValue) :
    checkItems validate schemaValue value = checkItems validate' schemaValue value := by
  cases schemaValue with
  | object props =>
      have hone : itemOne validate (.object props) = itemOne validate' (.object props) := by
        funext entry
        rw [itemOne, itemOne, h]
      rw [checkItems, checkItems, hone]
  | _ => rfl

/-- The recursive calls are to the schemas in the arguments. -/
theorem otherEntry_congr {entry : Bytes × ConstJson}
    (h : ∀ keyword s, keyword.text = entry.1 → SubSchema keyword entry.2 s → validate s = validate' s) :
    otherEntry platform validate entries value entry = otherEntry platform validate' entries value entry := by
  rw [otherEntry, otherEntry, applyKeyword, applyKeyword]
  cases hkey : Keyword.ofText? entry.1 with
  | none => rfl
  | some keyword =>
      have htext := Keyword.text_of_ofText? hkey
      cases keyword with
      | properties => rw [checkProperties_congr fun s hs => h .properties s htext hs]
      | items => rw [checkItems_congr (h .items entry.2 htext (.item entry.2))]
      | _ => rfl

theorem SubSchema.nesting_le {keyword : Keyword} {e s : ConstJson} (h : SubSchema keyword e s) :
    s.nesting ≤ e.nesting := by
  cases h with
  | @property props key s hmem =>
      have hle : s.nesting ≤ ConstJson.nestingEntries props :=
        ConstJson.nestingEntries_le.mp (Nat.le_refl _) (key, s) hmem
      rw [ConstJson.nesting]
      omega
  | item => exact Nat.le_refl _

theorem validateWithin_congr {fuel fuel' : Nat} (h : schema.nesting < fuel) (h' : schema.nesting < fuel') :
    validateWithin platform fuel schema = validateWithin platform fuel' schema := by
  induction fuel generalizing fuel' schema with
  | zero => exact absurd h (Nat.not_lt_zero _)
  | succ fuel ih =>
      obtain _ | fuel' := fuel'
      · exact absurd h' (Nat.not_lt_zero _)
      · funext value
        cases schema with
        | object entries =>
            rw [ConstJson.nesting] at h h'
            rw [validateWithin, validateWithin]
            congr 1
            apply forEach_congr
            intro entry hmem
            apply otherEntry_congr
            intro keyword s _ hsub
            have hle : entry.2.nesting ≤ ConstJson.nestingEntries entries :=
              ConstJson.nestingEntries_le.mp (Nat.le_refl _) entry hmem
            have hsubs := hsub.nesting_le
            exact ih (by omega) (by omega)
        | _ => rfl

theorem validateWithin_eq {fuel : Nat} (h : schema.nesting < fuel) :
    validateWithin platform fuel schema = validateNode platform schema := by
  rw [validateWithin_congr h (Nat.lt_succ_self _)]
  rfl

/-- `validate_node` of a schema object, in terms of itself. -/
theorem validateNode_object : validateNode platform (.object entries) value =
    .andThen (.forEach (typeEntry value) entries)
      (.forEach (otherEntry platform (validateNode platform) entries value) entries) := by
  rw [validateNode, validateWithin]
  have hothers : Check.forEach (otherEntry platform
      (validateWithin platform (ConstJson.object entries).nesting) entries value) entries =
      .forEach (otherEntry platform (validateNode platform) entries value) entries := by
    apply forEach_congr
    intro entry hmem
    apply otherEntry_congr
    intro keyword s _ hsub
    apply validateWithin_eq
    have hle : entry.2.nesting ≤ ConstJson.nestingEntries entries :=
      ConstJson.nestingEntries_le.mp (Nat.le_refl _) entry hmem
    have hsubs := hsub.nesting_le
    rw [ConstJson.nesting]
    omega
  rw [hothers]

/-! ### Faults of a node -/

/-- What a fault of a node says: there are hops to a part of the value that is there, and the part fails on
its own against its schema, with the same details. -/
def Blames (platform : Platform) (schema : ConstJson) (value : Node) (fault : Fault PathStep SchemaDetail) :
    Prop :=
  ∃ hops entries v tail, Reaches schema value hops (.object entries) v ∧ fault.hops = hops ++ tail ∧
    Runs pathBuf report (validateNode platform (.object entries) v) (.error ⟨tail, fault.detail⟩) ∧
    Locates entries v fault.detail.code tail

/-- What a fault says that one keyword of a node reports. -/
def BlamesHere (platform : Platform) (entries : Entries) (value : Node)
    (fault : Fault PathStep SchemaDetail) : Prop :=
  Locates entries value fault.detail.code fault.hops ∨
    ∃ keyword e step s child below, (keyword.text, e) ∈ entries ∧ Part keyword e value step s child ∧
      fault = below.above step ∧ Blames platform s child below

/-- A validation decides whether `holds`, and reports faults of the node. -/
abbrev Finds (platform : Platform) (entries : Entries) (value : Node) (check : SchemaCheck) (holds : Prop) :
    Prop := Decides pathBuf report check holds (BlamesHere platform entries value)

theorem finds_err {code : SchemaErrorKind} {expected actual keyword : Bytes} {holds : Prop} (h : ¬holds)
    (hlocates : Locates entries value code []) :
    Finds platform entries value (err code expected actual keyword) holds :=
  decides_fail h (.inl hlocates)

theorem finds_ite {c : Prop} [Decidable c] {check : SchemaCheck} {holds : Prop} (hok : c → holds)
    (h : ¬c → Finds platform entries value check holds) :
    Finds platform entries value (if c then .ok else check) holds := by
  split
  · next hc => exact decides_ok (hok hc)
  · next hc => exact h hc

/-- A check that fails at the node itself unless `holds`. -/
theorem finds_check {c : Prop} [Decidable c] {code : SchemaErrorKind} {expected actual keyword : Bytes}
    {holds : Prop} (hiff : c ↔ holds) (hlocates : Locates entries value code []) :
    Finds platform entries value (if c then .ok else err code expected actual keyword) holds :=
  finds_ite hiff.mp fun hc => finds_err (fun h => hc (hiff.mpr h)) hlocates

/-! ### `type` -/

theorem matchesType_eq {name : Bytes} (hname : name ∈ typeNames) : matchesType name value =
    some (decide (value.typeName = name) ||
      decide (name = asciiBytes "number") && value matches .integer _) := by
  rw [typeNames] at hname
  simp only [List.mem_cons, List.not_mem_nil, or_false] at hname
  obtain rfl | rfl | rfl | rfl | rfl | rfl | rfl := hname <;> cases value <;> rfl

theorem matchesType_iff {name : Bytes} (hname : name ∈ typeNames) :
    matchesType name value = some true ↔ HasType name value := by
  rw [matchesType_eq hname, Option.some_inj, Bool.or_eq_true, Bool.and_eq_true, decide_eq_true_iff,
    decide_eq_true_iff, HasType]
  cases value <;> simp

theorem finds_typeEntry {entry : Bytes × ConstJson}
    (harg : entry.1 = Keyword.type.text → Argument entry.2 .type) :
    Finds platform entries value (typeEntry value entry)
      (entry.1 = Keyword.type.text → Meets entries entry.2 value .type) := by
  obtain ⟨key, e⟩ := entry
  rw [typeEntry]
  by_cases hkey : key = Keyword.type.text
  · obtain ⟨name, hname, rfl⟩ := harg hkey
    have hiff : (key = Keyword.type.text → Meets entries (.str name) value .type) ↔
        matchesType name value = some true := by
      rw [matchesType_iff hname]
      constructor
      · exact fun h => h hkey name rfl
      · intro h _ name' heq
        cases heq
        exact h
    rw [if_neg (not_not_intro hkey)]
    dsimp only
    rw [checkType]
    have hknown := @matchesType_eq value name hname
    split
    · next hmatch =>
        rw [hmatch] at hknown
        cases hknown
    · next hmatch => exact decides_ok (hiff.mpr hmatch)
    · next hmatch =>
        refine finds_err (fun h => ?_) rfl
        rw [hiff.mp h] at hmatch
        cases hmatch
  · rw [if_pos hkey]
    exact decides_ok fun h => absurd h hkey

/-! ### Objects -/

theorem asObject_eq_some {obj : Object Node} (h : value.asObject = some obj) : value = .object obj := by
  cases value with
  | object self =>
      cases h
      rfl
  | _ => cases h

theorem asArray_eq_some {arr : List Node} (h : value.asArray = some arr) : value = .array arr := by
  cases value with
  | array elements =>
      cases h
      rfl
  | _ => cases h

theorem subscript_spec {obj : Object Node} (h : (Node.object obj).Sound) {key : Bytes}
    (hmem : key ∈ obj.keys) : ∃ child, subscript obj key = some child ∧ (key, child) ∈ obj.data := by
  obtain ⟨obj', hfind, -, hdata⟩ := Object.findSlot_spec h key true
  obtain ⟨pos, hmatch⟩ := exists_firstMatch hmem
  obtain ⟨child, hget⟩ := Object.firstMatch_get hmatch
  refine ⟨child, ?_, List.mem_of_getElem? hget⟩
  rw [subscript, Object.at, hfind]
  simp only [Option.bind_eq_bind, Option.bind_some, hmatch, hdata, hget, Option.map_some]

/-- Without duplicates a key has one value. -/
theorem eq_of_mem_data {obj : Object Node} (hnodup : obj.keys.Nodup) {key : Bytes} {child child' : Node}
    (h : (key, child) ∈ obj.data) (h' : (key, child') ∈ obj.data) : child = child' := by
  have heq := List.inj_on_of_nodup_map hnodup h h' rfl
  exact congrArg Prod.snd heq

theorem finds_required {e : ConstJson} (hvalue : value.Sound)
    (hentry : (Keyword.required.text, e) ∈ entries) (harg : Argument e .required) :
    Finds platform entries value (checkRequired e value) (Meets entries e value .required) := by
  obtain ⟨elems, rfl, hkeys⟩ := harg
  have hshape : Finds platform entries value (.forEach requiredElementShape elems)
      (∀ elem ∈ elems, True) := decides_forEach fun elem hmem => by
    obtain ⟨key, rfl⟩ := hkeys elem hmem
    exact decides_ok trivial
  rw [checkRequired]
  cases hobj : value.asObject with
  | none =>
      refine (decides_andThen hshape (decides_ok trivial)).congr ⟨fun _ => ?_, fun _ => ?_⟩ fun _ => id
      · intro elems obj _ heq
        rw [heq] at hobj
        cases hobj
      · exact ⟨fun _ _ => trivial, trivial⟩
  | some obj =>
      obtain rfl := asObject_eq_some hobj
      have hpresent : Finds platform entries (.object obj) (.forEach (requiredOne obj) elems)
          (∀ elem ∈ elems, ∀ key, elem = .str key → key ∈ obj.keys) := by
        apply decides_forEach
        intro elem hmem
        obtain ⟨key, rfl⟩ := hkeys elem hmem
        obtain ⟨obj', hcontains, -⟩ := Node.contains_spec hvalue key
        rw [requiredOne]
        apply decides_needs hcontains
        by_cases hin : key ∈ obj.keys
        · rw [decide_eq_true hin]
          apply decides_ok
          intro key' heq
          cases heq
          exact hin
        · rw [decide_eq_false hin]
          apply decides_under
          apply decides_fail
          · exact fun h => hin (h key rfl)
          · exact .inl ⟨key, obj, rfl, ⟨elems, hentry, hmem⟩, hin, rfl⟩
      apply (decides_andThen hshape hpresent).congr _ fun _ => id
      constructor
      · rintro ⟨-, h⟩ elems' obj' heq heq' key hmem
        cases heq
        cases heq'
        exact h _ hmem key rfl
      · intro h
        refine ⟨fun _ _ => trivial, fun elem hmem key heq => h elems obj rfl rfl key (heq ▸ hmem)⟩

theorem any_keys_iff {props : Entries} {key : Bytes} :
    propertiesHasKey (.object props) key = true ↔ ∃ s, (key, s) ∈ props := by
  rw [propertiesHasKey, List.any_eq_true]
  constructor
  · rintro ⟨⟨key', s⟩, hmem, heq⟩
    exact ⟨s, of_decide_eq_true heq ▸ hmem⟩
  · rintro ⟨s, hmem⟩
    exact ⟨(key, s), hmem, decide_eq_true rfl⟩

theorem isDeclaredProperty_iff {key : Bytes} :
    isDeclaredProperty entries key = true ↔ Declared entries key := by
  rw [isDeclaredProperty, List.any_eq_true, Declared]
  constructor
  · rintro ⟨⟨text, e⟩, hmem, h⟩
    rw [Bool.and_eq_true, decide_eq_true_iff] at h
    cases e with
    | object props =>
        obtain ⟨s, hs⟩ := any_keys_iff.mp h.2
        exact ⟨props, s, h.1 ▸ hmem, hs⟩
    | _ => cases h.2
  · rintro ⟨props, s, hmem, hs⟩
    exact ⟨_, hmem, Bool.and_eq_true_iff.mpr ⟨decide_eq_true rfl, any_keys_iff.mpr ⟨s, hs⟩⟩⟩

theorem finds_additionalProperties {e : ConstJson} (harg : Argument e .additionalProperties) :
    Finds platform entries value (checkAdditionalProperties entries e value)
      (Meets entries e value .additionalProperties) := by
  obtain ⟨allowed, rfl⟩ := harg
  rw [checkAdditionalProperties]
  cases allowed with
  | true => exact decides_ok fun h => by cases h
  | false =>
      rw [if_neg Bool.false_ne_true]
      cases hobj : value.asObject with
      | none =>
          apply decides_ok
          intro _ obj heq
          rw [heq] at hobj
          cases hobj
      | some obj =>
          obtain rfl := asObject_eq_some hobj
          have heach : Finds platform entries (.object obj) (.forEach (fun entry =>
              if isDeclaredProperty entries entry.1 then .ok
              else .under pathBuf (.key entry.1) (err .unexpectedProperty (asciiBytes "declared property")
                (asciiBytes "unexpected") Keyword.additionalProperties.text)) obj.data)
              (∀ entry ∈ obj.data, Declared entries entry.1) := by
            apply decides_forEach
            intro entry hmem
            apply finds_ite isDeclaredProperty_iff.mp
            intro hnot
            have hdeclared : ¬Declared entries entry.1 := fun h => hnot (isDeclaredProperty_iff.mpr h)
            apply decides_under
            apply decides_fail hdeclared
            exact .inl ⟨entry.1, obj, rfl, List.mem_map_of_mem hmem, hdeclared, rfl⟩
          apply heach.congr _ fun _ => id
          constructor
          · intro h _ obj' heq key hkey
            cases heq
            obtain ⟨entry, hmem, rfl⟩ := List.mem_map.mp hkey
            exact h entry hmem
          · intro h entry hmem
            exact h rfl obj rfl entry.1 (List.mem_map_of_mem hmem)

/-! ### Parts -/

/-- The children of the value are fit to be validated. -/
def Fit (value : Node) : Prop := value.Sound ∧ value.NoDuplicates

theorem Fit.member {obj : Object Node} (h : Fit (.object obj)) {key : Bytes} {child : Node}
    (hmem : (key, child) ∈ obj.data) : Fit child :=
  ⟨(Node.all_object.mp h.1).2 _ hmem, (Node.all_object.mp h.2).2 _ hmem⟩

theorem Fit.element {arr : List Node} (h : Fit (.array arr)) {child : Node} (hmem : child ∈ arr) :
    Fit child :=
  ⟨(Node.all_array.mp h.1).2 _ hmem, (Node.all_array.mp h.2).2 _ hmem⟩

theorem Part.subSchema {keyword : Keyword} {e s : ConstJson} {step : PathStep} {child : Node}
    (h : Part keyword e value step s child) : SubSchema keyword e s := by
  cases h with
  | property hdeclared => exact .property hdeclared
  | item => exact .item _

theorem Part.fit {keyword : Keyword} {e s : ConstJson} {step : PathStep} {child : Node}
    (h : Part keyword e value step s child) (hvalue : Fit value) : Fit child := by
  cases h with
  | property _ hpresent => exact hvalue.member hpresent
  | item hget => exact hvalue.element (List.mem_of_getElem? hget)

/-- What holds of the validations against the schemas in an argument. -/
def Settled (platform : Platform) (keyword : Keyword) (e : ConstJson) : Prop :=
  ∀ s, SubSchema keyword e s → ∀ child, Fit child →
    Decides pathBuf report (validateNode platform s child) (Satisfies s child) (Blames platform s child)

/-- A fault of a part is a fault of the node. -/
theorem finds_part {keyword : Keyword} {e s : ConstJson} {step : PathStep} {child : Node}
    (hsettled : Settled platform keyword e) (hentry : (keyword.text, e) ∈ entries)
    (hpart : Part keyword e value step s child) (hvalue : Fit value) :
    Finds platform entries value (.under pathBuf step (validateNode platform s child)) (Satisfies s child) :=
  decides_under <| (hsettled s hpart.subSchema child (hpart.fit hvalue)).congr Iff.rfl fun below hbelow =>
    .inr ⟨keyword, e, step, s, child, below, hentry, hpart, rfl, hbelow⟩

theorem finds_properties {e : ConstJson} (hvalue : Fit value) (hsettled : Settled platform .properties e)
    (hentry : (Keyword.properties.text, e) ∈ entries) (harg : Argument e .properties) :
    Finds platform entries value (checkProperties (validateNode platform) e value)
      (∀ step s child, Part .properties e value step s child → Satisfies s child) := by
  obtain ⟨props, rfl⟩ := harg
  rw [checkProperties]
  cases hobj : value.asObject with
  | none =>
      apply decides_ok
      intro step s child hpart
      cases hpart
      cases hobj
  | some obj =>
      obtain rfl := asObject_eq_some hobj
      have heach : Finds platform entries (.object obj)
          (.forEach (propertyOne (validateNode platform) obj) props)
          (∀ entry ∈ props, ∀ child, (entry.1, child) ∈ obj.data → Satisfies entry.2 child) := by
        apply decides_forEach
        rintro ⟨key, s⟩ hmem
        obtain ⟨obj', hcontains, hkeeps, hdata⟩ := Node.contains_spec hvalue.1 key
        rw [propertyOne]
        apply decides_needs hcontains
        by_cases hin : key ∈ obj.keys
        · have hin' : key ∈ obj'.keys := by rwa [Object.keys, hdata]
          obtain ⟨child, hsubscript, hchild⟩ := subscript_spec hkeeps.sound hin'
          rw [hdata] at hchild
          rw [decide_eq_true hin]
          dsimp only
          rw [if_pos rfl]
          apply decides_needs hsubscript
          apply (finds_part hsettled hentry (.property hmem hchild) hvalue).congr _ fun _ => id
          constructor
          · intro hsatisfies child' hchild'
            rwa [eq_of_mem_data (Node.all_object.mp hvalue.2).1 hchild' hchild]
          · exact fun h => h child hchild
        · rw [decide_eq_false hin]
          apply decides_ok
          intro child hchild
          exact absurd (List.mem_map_of_mem hchild) hin
      apply heach.congr _ fun _ => id
      constructor
      · intro h step s child hpart
        cases hpart with
        | property hdeclared hpresent => exact h _ hdeclared child hpresent
      · intro h entry hmem child hchild
        exact h _ _ child (.property hmem hchild)

theorem finds_items {e : ConstJson} (hvalue : Fit value) (hsettled : Settled platform .items e)
    (hentry : (Keyword.items.text, e) ∈ entries) (harg : Argument e .items) :
    Finds platform entries value (checkItems (validateNode platform) e value)
      (∀ step s child, Part .items e value step s child → Satisfies s child) := by
  obtain ⟨props, rfl⟩ := harg
  rw [checkItems]
  cases harr : value.asArray with
  | none =>
      apply decides_ok
      intro step s child hpart
      cases hpart
      cases harr
  | some arr =>
      obtain rfl := asArray_eq_some harr
      have heach : Finds platform entries (.array arr)
          (.forEach (itemOne (validateNode platform) (.object props)) arr.zipIdx)
          (∀ entry ∈ arr.zipIdx, Satisfies (.object props) entry.1) := by
        apply decides_forEach
        rintro ⟨child, i⟩ hmem
        exact finds_part hsettled hentry (.item (List.mem_zipIdx_iff_getElem?.mp hmem)) hvalue
      apply heach.congr _ fun _ => id
      constructor
      · intro h step s child hpart
        cases hpart with
        | @item _ i _ child hget => exact h (child, i) (List.mem_zipIdx_iff_getElem?.mpr hget)
      · rintro h ⟨child, i⟩ hmem
        exact h _ _ child (.item (List.mem_zipIdx_iff_getElem?.mp hmem))

/-! ### Constants -/

theorem exists_equal {e : ConstJson} {expected : Node} (hvalue : value.Sound) (he : e.Indexable)
    (h : e.toRuntime 0 = some expected) :
    ∃ same, value.equal expected = some same ∧ (same = true ↔ EqualTo e value) := by
  obtain ⟨same, a', b', hanswer, -, -, -⟩ := Node.equalAfter_spec hvalue (ConstJson.toRuntime_sound h)
    (.inr (ConstJson.toRuntime_indexable he h))
  have hequal : value.equal expected = some same := by rw [Node.equal, hanswer, Option.map_some]
  refine ⟨same, hequal, ?_⟩
  constructor
  · rintro rfl
    exact ⟨expected, h, hequal⟩
  · rintro ⟨expected', h', hequal'⟩
    cases h.symm.trans h'
    exact Option.some_inj.mp (hequal.symm.trans hequal')

theorem finds_const {e : ConstJson} (hvalue : value.Sound) (harg : Argument e .const) :
    Finds platform entries value (checkConst platform e value) (Meets entries e value .const) := by
  obtain ⟨expected, hexpected⟩ := ConstJson.exists_toRuntime 0 harg
  obtain ⟨same, hequal, hiff⟩ := exists_equal hvalue harg hexpected
  rw [checkConst]
  apply decides_needs hexpected
  apply decides_needs hequal
  exact finds_check hiff rfl

theorem equalsOneOf_spec {elems : List ConstJson} {values : List Node} (hvalue : value.Sound)
    (hindex : ∀ e ∈ elems, e.Indexable)
    (h : List.Forall₂ (fun e v => ConstJson.toRuntime 0 e = some v) elems values) :
    ∃ found, equalsOneOf value values = some found ∧
      (found = true ↔ ∃ allowed ∈ elems, EqualTo allowed value) := by
  induction h with
  | nil => exact ⟨false, rfl, by simp⟩
  | @cons e v elems values hhead htail ih =>
      obtain ⟨he, helems⟩ := List.forall_mem_cons.mp hindex
      obtain ⟨same, hequal, hiff⟩ := exists_equal hvalue he hhead
      rw [equalsOneOf, hequal, Option.bind_eq_bind, Option.bind_some]
      cases same with
      | true => exact ⟨true, rfl, iff_of_true rfl ⟨e, List.mem_cons_self, hiff.mp rfl⟩⟩
      | false =>
          obtain ⟨found, hfound, hiff'⟩ := ih helems
          refine ⟨found, hfound, hiff'.trans ?_⟩
          rw [List.exists_mem_cons_iff, or_iff_right]
          exact fun h => Bool.false_ne_true (hiff.mpr h)

theorem finds_enum {e : ConstJson} (hvalue : value.Sound) (harg : Argument e .enum) :
    Finds platform entries value (checkEnum platform e value) (Meets entries e value .enum) := by
  obtain ⟨elems, rfl, hindex⟩ := harg
  obtain ⟨runtime, hruntime⟩ := ConstJson.exists_toRuntime 0 hindex
  obtain ⟨values, hvalues, -⟩ := Option.map_eq_some_iff.mp hruntime
  rw [ConstJson.Indexable, ConstJson.AllObjects, ConstJson.allObjectsElems_iff] at hindex
  obtain ⟨found, hfound, hiff⟩ := equalsOneOf_spec hvalue hindex (ConstJson.pushElems_eq_some.mp hvalues)
  have hmeets : found = true ↔ Meets entries (.array elems) value .enum := by
    rw [hiff, Meets]
    constructor
    · intro h elems' heq
      cases heq
      exact h
    · exact fun h => h elems rfl
  rw [checkEnum]
  apply decides_needs hvalues
  apply decides_needs hfound
  exact finds_check hmeets rfl

/-! ### Bounds -/

theorem toNat_toUInt64 {n : Int64} (h : 0 ≤ n) : (n.toUInt64.toNat : ℤ) = n.toInt := by
  have hle : 0 ≤ n.toInt := Int64.le_iff_toInt_le.mp h
  rw [Int64.toNat_toUInt64_of_le h, Int64.toNatClampNeg, Int.toNat_of_nonneg hle]

theorem finds_size {keyword : Keyword} {code : SchemaErrorKind} {text : String} {size : Node → Option Nat}
    {fits : Nat → Nat → Bool} {e : ConstJson} {holds : Prop} (harg : ∃ n, e = .int n ∧ 0 ≤ n)
    (hlocates : Locates entries value code [])
    (hholds : holds ↔ ∀ n len, e = .int n → size value = some len → fits len n.toUInt64.toNat = true) :
    Finds platform entries value (checkSize keyword code text size fits e value) holds := by
  obtain ⟨n, rfl, hn⟩ := harg
  rw [checkSize, nonNegativeIntBound, if_pos hn]
  dsimp only
  cases hsize : size value with
  | none =>
      apply decides_ok
      apply hholds.mpr
      intro _ len _ hlen
      rw [hlen] at hsize
      cases hsize
  | some len =>
      apply finds_check _ hlocates
      rw [hholds]
      constructor
      · intro h n' len' heq hlen
        cases heq
        cases hsize.symm.trans hlen
        exact h
      · exact fun h => h n len rfl hsize

theorem finds_numeric {keyword : Keyword} {code : SchemaErrorKind} {text : String}
    {fits : Int64 ⊕ Double → NumericBound → Bool} {e : ConstJson} (harg : (∃ n, e = .int n) ∨ ∃ d, e = .double d)
    (hlocates : Locates entries value code []) :
    Finds platform entries value (checkNumeric platform keyword code text fits e value)
      (∀ bound x, numericBoundOf e = some bound → value.asNumber = some x → fits x bound = true) := by
  obtain ⟨bound, hbound⟩ : ∃ bound, numericBoundOf e = some bound := by
    obtain ⟨n, rfl⟩ | ⟨d, rfl⟩ := harg
    · exact ⟨_, rfl⟩
    · exact ⟨_, rfl⟩
  rw [checkNumeric, hbound]
  dsimp only
  cases hnumber : value.asNumber with
  | none => exact decides_ok fun _ _ _ hsome => by cases hsome
  | some x =>
      apply finds_check _ hlocates
      constructor
      · intro h bound' x' heq hsome
        cases heq
        cases hsome
        exact h
      · exact fun h => h bound x rfl rfl

/-! ### Keywords -/

/-- What a keyword asks of a value and of its parts. -/
def Accepts (entries : Entries) (e : ConstJson) (value : Node) (keyword : Keyword) : Prop :=
  Meets entries e value keyword ∧ ∀ step s child, Part keyword e value step s child → Satisfies s child

theorem accepts_iff_meets {keyword : Keyword} {e : ConstJson} (hproperties : keyword ≠ .properties)
    (hitems : keyword ≠ .items) : Accepts entries e value keyword ↔ Meets entries e value keyword := by
  apply and_iff_left
  intro step s child hpart
  cases hpart with
  | property => exact absurd rfl hproperties
  | item => exact absurd rfl hitems

/-- The lower bounds of `minLength` and `minItems`. -/
theorem least_iff {e : ConstJson} {size : Node → Option Nat} (harg : ∃ n, e = .int n ∧ 0 ≤ n) :
    (∀ n len, e = .int n → size value = some len → n.toInt ≤ len) ↔
      ∀ n len, e = .int n → size value = some len → decide (n.toUInt64.toNat ≤ len) = true := by
  obtain ⟨m, rfl, hm⟩ := harg
  apply forall_congr'
  intro n
  apply forall_congr'
  intro len
  apply imp_congr_right
  intro heq
  cases heq
  rw [decide_eq_true_iff, ← toNat_toUInt64 hm, Int.ofNat_le]

/-- The upper bounds of `maxLength` and `maxItems`. -/
theorem most_iff {e : ConstJson} {size : Node → Option Nat} (harg : ∃ n, e = .int n ∧ 0 ≤ n) :
    (∀ n len, e = .int n → size value = some len → (len : ℤ) ≤ n.toInt) ↔
      ∀ n len, e = .int n → size value = some len → decide (len ≤ n.toUInt64.toNat) = true := by
  obtain ⟨m, rfl, hm⟩ := harg
  apply forall_congr'
  intro n
  apply forall_congr'
  intro len
  apply imp_congr_right
  intro heq
  cases heq
  rw [decide_eq_true_iff, ← toNat_toUInt64 hm, Int.ofNat_le]

/-- Every keyword of the second pass but `additionalProperties`. -/
theorem finds_applyKeyword {keyword : Keyword} {e : ConstJson} (hvalue : Fit value)
    (hsettled : Settled platform keyword e) (hentry : (keyword.text, e) ∈ entries)
    (harg : Argument e keyword) (htype : keyword ≠ .type) (hextra : keyword ≠ .additionalProperties) :
    Finds platform entries value (applyKeyword platform (validateNode platform) keyword.text e value)
      (Accepts entries e value keyword) := by
  rw [applyKeyword, Keyword.ofText?_text]
  cases keyword with
  | type => exact absurd rfl htype
  | additionalProperties => exact absurd rfl hextra
  | properties =>
      exact (finds_properties hvalue hsettled hentry harg).congr (and_iff_right trivial).symm fun _ => id
  | items => exact (finds_items hvalue hsettled hentry harg).congr (and_iff_right trivial).symm fun _ => id
  | required =>
      rw [accepts_iff_meets (by decide) (by decide)]
      exact finds_required hvalue.1 hentry harg
  | enum =>
      rw [accepts_iff_meets (by decide) (by decide)]
      exact finds_enum hvalue.1 harg
  | const =>
      rw [accepts_iff_meets (by decide) (by decide)]
      exact finds_const hvalue.1 harg
  | minLength =>
      rw [accepts_iff_meets (by decide) (by decide)]
      exact finds_size harg rfl (least_iff harg)
  | maxLength =>
      rw [accepts_iff_meets (by decide) (by decide)]
      exact finds_size harg rfl (most_iff harg)
  | minItems =>
      rw [accepts_iff_meets (by decide) (by decide)]
      exact finds_size harg rfl (least_iff harg)
  | maxItems =>
      rw [accepts_iff_meets (by decide) (by decide)]
      exact finds_size harg rfl (most_iff harg)
  | minimum =>
      rw [accepts_iff_meets (by decide) (by decide)]
      exact finds_numeric harg rfl
  | maximum =>
      rw [accepts_iff_meets (by decide) (by decide)]
      exact finds_numeric harg rfl

/-- An entry of the second pass. A key that is no keyword is ignored. -/
theorem finds_otherEntry {entry : Bytes × ConstJson} (hvalue : Fit value) (hmem : entry ∈ entries)
    (hsettled : ∀ keyword : Keyword, keyword.text = entry.1 → Settled platform keyword entry.2)
    (harg : ∀ keyword : Keyword, keyword.text = entry.1 → Argument entry.2 keyword) :
    Finds platform entries value (otherEntry platform (validateNode platform) entries value entry)
      (∀ keyword : Keyword, keyword.text = entry.1 → keyword ≠ .type →
        Accepts entries entry.2 value keyword) := by
  obtain ⟨key, e⟩ := entry
  -- the holds of the one keyword that the key spells
  have hone : ∀ keyword : Keyword, keyword.text = key → keyword ≠ .type →
      ((∀ keyword : Keyword, keyword.text = key → keyword ≠ .type → Accepts entries e value keyword) ↔
        Accepts entries e value keyword) := by
    intro keyword htext htype
    constructor
    · exact fun h => h keyword htext htype
    · intro h keyword' htext' _
      rwa [Keyword.text_injective (htext'.trans htext.symm)]
  rw [otherEntry]
  by_cases htype : key = Keyword.type.text
  · rw [if_pos htype]
    apply decides_ok
    intro keyword htext hne
    exact absurd (Keyword.text_injective (htext.trans htype)) hne
  · rw [if_neg htype]
    by_cases hextra : key = Keyword.additionalProperties.text
    · rw [if_pos hextra, hone .additionalProperties hextra.symm (by decide),
        accepts_iff_meets (by decide) (by decide)]
      exact finds_additionalProperties (harg .additionalProperties hextra.symm)
    · rw [if_neg hextra]
      cases hkey : Keyword.ofText? key with
      | none =>
          dsimp only
          rw [applyKeyword, hkey]
          apply decides_ok
          intro keyword htext
          rw [← htext, Keyword.ofText?_text] at hkey
          cases hkey
      | some keyword =>
          obtain rfl := Keyword.text_of_ofText? hkey
          have hne : keyword ≠ .type := fun heq => htype (heq ▸ rfl)
          have hne' : keyword ≠ .additionalProperties := fun heq => hextra (heq ▸ rfl)
          rw [hone keyword rfl hne]
          exact finds_applyKeyword hvalue (hsettled keyword rfl) hmem (harg keyword rfl) hne hne'

/-! ### Nodes -/

theorem satisfies_iff : Satisfies (.object entries) value ↔
    ∀ keyword e, (Keyword.text keyword, e) ∈ entries → Accepts entries e value keyword := by
  constructor
  · rintro ⟨hmeets, hparts⟩ keyword e hmem
    exact ⟨hmeets keyword e hmem, fun step s child => hparts keyword e step s child hmem⟩
  · intro h
    exact .object (fun keyword e hmem => (h keyword e hmem).1) fun keyword e step s child hmem =>
      (h keyword e hmem).2 step s child

/-- A failure of the node is its own, or that of a part. -/
theorem blames_of_here {fault : Fault PathStep SchemaDetail}
    (hruns : Runs pathBuf report (validateNode platform (.object entries) value) (.error fault))
    (h : BlamesHere platform entries value fault) : Blames platform (.object entries) value fault := by
  obtain hlocates | ⟨keyword, e, step, s, child, below, hentry, hpart, rfl, hops, entries', v, tail,
    hreaches, htail, hbelow, hlocates⟩ := h
  · exact ⟨[], entries, value, fault.hops, .here _ _, rfl, hruns, hlocates⟩
  · refine ⟨step :: hops, entries', v, tail, .hop hentry hpart hreaches, ?_, hbelow, hlocates⟩
    exact congrArg (step :: ·) htail

/-- A validation against a well-formed schema ends; it succeeds on the values that satisfy the schema, and
else it blames a part of the value. -/
theorem decides_validateNode (h : WellFormed schema) (hvalue : Fit value) :
    Decides pathBuf report (validateNode platform schema value) (Satisfies schema value)
      (Blames platform schema value) := by
  induction h generalizing value with
  | @object entries harguments _ ih =>
      have htype : Finds platform entries value (.forEach (typeEntry value) entries)
          (∀ entry ∈ entries, entry.1 = Keyword.type.text → Meets entries entry.2 value .type) :=
        decides_forEach fun entry hmem => finds_typeEntry fun hkey =>
          harguments .type entry.2 (hkey ▸ hmem)
      have hothers : Finds platform entries value
          (.forEach (otherEntry platform (validateNode platform) entries value) entries)
          (∀ entry ∈ entries, ∀ keyword : Keyword, keyword.text = entry.1 → keyword ≠ .type →
            Accepts entries entry.2 value keyword) :=
        decides_forEach fun entry hmem => finds_otherEntry hvalue hmem
          (fun keyword htext s hsub child hchild => ih keyword entry.2 s (htext ▸ hmem) hsub hchild)
          fun keyword htext => harguments keyword entry.2 (htext ▸ hmem)
      have hiff : (∀ entry ∈ entries, entry.1 = Keyword.type.text → Meets entries entry.2 value .type) ∧
          (∀ entry ∈ entries, ∀ keyword : Keyword, keyword.text = entry.1 → keyword ≠ .type →
            Accepts entries entry.2 value keyword) ↔ Satisfies (.object entries) value := by
        rw [satisfies_iff]
        constructor
        · rintro ⟨htypes, hrest⟩ keyword e hmem
          by_cases hkeyword : keyword = .type
          · rw [hkeyword] at hmem ⊢
            exact (accepts_iff_meets (by decide) (by decide)).mpr (htypes _ hmem rfl)
          · exact hrest _ hmem keyword rfl hkeyword
        · intro h
          refine ⟨fun entry hmem hkey => ?_, fun entry hmem keyword htext _ => ?_⟩
          · exact (h .type entry.2 (hkey ▸ hmem)).1
          · exact h keyword entry.2 (htext ▸ hmem)
      have hboth := (decides_andThen htype hothers).congr hiff fun _ => id
      rw [← validateNode_object] at hboth
      obtain ⟨verdict, hruns, hjudges⟩ := hboth
      refine ⟨verdict, hruns, ?_⟩
      cases verdict with
      | ok _ => exact hjudges
      | error fault => exact ⟨hjudges.1, blames_of_here hruns hjudges.2⟩

end Schema

end PjhJson
