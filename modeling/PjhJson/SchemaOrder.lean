import PjhJson.NumberValue
import PjhJson.SchemaVerdict

/-! The verdict does not depend on the order in which a schema is authored, and an error is found where its
path leads. -/

namespace PjhJson

open Grammar Trail

namespace Schema

variable {platform : Platform} {schema schema' : ConstJson} {entries entries' : Entries} {value : Node}

/-! ### Order -/

/-- Whatever is well-formed, or satisfied, in the one schema is so in the other. -/
structure Carries (s s' : ConstJson) : Prop where
  wellFormed : WellFormed s → WellFormed s'
  satisfies : ∀ value, Satisfies s value → Satisfies s' value

/-- The arguments of a keyword are the same, or hold schemas that carry over. -/
inductive Alike : Keyword → ConstJson → ConstJson → Prop where
  | same (keyword : Keyword) (e : ConstJson) : Alike keyword e e
  | properties {props props' : Entries}
      (back : ∀ key s', (key, s') ∈ props' → ∃ s, (key, s) ∈ props ∧ Carries s s')
      (declared : ∀ key s, (key, s) ∈ props → ∃ s', (key, s') ∈ props') :
      Alike .properties (.object props) (.object props')
  | items {s s' : ConstJson} (h : Carries s s') : Alike .items s s'

/-- Every entry has its like among those of the other schema, where no fewer keys are declared. -/
structure Covers (entries entries' : Entries) : Prop where
  alike : ∀ keyword e', (Keyword.text keyword, e') ∈ entries' →
    ∃ e, (keyword.text, e) ∈ entries ∧ Alike keyword e e'
  declared : ∀ key, Declared entries key → Declared entries' key

theorem Carries.refl (s : ConstJson) : Carries s s := ⟨id, fun _ => id⟩

theorem Meets.declared {e : ConstJson} {keyword : Keyword}
    (hdeclared : ∀ key, Declared entries key → Declared entries' key)
    (h : Meets entries e value keyword) : Meets entries' e value keyword := by
  cases keyword with
  | additionalProperties => exact fun he obj hobj key hkey => hdeclared key (h he obj hobj key hkey)
  | _ => exact h

theorem Alike.subSchema {keyword : Keyword} {e e' s' : ConstJson} (h : Alike keyword e e')
    (hsub : SubSchema keyword e' s') : ∃ s, SubSchema keyword e s ∧ Carries s s' := by
  cases h with
  | same => exact ⟨s', hsub, Carries.refl s'⟩
  | properties back _ =>
      cases hsub with
      | property hmem =>
          obtain ⟨s, hs, hcarries⟩ := back _ _ hmem
          exact ⟨s, .property hs, hcarries⟩
  | items h =>
      cases hsub
      exact ⟨_, .item _, h⟩

theorem Alike.part {keyword : Keyword} {e e' s' : ConstJson} {step : PathStep} {child : Node}
    (h : Alike keyword e e') (hpart : Part keyword e' value step s' child) :
    ∃ s, Part keyword e value step s child ∧ Carries s s' := by
  cases h with
  | same => exact ⟨s', hpart, Carries.refl s'⟩
  | properties back _ =>
      cases hpart with
      | property hdeclared hpresent =>
          obtain ⟨s, hs, hcarries⟩ := back _ _ hdeclared
          exact ⟨s, .property hs hpresent, hcarries⟩
  | items h =>
      cases hpart with
      | item hget => exact ⟨_, .item hget, h⟩

theorem WellFormed.isObject (h : WellFormed schema) : ∃ entries, schema = .object entries := by
  cases h with
  | object => exact ⟨_, rfl⟩

theorem Covers.carries (h : Covers entries entries') : Carries (.object entries) (.object entries') := by
  constructor
  · rintro ⟨harguments, hschemas⟩
    constructor
    · intro keyword e' hmem
      obtain ⟨e, he, halike⟩ := h.alike keyword e' hmem
      cases halike with
      | same => exact harguments keyword _ he
      | properties => exact ⟨_, rfl⟩
      | items hcarries => exact (hcarries.wellFormed (hschemas .items e e he (.item e))).isObject
    · intro keyword e' s' hmem hsub
      obtain ⟨e, he, halike⟩ := h.alike keyword e' hmem
      obtain ⟨s, hs, hcarries⟩ := halike.subSchema hsub
      exact hcarries.wellFormed (hschemas keyword e s he hs)
  · rintro value ⟨hmeets, hparts⟩
    constructor
    · intro keyword e' hmem
      obtain ⟨e, he, halike⟩ := h.alike keyword e' hmem
      cases halike with
      | same => exact (hmeets keyword _ he).declared h.declared
      | properties => trivial
      | items => trivial
    · intro keyword e' step s' child hmem hpart
      obtain ⟨e, he, halike⟩ := h.alike keyword e' hmem
      obtain ⟨s, hs, hcarries⟩ := halike.part hpart
      exact hcarries.satisfies child (hparts keyword e step s child he hs)

theorem covers_perm (h : entries.Perm entries') : Covers entries entries' where
  alike keyword e' hmem := ⟨e', h.mem_iff.mpr hmem, .same keyword e'⟩
  declared := by
    rintro key ⟨props, s, hmem, hs⟩
    exact ⟨props, s, h.mem_iff.mp hmem, hs⟩

/-- One argument is exchanged for another that is like it. -/
theorem covers_exchange {before after : Entries} {keyword : Keyword} {e e' : ConstJson}
    (h : Alike keyword e e') :
    Covers (before ++ (keyword.text, e) :: after) (before ++ (keyword.text, e') :: after) where
  alike keyword' d' hmem := by
    obtain hmem | hmem := List.mem_append.mp hmem
    · exact ⟨d', List.mem_append_left _ hmem, .same keyword' d'⟩
    · obtain heq | hmem := List.mem_cons.mp hmem
      · obtain ⟨htext, rfl⟩ := Prod.mk.inj heq
        obtain rfl := Keyword.text_injective htext
        exact ⟨e, List.mem_append_right _ List.mem_cons_self, h⟩
      · exact ⟨d', List.mem_append_right _ (List.mem_cons_of_mem _ hmem), .same keyword' d'⟩
  declared := by
    rintro key ⟨props, s, hmem, hs⟩
    obtain hmem | hmem := List.mem_append.mp hmem
    · exact ⟨props, s, List.mem_append_left _ hmem, hs⟩
    · obtain heq | hmem := List.mem_cons.mp hmem
      · obtain ⟨htext, rfl⟩ := Prod.mk.inj heq
        obtain rfl := Keyword.text_injective htext
        cases h with
        | same => exact ⟨props, s, List.mem_append_right _ List.mem_cons_self, hs⟩
        | properties _ declared =>
            obtain ⟨s', hs'⟩ := declared key s hs
            exact ⟨_, s', List.mem_append_right _ List.mem_cons_self, hs'⟩
      · exact ⟨props, s, List.mem_append_right _ (List.mem_cons_of_mem _ hmem), hs⟩

theorem alike_perm {props props' : Entries} (h : props.Perm props') :
    Alike .properties (.object props) (.object props') :=
  .properties (fun _ s' hmem => ⟨s', h.mem_iff.mpr hmem, Carries.refl s'⟩)
    fun _ s hmem => ⟨s, h.mem_iff.mp hmem⟩

theorem alike_property {front back : Entries} {key : Bytes} {s s' : ConstJson} (h : Carries s s') :
    Alike .properties (.object (front ++ (key, s) :: back)) (.object (front ++ (key, s') :: back)) := by
  apply Alike.properties
  · intro key' d' hmem
    obtain hmem | hmem := List.mem_append.mp hmem
    · exact ⟨d', List.mem_append_left _ hmem, Carries.refl d'⟩
    · obtain heq | hmem := List.mem_cons.mp hmem
      · cases heq
        exact ⟨s, List.mem_append_right _ List.mem_cons_self, h⟩
      · exact ⟨d', List.mem_append_right _ (List.mem_cons_of_mem _ hmem), Carries.refl d'⟩
  · intro key' d hmem
    obtain hmem | hmem := List.mem_append.mp hmem
    · exact ⟨d, List.mem_append_left _ hmem⟩
    · obtain heq | hmem := List.mem_cons.mp hmem
      · cases heq
        exact ⟨s', List.mem_append_right _ List.mem_cons_self⟩
      · exact ⟨d, List.mem_append_right _ (List.mem_cons_of_mem _ hmem)⟩

theorem Reordered.carries (h : Reordered schema schema') : Carries schema schema' := by
  induction h with
  | refl s => exact Carries.refl s
  | trans _ _ ih ih' =>
      exact ⟨fun h => ih'.wellFormed (ih.wellFormed h), fun v h => ih'.satisfies v (ih.satisfies v h)⟩
  | keywords h => exact (covers_perm h).carries
  | declared h => exact (covers_exchange (alike_perm h)).carries
  | property _ ih => exact (covers_exchange (alike_property ih)).carries
  | item _ ih => exact (covers_exchange (.items ih)).carries

theorem Reordered.symm (h : Reordered schema schema') : Reordered schema' schema := by
  induction h with
  | refl s => exact .refl s
  | trans _ _ ih ih' => exact .trans ih' ih
  | keywords h => exact .keywords h.symm
  | declared h => exact .declared h.symm
  | property _ ih => exact .property ih
  | item _ ih => exact .item ih

/-! ### Results -/

/-- The path of an error is the rendering of its hops. -/
theorem follow_nil (hops : Path) : pathBuf.follow [] hops = renderPath hops := by
  rw [Steps.follow, renderPath]
  congr 1
  funext out step
  cases step <;> rfl

/-- The error is that of a part of the value, to which hops lead that exist in the value and in the schema;
its path is the rendering of these hops, and of the key that is missing or not declared. -/
def Traced (platform : Platform) (schema : ConstJson) (value : Node) (error : SchemaError) : Prop :=
  ∃ hops entries v tail, Reaches schema value hops (.object entries) v ∧
    validateResult platform (.object entries) v = some (.error { error with path := renderPath tail }) ∧
    Locates entries v error.code tail ∧ error.path = renderPath (hops ++ tail)

theorem validateResult_of_runs {verdict : Except (Fault PathStep SchemaDetail) Unit}
    (h : Runs pathBuf report (validateNode platform schema value) verdict) :
    validateResult platform schema value =
      some (verdict.mapError fun fault => report fault.detail (renderPath fault.hops)) := by
  rw [validateResult, h [], Option.map_some]
  cases verdict with
  | ok _ => rfl
  | error fault => rw [Except.mapError, Except.mapError, Fault.error, follow_nil]

theorem validateResult_decides (h : WellFormed schema) (hvalue : Fit value) :
    ∃ verdict, validateResult platform schema value = some verdict ∧
      (verdict = .ok () ↔ Satisfies schema value) ∧
      ∀ error, verdict = .error error → Traced platform schema value error := by
  obtain ⟨verdict, hruns, hjudges⟩ := @decides_validateNode platform schema value h hvalue
  refine ⟨_, validateResult_of_runs hruns, ?_⟩
  cases verdict with
  | ok _ => exact ⟨iff_of_true rfl hjudges, fun error heq => by cases heq⟩
  | error fault =>
      refine ⟨iff_of_false (fun heq => by cases heq) hjudges.1, fun error heq => ?_⟩
      cases heq
      obtain ⟨hops, entries, v, tail, hreaches, htail, hbelow, hlocates⟩ := hjudges.2
      exact ⟨hops, entries, v, tail, hreaches, validateResult_of_runs hbelow, hlocates,
        congrArg renderPath htail⟩

/-- The validation of a value without duplicates against a well-formed schema succeeds if and only if the value
satisfies every keyword, in whatever order the schema is authored; an error is found where its path
leads. -/
theorem validateResult_spec (h : WellFormed schema) (hsound : value.Sound) (hkeys : value.NoDuplicates) :
    ∃ verdict, validateResult platform schema value = some verdict ∧
      (verdict = .ok () ↔ Satisfies schema value) ∧
      (∀ schema', Reordered schema schema' →
        (validateResult platform schema' value = some (.ok ()) ↔ verdict = .ok ())) ∧
      ∀ error, verdict = .error error → Traced platform schema value error := by
  obtain ⟨verdict, hverdict, hiff, herror⟩ := @validateResult_decides platform schema value h ⟨hsound, hkeys⟩
  refine ⟨verdict, hverdict, hiff, fun schema' hreordered => ?_, herror⟩
  obtain ⟨verdict', hverdict', hiff', -⟩ := @validateResult_decides platform schema' value
    (hreordered.carries.wellFormed h) ⟨hsound, hkeys⟩
  rw [hverdict', Option.some_inj, hiff', hiff]
  exact ⟨hreordered.symm.carries.satisfies value, hreordered.carries.satisfies value⟩

/-- `\x7b"properties": \x7b"user": \x7b"type": "object", "required": ["name"]\x7d\x7d\x7d`. -/
def userSchema : ConstJson :=
  .object [(Keyword.properties.text, .object [(asciiBytes "user", .object
    [(Keyword.type.text, .str (asciiBytes "object")),
      (Keyword.required.text, .array [.str (asciiBytes "name")])])])]

/-- A user without a name. -/
def userValue : Node := .object { data := [(asciiBytes "user", .object {})] }

theorem userSchema_wellFormed : WellFormed userSchema := by
  have hmem : ∀ {keyword keyword' : Keyword} {e e' : ConstJson},
      (keyword.text, e) = (keyword'.text, e') → keyword = keyword' ∧ e = e' := fun heq =>
    ⟨Keyword.text_injective (Prod.mk.inj heq).1, (Prod.mk.inj heq).2⟩
  have huser : WellFormed (.object [(Keyword.type.text, .str (asciiBytes "object")),
      (Keyword.required.text, .array [.str (asciiBytes "name")])]) := by
    constructor
    · intro keyword e h
      obtain h | h := List.mem_cons.mp h
      · obtain ⟨rfl, rfl⟩ := hmem h
        exact ⟨_, by decide, rfl⟩
      · obtain ⟨rfl, rfl⟩ := hmem (List.mem_singleton.mp h)
        exact ⟨_, rfl, fun elem helem => ⟨_, List.mem_singleton.mp helem⟩⟩
    · intro keyword e s h hsub
      obtain h | h := List.mem_cons.mp h
      · obtain ⟨rfl, rfl⟩ := hmem h
        cases hsub
      · obtain ⟨rfl, rfl⟩ := hmem (List.mem_singleton.mp h)
        cases hsub
  constructor
  · intro keyword e h
    obtain ⟨rfl, rfl⟩ := hmem (List.mem_singleton.mp h)
    exact ⟨_, rfl⟩
  · intro keyword e s h hsub
    obtain ⟨rfl, rfl⟩ := hmem (List.mem_singleton.mp h)
    cases hsub with
    | property h =>
        obtain ⟨-, rfl⟩ := Prod.mk.inj (List.mem_singleton.mp h)
        exact huser

theorem validateResult_spec_user :
    ∃ verdict, validateResult halfPlatform userSchema userValue = some verdict ∧
      (verdict = .ok () ↔ Satisfies userSchema userValue) ∧
      (∀ schema', Reordered userSchema schema' →
        (validateResult halfPlatform schema' userValue = some (.ok ()) ↔ verdict = .ok ())) ∧
      ∀ error, verdict = .error error → Traced halfPlatform userSchema userValue error :=
  validateResult_spec userSchema_wellFormed
    (Node.sound_object.mpr ⟨Index.cacheHolds_none _, fun _ h => by
      obtain rfl := List.mem_singleton.mp h
      exact ConstJson.sound_empty 0⟩)
    (Node.noDuplicates_object.mpr ⟨by decide, fun _ h => by
      obtain rfl := List.mem_singleton.mp h
      exact Node.noDuplicates_object.mpr ⟨List.nodup_nil, fun _ h => absurd h List.not_mem_nil⟩⟩)

example : validateResult halfPlatform userSchema userValue = some (.error {
    code := .missingRequired
    expected := asciiBytes "present"
    actual := asciiBytes "missing"
    keyword := asciiBytes "required"
    path := asciiBytes "user.name" }) := by decide +kernel

end Schema

end PjhJson
