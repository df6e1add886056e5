import PjhJson.ReadingValue
import PjhJson.RefineKeyIndex
import PjhJson.RefineString

/-! The value, array and object parsers follow the reading of values: by induction on the levels of
nesting, and inside a container on the rounds of its loop. -/

namespace PjhJson

open Grammar

variable {platform : Platform} {cfg : Config} {w : Window} {depth : Nat} {p : Parser} {r : Reading}

/-- An element parser follows an element reader at this depth. -/
def Follows (platform : Platform) (cfg : Config) (w : Window) (depth : Nat)
    (element : Prog Parser Unit) (element' : Prog Reading Ast) : Prop :=
  ∀ p r, Tracks w depth p r →
    Matches w (element p) (element' r) fun _ p' value r' =>
      ValueStep platform cfg w depth p p' value r'

/-! ### Frames -/

theorem matches_withElement {element : Prog Parser Unit} {element' : Prog Reading Ast}
    (helement : Follows platform cfg w depth element element') (h : Tracks w depth p r)
    (initial : Json View) :
    Matches w (Parser.withElement initial element p) (element' r) fun json p' value r' =>
      Step w depth p p' r' ∧ HoldsJson platform cfg p' json value := by
  have hrun := helement { p with out := initial } r (h.with_out initial)
  rw [Parser.withElement]
  cases hread : element' r with
  | stuck => trivial
  | ok result =>
      rw [hread] at hrun
      obtain ⟨_, p', hp', hstep⟩ := hrun
      rw [hp']
      exact Prog.simulates_ok ⟨⟨hstep.tracks.with_out p.out,
        ⟨hstep.kept.le, hstep.kept.last, hstep.kept.memory⟩, rfl⟩,
        hstep.out⟩
  | error r' =>
      rw [hread] at hrun
      obtain hfalse | ⟨p', hp', hfailed⟩ := hrun
      · exact hfalse.elim
      · rw [hp']
        exact .inr ⟨_, rfl, hfailed⟩

theorem Tracks.with_depth (h : Tracks w depth p r) (depth' : Nat) :
    Tracks w depth' { p with mDepth := depth' } r :=
  ⟨h.unread, h.curr, h.last, h.start, rfl, h.error, h.behind, h.inside⟩

theorem matches_withDepth {body : Prog Parser Unit} {body' : Prog Reading Ast}
    (h : Tracks w depth p r)
    (hbody : ∀ p, Tracks w (depth + 1) p r → Matches w (body p) (body' r) fun _ p' value r' =>
      ValueStep platform cfg w (depth + 1) p p' value r') :
    Matches w (Parser.withDepth body p) (body' r) fun _ p' value r' =>
      ValueStep platform cfg w depth p p' value r' := by
  have hrun := hbody { p with mDepth := p.mDepth + 1 } (by
    rw [h.depth]
    exact h.with_depth _)
  rw [Parser.withDepth]
  cases hread : body' r with
  | stuck => trivial
  | ok result =>
      rw [hread] at hrun
      obtain ⟨_, p', hp', hstep⟩ := hrun
      rw [hp']
      refine Prog.simulates_ok
        ⟨?_, ⟨hstep.kept.le, hstep.kept.last, hstep.kept.memory⟩, hstep.out⟩
      have hdepth := hstep.tracks.with_depth (p'.mDepth - 1)
      rw [hstep.tracks.depth, Nat.add_sub_cancel] at hdepth
      rw [hstep.tracks.depth, Nat.add_sub_cancel]
      exact hdepth
  | error r' =>
      rw [hread] at hrun
      obtain hfalse | ⟨p', hp', hfailed⟩ := hrun
      · exact hfalse.elim
      · rw [hp']
        exact .inr ⟨_, rfl, hfailed⟩

theorem matches_checkDepth {α β : Type} {next : Unit → Prog Parser α}
    {next' : Unit → Prog Reading β} {done : α → Parser → β → Reading → Prop}
    (h : Tracks w depth p r) (hnext : Matches w (next () p) (next' () r) done) :
    Matches w ((Parser.checkDepth cfg >>= next) p) ((Reading.checkDepth cfg depth >>= next') r)
      done := by
  have hcheck : Matches w (Parser.checkDepth cfg p) (Reading.checkDepth cfg depth r)
      fun _ p' _ r' => p' = p ∧ r' = r := by
    rw [Parser.checkDepth, Reading.checkDepth, Prog.bind_get, h.depth]
    split
    · exact matches_failHere h _
    · exact Prog.simulates_ok ⟨rfl, rfl⟩
  refine Prog.simulates_bind hcheck ?_
  rintro _ p' _ r' ⟨rfl, rfl⟩
  exact hnext

theorem matches_atByte (h : Tracks w depth p r) (c : UInt8) :
    Matches w (Parser.atByte c p) (Reading.atByte w.tail c r) fun found p' found' r' =>
      p = p' ∧ r = r' ∧ found = found' ∧ (found = true → r.rest ≠ []) := by
  rw [Parser.atByte, Reading.atByte, Prog.bind_get, Prog.bind_get, h.atEnd]
  by_cases hend : r.atEnd w.tail = true
  · rw [if_pos hend, if_pos hend]
    exact Prog.simulates_ok ⟨rfl, rfl, rfl, fun hfalse => by cases hfalse⟩
  · rw [if_neg hend, if_neg hend, Prog.bind_of_ok h.peek]
    exact Prog.simulates_ok
      ⟨rfl, rfl, rfl, fun _ => Tracks.ne_nil_of_atEnd (Bool.not_eq_true _ ▸ hend)⟩

/-- After a comma both sides decide in the same way whether JSON5 closes the container. -/
theorem matches_closedAfterComma (h : Tracks w depth p r) (c : UInt8) :
    Matches w (Parser.closedAfterComma platform cfg c p)
      (Reading.closedAfterComma Reading.skipWhitespace cfg w.tail c r)
      fun closed p' closed' r' =>
        closed = closed' ∧ Step w depth p p' r' ∧ (closed = true → r'.rest ≠ []) := by
  rw [Parser.closedAfterComma, Reading.closedAfterComma]
  by_cases hjson5 : cfg.json5 = true
  · rw [if_pos hjson5, if_pos hjson5]
    refine Prog.simulates_bind (matches_skipWhitespace h) fun _ p' _ r' hstep => ?_
    refine Prog.simulates_mono (matches_atByte hstep.tracks c) ?_
    rintro found _ _ _ ⟨rfl, rfl, rfl, hfound⟩
    exact ⟨rfl, hstep, hfound⟩
  · rw [if_neg hjson5, if_neg hjson5]
    exact Prog.simulates_ok ⟨rfl, Step.refl h, fun hfalse => by cases hfalse⟩

/-! ### Arrays -/

/-- The elements of the array under construction are those read so far. -/
def HoldsElements (platform : Platform) (cfg : Config) (p : Parser) (arr : List (Json View))
    (elements : List Ast) : Prop := List.Forall₂ (HoldsJson platform cfg p) arr elements

theorem HoldsElements.kept {p p' : Parser} {arr : List (Json View)} {elements : List Ast}
    (h : HoldsElements platform cfg p arr elements) (hkept : Kept p p') :
    HoldsElements platform cfg p' arr elements :=
  h.imp fun _ _ hjson => hjson.kept hkept

theorem HoldsElements.append {arr : List (Json View)} {elements : List Ast} {json : Json View}
    {value : Ast} (h : HoldsElements platform cfg p arr elements)
    (hjson : HoldsJson platform cfg p json value) :
    HoldsElements platform cfg p (arr ++ [json]) (elements ++ [value]) :=
  List.rel_append h (.cons hjson .nil)

theorem HoldsElements.holdsJson {arr : List (Json View)} {elements : List Ast}
    (h : HoldsElements platform cfg p arr elements) :
    HoldsJson platform cfg p (.array arr) (.array elements) := by
  rw [HoldsJson, Json.map_array, Ast.toJson_array, Json.all_array]
  induction h with
  | nil => simp
  | cons hjson _ ih =>
      obtain ⟨hmap, hall⟩ := ih
      refine ⟨?_, List.forall_mem_cons.mpr ⟨hjson.2, hall⟩⟩
      rw [List.map_cons, List.map_cons, hjson.1, Json.array.inj hmap]

/-- Closing a container: the last step moves over the closing byte and sets `out`. -/
theorem matches_close {p₀ : Parser} {json : Json View} {value : Ast} {α : Type} {result : α}
    (h : Tracks w depth p r) (hkept : Kept p₀ p) (hne : r.rest ≠ [])
    (hjson : HoldsJson platform cfg p json value) :
    Matches w ((Parser.advance 1 >>= fun _ => Parser.setOut json) p)
      ((Reading.advance 1 >>= fun _ => pure result) r) fun _ p' result' r' =>
        result' = result ∧ ValueStep platform cfg w depth p₀ p' value r' := by
  refine matches_advance h (List.length_pos_iff.mpr hne) fun p' r' hstep _ _ => ?_
  exact Prog.simulates_ok ⟨rfl, hstep.tracks.with_out _, (hkept.trans hstep.kept).with_out _,
    hjson.kept (hstep.kept.with_out _)⟩

theorem matches_arrayLoop {element : Prog Parser Unit} {element' : Prog Reading Ast}
    (helement : Follows platform cfg w depth element element') {p₀ : Parser} {fuel fuel' : Nat}
    (hfuel : fuel' ≤ fuel) {arr : List (Json View)} {elements : List Ast} (h : Tracks w depth p r)
    (hkept : Kept p₀ p) (harr : HoldsElements platform cfg p arr elements) :
    Matches w (Parser.arrayLoop platform cfg element fuel arr p)
      (Reading.elementsLoop Reading.skipWhitespace cfg w.tail element' fuel' elements r) fun _ p' elements' r' =>
        ValueStep platform cfg w depth p₀ p' (.array elements') r' := by
  induction fuel' generalizing fuel arr elements p r with
  | zero => trivial
  | succ fuel' ih =>
      obtain ⟨fuel, rfl⟩ : ∃ f, fuel = f + 1 := ⟨fuel - 1, by omega⟩
      rw [Parser.arrayLoop, Reading.elementsLoop]
      refine Prog.simulates_bind (matches_withElement helement h .null) ?_
      rintro json p₁ value r₁ ⟨hstep₁, hjson⟩
      refine Prog.simulates_bind (matches_skipWhitespace hstep₁.tracks) ?_
      intro _ p₂ _ r₂ hstep₂
      have hkept₂ := hkept.trans (hstep₁.kept.trans hstep₂.kept)
      have harr₂ : HoldsElements platform cfg p₂ (arr ++ [json]) (elements ++ [value]) :=
        ((harr.kept hstep₁.kept).append hjson).kept hstep₂.kept
      refine matches_peek hstep₂.tracks ?_
      by_cases hclose : r₂.here = ascii ']'
      · obtain ⟨rest, hrest⟩ := Tracks.here_cons (r := r₂) (by rw [hclose]; decide)
        rw [if_pos hclose, if_pos hclose]
        refine Prog.simulates_mono (matches_close hstep₂.tracks hkept₂ (by rw [hrest]; simp)
          harr₂.holdsJson) ?_
        rintro _ p' _ r' ⟨rfl, hvalue⟩
        exact hvalue
      rw [if_neg hclose, if_neg hclose]
      by_cases hcomma : r₂.here = ascii ','
      swap
      · rw [if_neg hcomma, if_neg hcomma]
        exact matches_failHere hstep₂.tracks _
      obtain ⟨rest, hrest⟩ := Tracks.here_cons (r := r₂) (by rw [hcomma]; decide)
      rw [if_pos hcomma, if_pos hcomma]
      refine matches_advance hstep₂.tracks (by rw [hrest, List.length_cons]; omega) ?_
      intro p₃ r₃ hstep₃ _ _
      refine Prog.simulates_bind (matches_closedAfterComma hstep₃.tracks _) ?_
      rintro closed p₄ _ r₄ ⟨rfl, hstep₄, hclosed⟩
      have hkept₄ := hkept₂.trans (hstep₃.kept.trans hstep₄.kept)
      have harr₄ := harr₂.kept (hstep₃.kept.trans hstep₄.kept)
      by_cases hdone : closed = true
      · rw [if_pos hdone, if_pos hdone]
        refine Prog.simulates_mono (matches_close hstep₄.tracks hkept₄ (hclosed hdone)
          harr₄.holdsJson) ?_
        rintro _ p' _ r' ⟨rfl, hvalue⟩
        exact hvalue
      · rw [if_neg hdone, if_neg hdone]
        exact ih (Nat.le_of_succ_le_succ hfuel) hstep₄.tracks hkept₄ harr₄

theorem matches_parseArrayInplace {element : Prog Parser Unit} {element' : Nat → Prog Reading Ast}
    (helement : Follows platform cfg w (depth + 1) element (element' (depth + 1)))
    (h : Tracks w depth p r) (hne : r.rest ≠ []) :
    Matches w (Parser.parseArrayInplace platform cfg element p)
      (Reading.readArray Reading.skipWhitespace cfg w.tail depth element' r) fun _ p' value r' =>
        ValueStep platform cfg w depth p p' value r' := by
  rw [Parser.parseArrayInplace, Reading.readArray, Prog.bind_get]
  have hcurr := h.curr
  have hbuffer := h.length_buffer
  simp only [kPaddingWidth] at hbuffer
  refine matches_checkDepth h ?_
  refine matches_withDepth h fun p h => ?_
  refine matches_advance h (List.length_pos_iff.mpr hne) fun p₁ r₁ hstep₁ _ _ => ?_
  refine Prog.simulates_bind (matches_skipWhitespace hstep₁.tracks) fun _ p₂ _ r₂ hstep₂ => ?_
  have hkept₂ := hstep₁.kept.trans hstep₂.kept
  refine Prog.simulates_bind (matches_atByte hstep₂.tracks _) ?_
  rintro empty _ _ _ ⟨rfl, rfl, rfl, hempty⟩
  have hnil : HoldsElements platform cfg p₂ [] [] := .nil
  by_cases hdone : empty = true
  · rw [if_pos hdone, if_pos hdone]
    refine Prog.simulates_mono (matches_close hstep₂.tracks hkept₂ (hempty hdone) hnil.holdsJson) ?_
    rintro _ p' _ r' ⟨rfl, hvalue⟩
    exact hvalue
  · rw [if_neg hdone, if_neg hdone, Prog.bind_get]
    have hbuffer₂ := hstep₂.tracks.length_buffer
    simp only [kPaddingWidth] at hbuffer₂
    exact Prog.simulates_wrap
      (matches_arrayLoop helement (by omega) hstep₂.tracks hkept₂ hnil)

/-! ### Objects -/

/-- The key index of these members: there is one from the threshold on, and never in strict mode. -/
structure HoldsIndex (platform : Platform) (cfg : Config) (asts : List (Bytes × Ast))
    (index : KeyIndex) : Prop where
  lenient : cfg.strictDuplicateKeys = false
  large : kKeyIndexThreshold ≤ ((lastWins asts).map (·.1)).length
  indexes : KeyIndex.Indexes platform ((lastWins asts).map (·.1)) index

/-- The entries under construction are the members read so far with the last value of each key; the strict mode keeps
the keys of all of them. -/
structure HoldsMembers (platform : Platform) (cfg : Config) (p : Parser) (members : Parser.Members)
    (asts : List (Bytes × Ast)) : Prop where
  entries : members.entries.map (fun entry => (entry.1.read p.buffer, entry.2.map (View.read p.buffer)))
    = lastWins (asts.map fun member => (member.1, member.2.toJson (tokenNumber platform cfg)))
  below : ∀ entry ∈ members.entries, entry.1.Below p.passed ∧ entry.2.All (View.Below p.passed)
  seen : members.seen.map (List.map (View.read p.buffer)) =
    if cfg.strictDuplicateKeys then some (asts.map (·.1)).reverse else none
  seenBelow : ∀ seen, members.seen = some seen → ∀ key ∈ seen, key.Below p.passed
  index : ∀ index, members.keyIndex = some index → HoldsIndex platform cfg asts index

theorem lastWins_map_snd {κ ν μ : Type} [DecidableEq κ] (f : ν → μ) (members : List (κ × ν)) :
    lastWins (members.map fun member => (member.1, f member.2)) =
      (lastWins members).map fun entry => (entry.1, f entry.2) := by
  induction members using List.reverseRecOn with
  | nil => rfl
  | append_singleton members member ih =>
      have hput : ∀ (entries : List (κ × ν)) (key : κ) (value : ν),
          putEntry (entries.map fun entry => (entry.1, f entry.2)) key (f value) =
            (putEntry entries key value).map fun entry => (entry.1, f entry.2) := by
        intro entries key value
        induction entries with
        | nil => rfl
        | cons entry rest ih =>
            rw [List.map_cons, putEntry, putEntry]
            split
            · rfl
            · rw [ih]
              rfl
      rw [List.map_append, List.map_singleton, lastWins_append, lastWins_append, ih, hput]

namespace HoldsMembers

variable {members : Parser.Members} {asts : List (Bytes × Ast)}

/-- The keys of the entries, as the parser reads them. -/
theorem keys (h : HoldsMembers platform cfg p members asts) :
    (members.entries.map fun entry => entry.1.read p.buffer) = (lastWins asts).map (·.1) := by
  have hkeys := congrArg (List.map Prod.fst) h.entries
  rw [lastWins_map_snd, List.map_map, List.map_map] at hkeys
  exact hkeys

theorem init (p : Parser) : HoldsMembers platform cfg p
    { seen := if cfg.strictDuplicateKeys then some [] else none } [] := by
  refine ⟨rfl, fun _ hmem => absurd hmem List.not_mem_nil, ?_, ?_, fun _ hindex => by cases hindex⟩
  · cases cfg.strictDuplicateKeys <;> rfl
  · intro seen hseen
    cases hstrict : cfg.strictDuplicateKeys with
    | true =>
        rw [hstrict] at hseen
        cases hseen
        exact fun _ hmem => absurd hmem List.not_mem_nil
    | false =>
        rw [hstrict] at hseen
        cases hseen

theorem kept {p' : Parser} (h : HoldsMembers platform cfg p members asts) (hkept : Kept p p') :
    HoldsMembers platform cfg p' members asts := by
  refine ⟨?_, ?_, ?_, fun seen hseen key hkey => (h.seenBelow seen hseen key hkey).mono hkept.passed_le, h.index⟩
  · rw [← h.entries]
    refine List.map_congr_left fun entry hmem => ?_
    obtain ⟨hkey, hvalue⟩ := h.below entry hmem
    rw [View.read_kept hkept hkey,
      Json.map_congr (hvalue.mono fun _ hbelow => View.read_kept hkept hbelow)]
  · intro entry hmem
    obtain ⟨hkey, hvalue⟩ := h.below entry hmem
    exact ⟨hkey.mono hkept.passed_le, hvalue.mono fun _ => View.Below.mono hkept.passed_le⟩
  · rw [← h.seen]
    cases hseen : members.seen with
    | none => rfl
    | some seen =>
        rw [Option.map_some, Option.map_some, Option.some.injEq]
        exact List.map_congr_left fun key hkey => View.read_kept hkept (h.seenBelow seen hseen key hkey)

theorem holdsJson (h : HoldsMembers platform cfg p members asts) :
    HoldsJson platform cfg p (.object members.entries) (.object asts) := by
  rw [HoldsJson, Json.map_object, Ast.toJson_object, Json.all_object, ← h.entries]
  exact ⟨rfl, h.below⟩

/-- The value of a member is stored with its key: the entries of the members are extended by it. -/
theorem store {key : View} {text : Bytes} {json : Json View} {value : Ast} {entries : List (View × Json View)}
    {keyIndex : Option KeyIndex} (h : HoldsMembers platform cfg p members asts)
    (hkey : HoldsText p key text) (hjson : HoldsJson platform cfg p json value)
    (hentries : entries =
      match members.entries[((lastWins asts).map (·.1)).findIdx (· = text)]? with
      | some (first, _) =>
        members.entries.set (((lastWins asts).map (·.1)).findIdx (· = text)) (first, json)
      | none => members.entries ++ [(key, json)])
    (hindex : ∀ index, keyIndex = some index →
      HoldsIndex platform cfg (asts ++ [(text, value)]) index) :
    HoldsMembers platform cfg p
      { entries, seen := members.seen.map (key :: ·), keyIndex }
      (asts ++ [(text, value)]) := by
  have hkeys := h.keys
  have hlength : members.entries.length = (lastWins asts).length := by
    simpa using congrArg List.length hkeys
  have hjsonKeys : ((lastWins (asts.map fun member =>
      (member.1, member.2.toJson (tokenNumber platform cfg)))).map (·.1)) =
      (lastWins asts).map (·.1) := by
    rw [lastWins_map_snd, List.map_map]
    rfl
  refine ⟨?_, ?_, ?_, ?_, hindex⟩
  · rw [List.map_append, List.map_singleton, lastWins_append, ← h.entries]
    by_cases hmem : text ∈ (lastWins asts).map (·.1)
    · -- the key has an entry, whose value is overwritten
      have hget := Probe.getElem?_findIdx hmem
      nth_rewrite 1 [← hkeys] at hget
      rw [List.getElem?_map, Option.map_eq_some_iff] at hget
      obtain ⟨⟨first, old⟩, hentry, hfirst⟩ := hget
      rw [putEntry_of_mem _ (by rw [h.entries, hjsonKeys]; exact hmem), h.entries, hjsonKeys,
        ← h.entries, hentries, hentry]
      simp only at hfirst
      simp only [List.map_set, hfirst, hjson.1]
    · have hnone : members.entries[((lastWins asts).map (·.1)).findIdx (· = text)]? = none := by
        rw [List.getElem?_eq_none_iff, hlength, Probe.findIdx_of_not_mem hmem, List.length_map]
      rw [putEntry_of_not_mem _ (by rw [h.entries, hjsonKeys]; exact hmem), hentries, hnone]
      simp only [List.map_append, List.map_singleton, hkey.1, hjson.1]
  · intro entry hmem
    rw [hentries] at hmem
    split at hmem
    · rename_i first old hget
      rcases List.mem_or_eq_of_mem_set hmem with hmem | rfl
      · exact h.below entry hmem
      · exact ⟨(h.below _ (List.mem_of_getElem? hget)).1, hjson.2⟩
    · rcases List.mem_append.mp hmem with hmem | hmem
      · exact h.below entry hmem
      · rw [List.mem_singleton] at hmem
        subst hmem
        exact ⟨hkey.2, hjson.2⟩
  · have hput : ∀ seen : List View, (key :: seen).map (View.read p.buffer) = text :: seen.map (View.read p.buffer) :=
      fun seen => by rw [List.map_cons, hkey.1]
    calc (members.seen.map (key :: ·)).map (List.map (View.read p.buffer))
        = (members.seen.map (List.map (View.read p.buffer))).map (text :: ·) := by
          rw [Option.map_map, Option.map_map]
          exact Option.map_congr fun seen _ => hput seen
      _ = (if cfg.strictDuplicateKeys then some (asts.map (·.1)).reverse else none).map (text :: ·) := by
          rw [h.seen]
      _ = if cfg.strictDuplicateKeys then some ((asts ++ [(text, value)]).map (·.1)).reverse else none := by
          split
          · simp
          · rfl
  · intro seen hseen
    obtain ⟨before, hbefore, rfl⟩ := Option.map_eq_some_iff.mp hseen
    exact List.forall_mem_cons.mpr ⟨hkey.2, h.seenBelow before hbefore⟩

theorem isSome_seen (h : HoldsMembers platform cfg p members asts) : members.seen.isSome = cfg.strictDuplicateKeys := by
  have hseen := congrArg Option.isSome h.seen
  rw [Option.isSome_map] at hseen
  rw [hseen]
  cases cfg.strictDuplicateKeys <;> rfl

/-- The position that is looked up is the one of the first entry with the key. -/
theorem findPosition {members' : Parser.Members} {text : Bytes} (value : Ast)
    (h : HoldsMembers platform cfg p members asts)
    (hseen : members'.seen.isSome = cfg.strictDuplicateKeys)
    (hindex : members'.keyIndex = members.keyIndex)
    (hnew : cfg.strictDuplicateKeys = true → text ∉ (lastWins asts).map (·.1)) :
    ∃ keyIndex, Parser.findPosition platform members' ((lastWins asts).map (·.1)) text =
        some (((lastWins asts).map (·.1)).findIdx (· = text), keyIndex) ∧
      ∀ index, keyIndex = some index →
        HoldsIndex platform cfg (asts ++ [(text, value)]) index := by
  have hnodup := nodup_lastWins asts
  rw [Parser.findPosition, hseen]
  cases hstrict : cfg.strictDuplicateKeys with
  | true =>
      refine ⟨members.keyIndex, ?_, fun index hsome => ?_⟩
      · rw [if_pos rfl, hindex, Probe.findIdx_of_not_mem (hnew hstrict)]
      · have hlenient := (h.index index hsome).lenient
        rw [hstrict] at hlenient
        cases hlenient
  | false =>
      rw [if_neg (by decide)]
      by_cases hlarge : kKeyIndexThreshold ≤ ((lastWins asts).map (·.1)).length
      · have hold : ∃ index,
            Parser.buildOnce platform members' ((lastWins asts).map (·.1)) = some index ∧
              KeyIndex.Indexes platform ((lastWins asts).map (·.1)) index := by
          rw [Parser.buildOnce, hindex]
          cases hcached : members.keyIndex with
          | some index => exact ⟨index, rfl, (h.index index hcached).indexes⟩
          | none => exact KeyIndex.build_spec hnodup
        obtain ⟨index, hsome, hindexes⟩ := hold
        obtain ⟨index', hfind, hindexes'⟩ := KeyIndex.findOrInsert_spec hnodup hindexes text
        refine ⟨some index', ?_, ?_⟩
        · rw [if_pos hlarge, hsome, Option.bind_eq_bind, Option.bind_some, hfind]
          rfl
        · rintro _ ⟨⟩
          refine ⟨hstrict, ?_, ?_⟩
          · rw [keys_lastWins_append]
            split
            · exact hlarge
            · rw [List.length_append]
              omega
          · rw [keys_lastWins_append]
            by_cases hmem : text ∈ (lastWins asts).map (·.1)
            · rw [if_pos hmem] at hindexes' ⊢
              exact hindexes'
            · rw [if_neg hmem] at hindexes' ⊢
              exact hindexes'
      · refine ⟨members.keyIndex, by rw [if_neg hlarge, hindex], fun index hsome => ?_⟩
        exact absurd (h.index index hsome).large hlarge

end HoldsMembers

theorem matches_parseKey (h : Tracks w depth p r) :
    Matches w (Parser.parseKey platform cfg p) (Reading.readKey cfg w.tail r)
      fun view p' text r' => StringStep w depth p p' view text r' := by
  rw [Parser.parseKey, Reading.readKey, Prog.bind_get, Prog.bind_get, h.atEnd]
  by_cases hjson5 : cfg.json5 = true ∧ r.atEnd w.tail = false
  · rw [if_pos hjson5, if_pos hjson5, Prog.bind_of_ok h.peek]
    by_cases hsingle : r.here = ascii '\''
    · rw [if_pos hsingle, if_pos hsingle]
      exact matches_parseStringJson5 _ h (Tracks.ne_nil_of_atEnd hjson5.2)
    rw [if_neg hsingle, if_neg hsingle]
    by_cases hquote : r.here ≠ ascii '"'
    · rw [if_pos hquote, if_pos hquote]
      exact matches_parseIdentifierKey h (Nat.le_of_lt (Tracks.lt_of_atEnd hjson5.2))
    · rw [if_neg hquote, if_neg hquote]
      exact matches_parseString h
  · rw [if_neg hjson5, if_neg hjson5, Prog.bind_of_ok h.peek]
    by_cases hquote : r.here ≠ ascii '"'
    · rw [if_pos hquote, if_pos hquote]
      exact matches_failHere h _
    · rw [if_neg hquote, if_neg hquote]
      exact matches_parseString h

theorem matches_checkDuplicateKey {members : Parser.Members} {asts : List (Bytes × Ast)}
    {key : View} {text : Bytes} (h : Tracks w depth p r) (hmembers : HoldsMembers platform cfg p members asts)
    (hkey : HoldsText p key text) :
    Matches w (Parser.checkDuplicateKey members key p) (Reading.checkDuplicateKey cfg asts text r)
      fun members' p' _ r' => p = p' ∧ r = r' ∧
        members' = { members with seen := members.seen.map (key :: ·) } ∧
        (cfg.strictDuplicateKeys = true → text ∉ (lastWins asts).map (·.1)) := by
  have hheld := hmembers.seen
  have hstrict := hmembers.isSome_seen
  obtain ⟨entries, seen, keyIndex⟩ := members
  rw [Parser.checkDuplicateKey, Reading.checkDuplicateKey]
  cases seen with
  | none =>
      rw [Option.isSome_none] at hstrict
      rw [← hstrict, if_neg (by simp)]
      exact Prog.simulates_ok ⟨rfl, rfl, rfl, fun hfalse => by cases hfalse⟩
  | some seen =>
      rw [Option.isSome_some] at hstrict
      rw [← hstrict, Option.map_some, if_pos rfl] at hheld
      simp only [← hstrict, true_and]
      rw [Prog.bind_get, Option.some.inj hheld, hkey.1]
      simp only [List.mem_reverse]
      by_cases hmem : text ∈ asts.map (·.1)
      · rw [if_pos hmem, if_pos hmem]
        exact matches_failContext h _ _
      · rw [if_neg hmem, if_neg hmem]
        refine Prog.simulates_ok ⟨rfl, rfl, rfl, fun _ hfound => ?_⟩
        exact hmem (mem_keys_lastWins.mp hfound)

theorem matches_parseMember {element : Prog Parser Unit} {element' : Prog Reading Ast}
    (helement : Follows platform cfg w depth element element') {members : Parser.Members}
    {asts : List (Bytes × Ast)} {key : View} {text : Bytes} {keyIndex : Option KeyIndex}
    (h : Tracks w depth p r) (hmembers : HoldsMembers platform cfg p members asts)
    (hkey : HoldsText p key text)
    (hindex : ∀ value index, keyIndex = some index →
      HoldsIndex platform cfg (asts ++ [(text, value)]) index) :
    Matches w
      (Parser.parseMember element
        { members with seen := members.seen.map (key :: ·), keyIndex } key
        (((lastWins asts).map (·.1)).findIdx (· = text)) p)
      (element' r) fun members' p' value r' =>
        Step w depth p p' r' ∧ HoldsMembers platform cfg p' members' (asts ++ [(text, value)]) := by
  rw [Parser.parseMember]
  cases hentry : members.entries[((lastWins asts).map (·.1)).findIdx (· = text)]? with
  | some entry =>
      obtain ⟨first, old⟩ := entry
      refine Prog.simulates_left (matches_withElement helement h old) ?_
      rintro json p' value r' ⟨hstep, hjson⟩
      refine ⟨hstep, (hmembers.kept hstep.kept).store (hkey.kept hstep.kept) hjson ?_ (hindex value)⟩
      rw [hentry]
  | none =>
      refine Prog.simulates_left (matches_withElement helement h .null) ?_
      rintro json p' value r' ⟨hstep, hjson⟩
      refine ⟨hstep, (hmembers.kept hstep.kept).store (hkey.kept hstep.kept) hjson ?_ (hindex value)⟩
      rw [hentry]

theorem matches_objectMember {element : Prog Parser Unit} {element' : Prog Reading Ast}
    (helement : Follows platform cfg w depth element element') {members : Parser.Members}
    {asts : List (Bytes × Ast)} (h : Tracks w depth p r)
    (hmembers : HoldsMembers platform cfg p members asts) :
    Matches w (Parser.objectMember platform cfg element members p)
      (Reading.readMember Reading.skipWhitespace cfg w.tail element' asts r) fun members' p' member r' =>
        Step w depth p p' r' ∧ HoldsMembers platform cfg p' members' (asts ++ [member]) := by
  rw [Parser.objectMember, Reading.readMember]
  refine Prog.simulates_bind (matches_skipWhitespace h) fun _ p₁ _ r₁ hstep₁ => ?_
  refine Prog.simulates_bind (matches_parseKey hstep₁.tracks) ?_
  rintro key p₂ text r₂ ⟨hstep₂, hkey⟩
  have hstep := hstep₁.trans hstep₂
  rw [Prog.bind_of_ok (hkey.characters hstep₂.tracks)]
  refine Prog.simulates_bind
    (matches_checkDuplicateKey hstep₂.tracks (hmembers.kept hstep.kept) hkey) ?_
  rintro members' _ _ _ ⟨rfl, rfl, rfl, hnew⟩
  refine Prog.simulates_bind (matches_skipWhitespace hstep₂.tracks) fun _ p₃ _ r₃ hstep₃ => ?_
  refine matches_peek hstep₃.tracks ?_
  by_cases hcolon : r₃.here ≠ ascii ':'
  · rw [if_pos hcolon, if_pos hcolon]
    exact matches_failHere hstep₃.tracks _
  have hne : r₃.here ≠ 0 := by rw [not_not.mp hcolon]; decide
  obtain ⟨rest, hrest⟩ := Tracks.here_cons hne
  rw [if_neg hcolon, if_neg hcolon]
  refine matches_advance hstep₃.tracks (by rw [hrest, List.length_cons]; omega) ?_
  intro p₄ r₄ hstep₄ _ _
  replace hstep := hstep.trans (hstep₃.trans hstep₄)
  have hmembers₄ := hmembers.kept hstep.kept
  have hseen : (members.seen.map (key :: ·)).isSome = cfg.strictDuplicateKeys := by
    rw [Option.isSome_map, hmembers.isSome_seen]
  have hfind := fun value => @HoldsMembers.findPosition _ _ _ _ _
    { members with seen := members.seen.map (key :: ·) } _ value hmembers₄ hseen rfl hnew
  obtain ⟨keyIndex, hpos, _⟩ := hfind .null
  rw [Prog.bind_get, hmembers₄.keys, hpos]
  refine Prog.simulates_wrap (f := fun value => (text, value)) (Prog.simulates_mono
    (matches_parseMember helement hstep₄.tracks hmembers₄
      (hkey.kept (hstep₃.kept.trans hstep₄.kept)) ?_) ?_)
  · intro value index hsome
    obtain ⟨keyIndex', hpos', hindex⟩ := hfind value
    obtain ⟨_, rfl⟩ := Prod.mk.inj (Option.some.inj (hpos.symm.trans hpos'))
    exact hindex index hsome
  · rintro members'' p' value r' ⟨hstep', hmembers'⟩
    exact ⟨hstep.trans hstep', hmembers'⟩

theorem matches_objectLoop {element : Prog Parser Unit} {element' : Prog Reading Ast}
    (helement : Follows platform cfg w depth element element') {p₀ : Parser} {fuel fuel' : Nat}
    (hfuel : fuel' ≤ fuel) {members : Parser.Members} {asts : List (Bytes × Ast)}
    (h : Tracks w depth p r) (hkept : Kept p₀ p)
    (hmembers : HoldsMembers platform cfg p members asts) :
    Matches w (Parser.objectLoop platform cfg element fuel members p)
      (Reading.membersLoop Reading.skipWhitespace cfg w.tail element' fuel' asts r) fun _ p' asts' r' =>
        ValueStep platform cfg w depth p₀ p' (.object asts') r' := by
  induction fuel' generalizing fuel members asts p r with
  | zero => trivial
  | succ fuel' ih =>
      obtain ⟨fuel, rfl⟩ : ∃ f, fuel = f + 1 := ⟨fuel - 1, by omega⟩
      rw [Parser.objectLoop, Reading.membersLoop]
      refine Prog.simulates_bind (matches_objectMember helement h hmembers) ?_
      rintro members₁ p₁ member r₁ ⟨hstep₁, hmembers₁⟩
      refine Prog.simulates_bind (matches_skipWhitespace hstep₁.tracks) ?_
      intro _ p₂ _ r₂ hstep₂
      have hkept₂ := hkept.trans (hstep₁.kept.trans hstep₂.kept)
      have hmembers₂ := hmembers₁.kept hstep₂.kept
      rw [Prog.bind_get, Prog.bind_get, hstep₂.tracks.atEnd]
      by_cases hend : r₂.atEnd w.tail = true
      · rw [if_pos hend, if_pos hend]
        exact matches_failHere hstep₂.tracks _
      have hne := Tracks.ne_nil_of_atEnd (Bool.not_eq_true _ ▸ hend)
      rw [if_neg hend, if_neg hend, Prog.bind_of_ok hstep₂.tracks.peek]
      by_cases hclose : r₂.here = ascii '}'
      · rw [if_pos hclose, if_pos hclose]
        refine Prog.simulates_mono (matches_close hstep₂.tracks hkept₂ hne hmembers₂.holdsJson) ?_
        rintro _ p' _ r' ⟨rfl, hvalue⟩
        exact hvalue
      rw [if_neg hclose, if_neg hclose]
      by_cases hcomma : r₂.here = ascii ','
      swap
      · rw [if_neg hcomma, if_neg hcomma]
        exact matches_failHere hstep₂.tracks _
      rw [if_pos hcomma, if_pos hcomma]
      refine matches_advance hstep₂.tracks (List.length_pos_iff.mpr hne) ?_
      intro p₃ r₃ hstep₃ _ _
      refine Prog.simulates_bind (matches_closedAfterComma hstep₃.tracks _) ?_
      rintro closed p₄ _ r₄ ⟨rfl, hstep₄, hclosed⟩
      have hkept₄ := hkept₂.trans (hstep₃.kept.trans hstep₄.kept)
      have hmembers₄ := hmembers₂.kept (hstep₃.kept.trans hstep₄.kept)
      by_cases hdone : closed = true
      · rw [if_pos hdone, if_pos hdone]
        refine Prog.simulates_mono (matches_close hstep₄.tracks hkept₄ (hclosed hdone)
          hmembers₄.holdsJson) ?_
        rintro _ p' _ r' ⟨rfl, hvalue⟩
        exact hvalue
      · rw [if_neg hdone, if_neg hdone]
        exact ih (Nat.le_of_succ_le_succ hfuel) hstep₄.tracks hkept₄ hmembers₄

theorem matches_parseObjectInplace {element : Prog Parser Unit} {element' : Nat → Prog Reading Ast}
    (helement : Follows platform cfg w (depth + 1) element (element' (depth + 1)))
    (h : Tracks w depth p r) (hne : r.rest ≠ []) :
    Matches w (Parser.parseObjectInplace platform cfg element p)
      (Reading.readObject Reading.skipWhitespace cfg w.tail depth element' r) fun _ p' value r' =>
        ValueStep platform cfg w depth p p' value r' := by
  rw [Parser.parseObjectInplace, Reading.readObject, Prog.bind_get]
  have hcurr := h.curr
  have hbuffer := h.length_buffer
  simp only [kPaddingWidth] at hbuffer
  refine matches_checkDepth h ?_
  refine matches_withDepth h fun p h => ?_
  refine matches_advance h (List.length_pos_iff.mpr hne) fun p₁ r₁ hstep₁ _ _ => ?_
  refine Prog.simulates_bind (matches_skipWhitespace hstep₁.tracks) fun _ p₂ _ r₂ hstep₂ => ?_
  have hkept₂ := hstep₁.kept.trans hstep₂.kept
  refine matches_peek hstep₂.tracks ?_
  by_cases hclose : r₂.here = ascii '}'
  · obtain ⟨rest, hrest⟩ := Tracks.here_cons (r := r₂) (by rw [hclose]; decide)
    have hnil : HoldsJson platform cfg p₂ (.object []) (.object []) :=
      (HoldsMembers.init p₂).holdsJson
    rw [if_pos hclose, if_pos hclose]
    refine Prog.simulates_mono (matches_close hstep₂.tracks hkept₂ (by rw [hrest]; simp)
      hnil) ?_
    rintro _ p' _ r' ⟨rfl, hvalue⟩
    exact hvalue
  · rw [if_neg hclose, if_neg hclose, Prog.bind_get]
    have hbuffer₂ := hstep₂.tracks.length_buffer
    simp only [kPaddingWidth] at hbuffer₂
    exact Prog.simulates_wrap
      (matches_objectLoop helement (by omega) hstep₂.tracks hkept₂ (HoldsMembers.init p₂))

/-! ### Values -/

/-- A string value is written to `out`. -/
theorem matches_setString {program : Prog Parser View} {reading : Prog Reading Bytes}
    (hrun : Matches w (program p) (reading r) fun view p' text r' =>
      StringStep w depth p p' view text r') :
    Matches w ((do Parser.setOut (.string (← program))) p)
      ((do pure (.string (← reading)) : Prog Reading Ast) r) fun _ p' value r' =>
        ValueStep platform cfg w depth p p' value r' := by
  refine Prog.simulates_bind hrun ?_
  rintro view p' text r' ⟨hstep, htext⟩
  refine Prog.simulates_ok ⟨hstep.tracks.with_out _, hstep.kept.with_out _, ?_, htext.2⟩
  rw [Json.map, Ast.toJson]
  exact congrArg Json.string htext.1

theorem matches_parseValueAt {element : Prog Parser Unit} {element' : Nat → Prog Reading Ast}
    (helement : Follows platform cfg w (depth + 1) element (element' (depth + 1)))
    (h : Tracks w depth p r) (unexpected : ErrorCode) :
    Matches w (Parser.parseValueAt platform cfg element unexpected r.here p)
      (Reading.readValueAt Reading.skipWhitespace platform cfg w.tail depth element' unexpected r.here r)
      fun _ p' value r' => ValueStep platform cfg w depth p p' value r' := by
  have hne : ∀ {c : UInt8}, r.here = c → c ≠ 0 → r.rest ≠ [] := by
    rintro _ rfl hnul
    obtain ⟨rest, hrest⟩ := Tracks.here_cons hnul
    rw [hrest]
    exact List.cons_ne_nil _ _
  rw [Parser.parseValueAt, Reading.readValueAt]
  by_cases hobject : r.here = ascii '{'
  · rw [if_pos hobject, if_pos hobject]
    exact matches_parseObjectInplace helement h (hne hobject (by decide))
  rw [if_neg hobject, if_neg hobject]
  by_cases harray : r.here = ascii '['
  · rw [if_pos harray, if_pos harray]
    exact matches_parseArrayInplace helement h (hne harray (by decide))
  rw [if_neg harray, if_neg harray]
  by_cases hstring : r.here = ascii '"'
  · rw [if_pos hstring, if_pos hstring]
    exact matches_setString (matches_parseString h)
  rw [if_neg hstring, if_neg hstring]
  by_cases hliteral : r.here = ascii 't' ∨ r.here = ascii 'f' ∨ r.here = ascii 'n'
  · rw [if_pos hliteral, if_pos hliteral]
    exact matches_parseLiteral h
  rw [if_neg hliteral, if_neg hliteral]
  by_cases hnumber : r.here = ascii '-' ∨ isDigit r.here = true
  · rw [if_pos hnumber, if_pos hnumber]
    exact matches_parseNumber h
  rw [if_neg hnumber, if_neg hnumber]
  by_cases hsingle : cfg.json5 = true ∧ r.here = ascii '\''
  · rw [if_pos hsingle, if_pos hsingle]
    exact matches_setString (matches_parseStringJson5 _ h (hne hsingle.2 (by decide)))
  rw [if_neg hsingle, if_neg hsingle]
  split
  · exact matches_parseNumber h
  · exact matches_failHere h _

/-- Fuel for a level of nesting more does not hurt. -/
theorem follows_parseValueInplace (platform : Platform) (cfg : Config) (w : Window) {fuel fuel' : Nat}
    (hfuel : fuel' ≤ fuel) (depth : Nat) :
    Follows platform cfg w depth (Parser.parseValueInplace platform cfg fuel)
      (Reading.readElement Reading.skipWhitespace platform cfg w.tail fuel' depth) := by
  induction fuel' generalizing fuel depth with
  | zero => exact fun _ _ _ => trivial
  | succ fuel' ih =>
      obtain ⟨fuel, rfl⟩ : ∃ f, fuel = f + 1 := ⟨fuel - 1, by omega⟩
      intro p r h
      rw [Parser.parseValueInplace, Reading.readElement]
      refine Prog.simulates_bind (matches_skipWhitespace h) fun _ p₁ _ r₁ hstep₁ => ?_
      refine matches_peek hstep₁.tracks ?_
      refine Prog.simulates_mono (@matches_parseValueAt _ _ _ _ _ _ _
        (Reading.readElement Reading.skipWhitespace platform cfg w.tail fuel')
        (ih (Nat.le_of_succ_le_succ hfuel) (depth + 1)) hstep₁.tracks _) ?_
      intro _ p' value r' hvalue
      exact ⟨hvalue.tracks, hstep₁.kept.trans hvalue.kept, hvalue.out⟩

theorem matches_parseValue {fuel fuel' : Nat} (hfuel : fuel' ≤ fuel) (h : Tracks w 0 p r) :
    Matches w (Parser.parseValue platform cfg fuel p)
      (Reading.readValue Reading.skipWhitespace platform cfg w.tail fuel' r) fun _ p' value r' =>
        ValueStep platform cfg w 0 p p' value r' := by
  rw [Parser.parseValue, Reading.readValue]
  refine Prog.simulates_bind (matches_skipWhitespace h) fun _ p₁ _ r₁ hstep₁ => ?_
  refine matches_peek hstep₁.tracks ?_
  rw [Prog.bind_get, Prog.bind_get, hstep₁.tracks.atEnd]
  split
  · exact matches_failHere hstep₁.tracks _
  · refine Prog.simulates_mono (@matches_parseValueAt _ _ _ _ _ _ _
      (Reading.readElement Reading.skipWhitespace platform cfg w.tail fuel')
      (follows_parseValueInplace platform cfg w hfuel 1) hstep₁.tracks _) ?_
    intro _ p' value r' hvalue
    exact ⟨hvalue.tracks, hstep₁.kept.trans hvalue.kept, hvalue.out⟩

end PjhJson
