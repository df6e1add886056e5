import PjhJson.StreamPointer
import PjhJson.StreamRuns

/-! `StreamItems::next` of `stream.cpp`: of the events that the reader returns, those of the values that the prefix
names are passed on. -/

namespace PjhJson

/-- `PathFrame`, an open container; `none` is the -1 of a path that has left the prefix. -/
structure PathFrame where
  isObject : Bool := false
  matchLen : Option Nat := none
  nextIndex : Nat := 0
  deriving DecidableEq, Repr

/-- The members of `StreamItems` that `next` changes. The innermost frame comes first. -/
structure ItemsCursor where
  frames : List PathFrame := []
  pendingChildMatch : Option Nat := none
  emitting : Bool := false
  emitDepth : Nat := 0
  deriving DecidableEq, Repr

/-- A value of the innermost container is complete: `++m_frames.back().next_index` in an array. -/
def countChild : List PathFrame → List PathFrame
  | [] => []
  | f :: outer => if f.isObject then f :: outer else { f with nextIndex := f.nextIndex + 1 } :: outer

namespace StreamItems

section Next

variable (items : StreamItems)

/-- `child_match_len`. -/
def childMatchLen (c : ItemsCursor) : Option Nat :=
  match c.frames with
  | [] => some 0
  | parent :: _ => do
    let base ← parent.matchLen
    let token ← items.tokens[base]?
    if parent.isObject then c.pendingChildMatch
    else if token.kind = .any then some (base + 1)
    else if token.kind = .index ∧ token.index = parent.nextIndex then some (base + 1)
    else none

/-- What `on_map_key` leaves in `m_pending_child_match`. -/
def keyMatchLen (key : Bytes) (c : ItemsCursor) : Option Nat :=
  match c.frames with
  | [] => none
  | parent :: _ =>
    if !parent.isObject then none
    else do
      let base ← parent.matchLen
      let token ← items.tokens[base]?
      if token.kind ≠ .key then none
      else if key = items.tokenKey token then some (base + 1)
      else none

/-- `on_map_key`. -/
def onMapKey (key : Bytes) (c : ItemsCursor) : ItemsCursor :=
  { c with pendingChildMatch := items.keyMatchLen key c }

/-- A round of `next`: whether the event is passed on. -/
def step (c : ItemsCursor) (ev : JsonEvent) : ItemsCursor × Bool :=
  match ev.type with
  | .beginObject | .beginArray =>
    let isObject := ev.type == .beginObject
    if c.emitting then
      ({ c with frames := ⟨isObject, none, 0⟩ :: c.frames, emitDepth := c.emitDepth + 1 }, true)
    else
      let matchLen := items.childMatchLen c
      let frames := ⟨isObject, matchLen, 0⟩ :: c.frames
      if matchLen = some items.tokens.length then ({ c with frames, emitting := true, emitDepth := 1 }, true)
      else ({ c with frames }, false)
  | .endObject | .endArray =>
    let frames := countChild c.frames.tail
    if c.emitting then
      ({ c with frames, emitDepth := c.emitDepth - 1, emitting := c.emitDepth - 1 != 0 }, true)
    else ({ c with frames }, false)
  | .mapKey => if c.emitting then (c, true) else (items.onMapKey ev.text c, false)
  | _ =>
    if c.emitting then (c, true)
    else ({ c with frames := countChild c.frames, pendingChildMatch := none },
      items.childMatchLen c == some items.tokens.length)

/-- `next`; the reader's further events are `pulled`, and `none` is `false`. -/
def next (c : ItemsCursor) : List JsonEvent → Option (JsonEvent × ItemsCursor × List JsonEvent)
  | [] => none
  | ev :: pulled =>
    match items.step c ev with
    | (c', true) => some (ev, c', pulled)
    | (c', false) => next c' pulled

/-- The events that `count` calls of `next` return. -/
def drain (c : ItemsCursor) (pulled : List JsonEvent) : Nat → List JsonEvent
  | 0 => []
  | count + 1 =>
    match items.next c pulled with
    | none => []
    | some (ev, c', rest) => ev :: drain c' rest count

/-- All rounds over a list of events: the last state, and what is passed on. -/
def run (c : ItemsCursor) : List JsonEvent → ItemsCursor × List JsonEvent
  | [] => (c, [])
  | ev :: pulled =>
    let rest := run (items.step c ev).1 pulled
    (rest.1, if (items.step c ev).2 then ev :: rest.2 else rest.2)

end Next

/-! ### The values a prefix names -/

inductive ChildName where
  | index (i : Nat)
  | key (key : Bytes)
  deriving DecidableEq, Repr

def children : Json Bytes → List (ChildName × Json Bytes)
  | .array elements => elements.zipIdx.map fun element => (.index element.2, element.1)
  | .object entries => entries.map fun entry => (.key entry.1, entry.2)
  | _ => []

section Selected

variable (items : StreamItems)

/-- A `*` names the elements of an array, not the members of an object. -/
def names (token : PrefixToken) : ChildName → Bool
  | .index i => token.kind == .any || token.kind == .index && token.index == i
  | .key key => token.kind == .key && key == items.tokenKey token

/-- The values at the paths that the tokens name, in the order of the text. -/
def selected : List PrefixToken → Json Bytes → List (Json Bytes)
  | [], value => [value]
  | token :: rest, value =>
    (children value).flatMap fun child => if items.names token child.1 then selected rest child.2 else []

/-- The number of tokens that the path of a child has taken. -/
def childMatch (matchLen : Option Nat) (name : ChildName) : Option Nat := do
  let base ← matchLen
  let token ← items.tokens[base]?
  if items.names token name then some (base + 1) else none

def selectedAt (matchLen : Option Nat) (value : Json Bytes) : List (Json Bytes) :=
  match matchLen with
  | none => []
  | some base => items.selected (items.tokens.drop base) value

end Selected

variable {items : StreamItems}

theorem selectedAt_all (value : Json Bytes) : items.selectedAt (some items.tokens.length) value = [value] := by
  rw [selectedAt, List.drop_length, selected]

theorem childMatch_le {matchLen : Option Nat} {name : ChildName} {base : Nat}
    (h : items.childMatch matchLen name = some base) : base ≤ items.tokens.length := by
  obtain ⟨b, -, h⟩ := Option.bind_eq_some_iff.mp h
  obtain ⟨token, htoken, h⟩ := Option.bind_eq_some_iff.mp h
  obtain ⟨hlt, -⟩ := List.getElem?_eq_some_iff.mp htoken
  split at h
  · obtain rfl := Option.some.inj h
    exact hlt
  · cases h

/-- Below the prefix the search goes on in the children. -/
theorem selectedAt_children {matchLen : Option Nat} (hle : ∀ base, matchLen = some base → base ≤ items.tokens.length)
    (hne : matchLen ≠ some items.tokens.length) (value : Json Bytes) :
    items.selectedAt matchLen value =
      (children value).flatMap fun child => items.selectedAt (items.childMatch matchLen child.1) child.2 := by
  cases matchLen with
  | none => simp [selectedAt, childMatch]
  | some base =>
      have hlt : base < items.tokens.length := lt_of_le_of_ne (hle base rfl) fun heq => hne (congrArg some heq)
      rw [selectedAt, List.drop_eq_getElem_cons hlt, selected]
      congr 1
      funext child
      have hchild : items.childMatch (some base) child.1 =
          if items.names items.tokens[base] child.1 then some (base + 1) else none := by
        simp [childMatch, hlt]
      rw [hchild]
      split
      · rfl
      · rfl

/-! ### Runs -/

theorem run_append {c c' c'' : ItemsCursor} {pulled more out out' : List JsonEvent} (h : items.run c pulled = (c', out))
    (hmore : items.run c' more = (c'', out')) : items.run c (pulled ++ more) = (c'', out ++ out') := by
  induction pulled generalizing c out with
  | nil =>
      cases h
      exact hmore
  | cons ev pulled ih =>
      rw [run] at h
      obtain ⟨rfl, rfl⟩ := Prod.mk.inj h
      rw [List.cons_append, run, ih rfl]
      split
      · rfl
      · rfl

theorem run_next (c : ItemsCursor) (pulled : List JsonEvent) :
    (items.run c pulled).2 = match items.next c pulled with
      | none => []
      | some (ev, c', rest) => ev :: (items.run c' rest).2 := by
  induction pulled generalizing c with
  | nil => rfl
  | cons ev pulled ih =>
      rw [run, next]
      cases hstep : items.step c ev with
      | mk c' emitted =>
          cases emitted with
          | true => rfl
          | false => exact ih c'

theorem drain_eq (c : ItemsCursor) (pulled : List JsonEvent) (count : Nat) :
    items.drain c pulled count = (items.run c pulled).2.take count := by
  induction count generalizing c pulled with
  | zero => rfl
  | succ count ih =>
      rw [drain, run_next]
      cases items.next c pulled with
      | none => rfl
      | some result => exact congrArg _ (ih _ _)

theorem isPrefix_run (c : ItemsCursor) (pulled more : List JsonEvent) :
    (items.run c pulled).2 <+: (items.run c (pulled ++ more)).2 := by
  rw [run_append (Prod.mk.eta).symm (Prod.mk.eta).symm]
  exact List.prefix_append _ _

def opening (isObject : Bool) : JsonEvent := { type := cond isObject .beginObject .beginArray }

def closing (isObject : Bool) : JsonEvent := { type := cond isObject .endObject .endArray }

/-! ### Inside a value that is passed on -/

theorem step_opening_emitting (isObject : Bool) (frames : List PathFrame) (pending : Option Nat) (depth : Nat) :
    items.step ⟨frames, pending, true, depth⟩ (opening isObject) =
      (⟨⟨isObject, none, 0⟩ :: frames, pending, true, depth + 1⟩, true) := by
  cases isObject <;> rfl

theorem step_closing_emitting (isObject : Bool) (f : PathFrame) (frames : List PathFrame) (pending : Option Nat)
    (depth : Nat) : items.step ⟨f :: frames, pending, true, depth + 1⟩ (closing isObject) =
      (⟨countChild frames, pending, depth != 0, depth⟩, true) := by
  cases isObject <;> rfl

/-- All of these events are passed on; the frames outside the innermost one stay. -/
def Emits (items : StreamItems) (events : List JsonEvent) : Prop :=
  ∀ (f : PathFrame) (outer : List PathFrame) (pending : Option Nat) (depth : Nat), ∃ f',
    items.run ⟨f :: outer, pending, true, depth + 1⟩ events = (⟨f' :: outer, pending, true, depth + 1⟩, events)

theorem Emits.append {events more : List JsonEvent} (h : Emits items events) (hmore : Emits items more) :
    Emits items (events ++ more) := by
  intro f outer pending depth
  obtain ⟨f₁, hrun⟩ := h f outer pending depth
  obtain ⟨f₂, hrun'⟩ := hmore f₁ outer pending depth
  exact ⟨f₂, run_append hrun hrun'⟩

theorem emits_flatMap {α : Type} {xs : List α} {g : α → List JsonEvent} (h : ∀ x ∈ xs, Emits items (g x)) :
    Emits items (xs.flatMap g) := by
  induction xs with
  | nil => exact fun f _ _ _ => ⟨f, rfl⟩
  | cons x xs ih =>
      obtain ⟨hx, hxs⟩ := List.forall_mem_cons.mp h
      rw [List.flatMap_cons]
      exact hx.append (ih hxs)

theorem emits_container (isObject : Bool) {inner : List JsonEvent} (hinner : Emits items inner) :
    Emits items (opening isObject :: (inner ++ [closing isObject])) := by
  intro f outer pending depth
  obtain ⟨g, hg⟩ : ∃ g, countChild (f :: outer) = g :: outer := by
    rw [countChild]
    split
    · exact ⟨_, rfl⟩
    · exact ⟨_, rfl⟩
  obtain ⟨f', hrun⟩ := hinner ⟨isObject, none, 0⟩ (f :: outer) pending (depth + 1)
  have hlast : items.run ⟨f' :: f :: outer, pending, true, depth + 1 + 1⟩ [closing isObject] =
      (⟨g :: outer, pending, true, depth + 1⟩, [closing isObject]) := by
    rw [run, step_closing_emitting, hg]
    rfl
  refine ⟨g, ?_⟩
  rw [run, step_opening_emitting, run_append hrun hlast]
  rfl

theorem emits_entryEvents {entry : Bytes × Json Bytes} (h : Emits items entry.2.events) :
    Emits items (Json.entryEvents entry) := by
  have hkey : Emits items [keyEvent entry.1] := fun f _ _ _ => ⟨f, rfl⟩
  exact hkey.append h

theorem emits_value (value : Json Bytes) : Emits items value.events := by
  induction value using Json.induct with
  | array elements ih =>
      rw [Json.events_array]
      exact emits_container false (emits_flatMap ih)
  | object entries ih =>
      rw [Json.events_object]
      exact emits_container true (emits_flatMap fun entry hmem => emits_entryEvents (ih entry hmem))
  | _ => exact fun f _ _ _ => ⟨f, rfl⟩

/-! ### On the way to one -/

theorem step_opening (isObject : Bool) (frames : List PathFrame) (pending : Option Nat) :
    items.step ⟨frames, pending, false, 0⟩ (opening isObject) =
      if items.childMatchLen ⟨frames, pending, false, 0⟩ = some items.tokens.length then
        (⟨⟨isObject, items.childMatchLen ⟨frames, pending, false, 0⟩, 0⟩ :: frames, pending, true, 1⟩, true)
      else (⟨⟨isObject, items.childMatchLen ⟨frames, pending, false, 0⟩, 0⟩ :: frames, pending, false, 0⟩, false) := by
  cases isObject <;> rfl

theorem step_closing (isObject : Bool) (f : PathFrame) (frames : List PathFrame) (pending : Option Nat) :
    items.step ⟨f :: frames, pending, false, 0⟩ (closing isObject) =
      (⟨countChild frames, pending, false, 0⟩, false) := by
  cases isObject <;> rfl

theorem run_emitted (isObject : Bool) {inner : List JsonEvent} (hinner : Emits items inner) {frames : List PathFrame}
    {pending : Option Nat} (hmatch : items.childMatchLen ⟨frames, pending, false, 0⟩ = some items.tokens.length) :
    items.run ⟨frames, pending, false, 0⟩ (opening isObject :: (inner ++ [closing isObject])) =
      (⟨countChild frames, pending, false, 0⟩, opening isObject :: (inner ++ [closing isObject])) := by
  obtain ⟨f', hrun⟩ := hinner ⟨isObject, some items.tokens.length, 0⟩ frames pending 0
  have hlast : items.run ⟨f' :: frames, pending, true, 0 + 1⟩ [closing isObject] =
      (⟨countChild frames, pending, false, 0⟩, [closing isObject]) := by
    rw [run, step_closing_emitting]
    rfl
  rw [run, step_opening, if_pos hmatch, hmatch, run_append hrun hlast]
  rfl

theorem run_searched (isObject : Bool) {inner out : List JsonEvent} {frames : List PathFrame} {f' : PathFrame}
    {pending pending' matchLen : Option Nat} (hmatch : items.childMatchLen ⟨frames, pending, false, 0⟩ = matchLen)
    (hne : matchLen ≠ some items.tokens.length)
    (hinner : items.run ⟨⟨isObject, matchLen, 0⟩ :: frames, pending, false, 0⟩ inner =
      (⟨f' :: frames, pending', false, 0⟩, out)) :
    items.run ⟨frames, pending, false, 0⟩ (opening isObject :: (inner ++ [closing isObject])) =
      (⟨countChild frames, pending', false, 0⟩, out) := by
  have hlast : items.run ⟨f' :: frames, pending', false, 0⟩ [closing isObject] =
      (⟨countChild frames, pending', false, 0⟩, []) := by
    rw [run, step_closing]
    rfl
  have hrun := run_append hinner hlast
  rw [List.append_nil] at hrun
  rw [run, step_opening, hmatch, if_neg hne]
  exact hrun

theorem childMatchLen_index (matchLen pending : Option Nat) (i : Nat) (outer : List PathFrame) :
    items.childMatchLen ⟨⟨false, matchLen, i⟩ :: outer, pending, false, 0⟩ = items.childMatch matchLen (.index i) := by
  cases matchLen with
  | none => rfl
  | some base =>
      simp only [childMatchLen, childMatch, names, Option.bind_eq_bind, Option.bind_some]
      congr 1
      funext token
      by_cases hany : token.kind = .any
      · simp [hany]
      · simp [hany]

theorem childMatchLen_key (matchLen : Option Nat) (key : Bytes) (i : Nat) (outer : List PathFrame) :
    items.childMatchLen ⟨⟨true, matchLen, i⟩ :: outer, items.childMatch matchLen (.key key), false, 0⟩ =
      items.childMatch matchLen (.key key) := by
  cases matchLen with
  | none => rfl
  | some base =>
      simp only [childMatchLen, childMatch, Option.bind_eq_bind, Option.bind_some, if_true]
      cases items.tokens[base]? with
      | none => rfl
      | some token => rfl

theorem keyMatchLen_eq (matchLen pending : Option Nat) (key : Bytes) (i : Nat) (outer : List PathFrame) :
    items.keyMatchLen key ⟨⟨true, matchLen, i⟩ :: outer, pending, false, 0⟩ = items.childMatch matchLen (.key key) := by
  cases matchLen with
  | none => rfl
  | some base =>
      simp only [keyMatchLen, childMatch, names, Option.bind_eq_bind, Option.bind_some]
      rw [if_neg (by decide)]
      congr 1
      funext token
      by_cases hkind : token.kind = .key
      · simp [hkind]
      · simp [hkind]

/-- What a run over a value passes on, and where it stands then. -/
def Searches (items : StreamItems) (value : Json Bytes) : Prop :=
  ∀ (frames : List PathFrame) (pending matchLen : Option Nat),
    items.childMatchLen ⟨frames, pending, false, 0⟩ = matchLen →
    (∀ base, matchLen = some base → base ≤ items.tokens.length) → ∃ pending',
      items.run ⟨frames, pending, false, 0⟩ value.events =
        (⟨countChild frames, pending', false, 0⟩, (items.selectedAt matchLen value).flatMap Json.events)

theorem searches_scalar {value : Json Bytes} {event : JsonEvent} (hevents : value.events = [event])
    (hchildren : children value = [])
    (hstep : ∀ (frames : List PathFrame) (pending : Option Nat), items.step ⟨frames, pending, false, 0⟩ event =
      (⟨countChild frames, none, false, 0⟩,
        items.childMatchLen ⟨frames, pending, false, 0⟩ == some items.tokens.length)) : Searches items value := by
  intro frames pending matchLen hmatch hle
  refine ⟨none, ?_⟩
  rw [hevents, run, hstep, hmatch]
  by_cases hall : matchLen = some items.tokens.length
  · subst hall
    rw [selectedAt_all]
    simp [run, hevents]
  · rw [selectedAt_children hle hall, hchildren]
    simp [run, hall]

theorem run_elements {elements : List (Json Bytes)} (h : ∀ value ∈ elements, Searches items value)
    (outer : List PathFrame) (matchLen : Option Nat) (i : Nat) (pending : Option Nat) : ∃ pending',
      items.run ⟨⟨false, matchLen, i⟩ :: outer, pending, false, 0⟩ (elements.flatMap Json.events) =
        (⟨⟨false, matchLen, i + elements.length⟩ :: outer, pending', false, 0⟩,
          (elements.zipIdx i).flatMap fun element =>
            (items.selectedAt (items.childMatch matchLen (.index element.2)) element.1).flatMap Json.events) := by
  induction elements generalizing i pending with
  | nil => exact ⟨pending, rfl⟩
  | cons value elements ih =>
      obtain ⟨hvalue, hrest⟩ := List.forall_mem_cons.mp h
      obtain ⟨pending₁, hrun⟩ := hvalue _ pending _ (childMatchLen_index matchLen pending i outer)
        fun _ => childMatch_le
      obtain ⟨pending₂, hrun'⟩ := ih hrest (i + 1) pending₁
      refine ⟨pending₂, ?_⟩
      rw [List.flatMap_cons, run_append hrun hrun', List.zipIdx_cons, List.flatMap_cons, List.length_cons,
        Nat.add_right_comm, Nat.add_assoc]

theorem run_entries {entries : List (Bytes × Json Bytes)} (h : ∀ entry ∈ entries, Searches items entry.2)
    (outer : List PathFrame) (matchLen pending : Option Nat) : ∃ pending',
      items.run ⟨⟨true, matchLen, 0⟩ :: outer, pending, false, 0⟩ (entries.flatMap Json.entryEvents) =
        (⟨⟨true, matchLen, 0⟩ :: outer, pending', false, 0⟩,
          entries.flatMap fun entry =>
            (items.selectedAt (items.childMatch matchLen (.key entry.1)) entry.2).flatMap Json.events) := by
  induction entries generalizing pending with
  | nil => exact ⟨pending, rfl⟩
  | cons entry entries ih =>
      obtain ⟨hvalue, hrest⟩ := List.forall_mem_cons.mp h
      have hkey : items.run ⟨⟨true, matchLen, 0⟩ :: outer, pending, false, 0⟩ [keyEvent entry.1] =
          (⟨⟨true, matchLen, 0⟩ :: outer, items.childMatch matchLen (.key entry.1), false, 0⟩, []) := by
        rw [← keyMatchLen_eq matchLen pending entry.1 0 outer]
        rfl
      obtain ⟨pending₁, hrun⟩ := hvalue _ _ _ (childMatchLen_key matchLen entry.1 0 outer) fun _ => childMatch_le
      obtain ⟨pending₂, hrun'⟩ := ih hrest pending₁
      refine ⟨pending₂, ?_⟩
      rw [List.flatMap_cons, List.flatMap_cons]
      exact run_append (run_append hkey hrun) hrun'

/-- A run over a value, by induction on the value. -/
theorem searches_value (value : Json Bytes) : Searches items value := by
  induction value using Json.induct with
  | array elements ih =>
      intro frames pending matchLen hmatch hle
      rw [Json.events_array]
      by_cases hall : matchLen = some items.tokens.length
      · subst hall
        refine ⟨pending, ?_⟩
        rw [selectedAt_all, List.flatMap_singleton, Json.events_array]
        exact run_emitted false (emits_flatMap fun value _ => emits_value value) hmatch
      · obtain ⟨pending', hrun⟩ := run_elements ih frames matchLen 0 pending
        refine ⟨pending', ?_⟩
        rw [selectedAt_children hle hall, children, List.flatMap_map, List.flatMap_assoc]
        exact run_searched false hmatch hall hrun
  | object entries ih =>
      intro frames pending matchLen hmatch hle
      rw [Json.events_object]
      by_cases hall : matchLen = some items.tokens.length
      · subst hall
        refine ⟨pending, ?_⟩
        rw [selectedAt_all, List.flatMap_singleton, Json.events_object]
        exact run_emitted true (emits_flatMap fun entry _ => emits_entryEvents (emits_value entry.2)) hmatch
      · obtain ⟨pending', hrun⟩ := run_entries ih frames matchLen pending
        refine ⟨pending', ?_⟩
        rw [selectedAt_children hle hall, children, List.flatMap_map, List.flatMap_assoc]
        exact run_searched true hmatch hall hrun
  | _ => exact searches_scalar rfl rfl fun _ _ => rfl

theorem run_roots (roots : List (Json Bytes)) (pending : Option Nat) : ∃ pending',
    items.run ⟨[], pending, false, 0⟩ (roots.flatMap Json.events) =
      (⟨[], pending', false, 0⟩, (roots.flatMap (items.selected items.tokens)).flatMap Json.events) := by
  induction roots generalizing pending with
  | nil => exact ⟨pending, rfl⟩
  | cons value roots ih =>
      obtain ⟨pending₁, hrun⟩ := searches_value value [] pending (some 0) rfl
        (by rintro _ h; cases h; exact Nat.zero_le _)
      obtain ⟨pending₂, hrun'⟩ := ih pending₁
      refine ⟨pending₂, ?_⟩
      rw [List.flatMap_cons, List.flatMap_cons, List.flatMap_append]
      exact run_append hrun hrun'

theorem run_values (items : StreamItems) (roots : List (Json Bytes)) : (items.run {} (roots.flatMap Json.events)).2 =
    (roots.flatMap (items.selected items.tokens)).flatMap Json.events := by
  obtain ⟨pending, hrun⟩ := @run_roots items roots none
  exact congrArg Prod.snd hrun

/-! ### On the reader -/

section Reader

variable {σ : Type} (items : StreamItems) (reader : Prog σ Unit) (slot : σ → JsonEvent)

/-- `next` on the reader: it is called until one of its events is passed on. -/
def pull : Nat → Prog (ItemsCursor × σ) Unit
  | 0 => .stuck
  | fuel + 1 => fun (c, s) =>
    match reader s with
    | .error s => .error (c, s)
    | .stuck => .stuck
    | .ok (_, s) =>
      match items.step c (slot s) with
      | (c', true) => .ok ((), (c', s))
      | (c', false) => pull fuel (c', s)

variable {items reader slot} {events : List JsonEvent} {c : ItemsCursor} {s q : σ} {fuel : Nat}

/-- One call is `next` on the events that the reader has left. -/
theorem pull_next (h : Prog.LeadsTo reader slot (reader s) events (.error q)) (hfuel : events.length < fuel) :
    match items.next c events with
    | some (ev, c', rest) => ∃ s', items.pull reader slot fuel (c, s) = .ok ((), (c', s')) ∧ slot s' = ev ∧
        Prog.LeadsTo reader slot (reader s') rest (.error q) ∧ rest.length ≤ events.length
    | none => ∃ c', items.pull reader slot fuel (c, s) = .error (c', q) := by
  induction events generalizing c s fuel with
  | nil =>
      obtain ⟨fuel, rfl⟩ : ∃ f, fuel = f + 1 := ⟨fuel - 1, by omega⟩
      have hrun : reader s = .error q := by
        generalize reader s = run at h
        cases h
        rfl
      refine ⟨c, ?_⟩
      rw [pull]
      simp only [hrun]
  | cons ev events ih =>
      obtain ⟨fuel, rfl⟩ : ∃ f, fuel = f + 1 := ⟨fuel - 1, by omega⟩
      obtain ⟨s', hrun, hev, hleads⟩ : ∃ s', reader s = .ok ((), s') ∧ slot s' = ev ∧
          Prog.LeadsTo reader slot (reader s') events (.error q) := by
        generalize reader s = run at h
        cases h with
        | step hleads => exact ⟨_, rfl, rfl, hleads⟩
      rw [next, pull]
      simp only [hrun, hev]
      cases hstep : items.step c ev with
      | mk c' passed =>
          cases passed with
          | true => exact ⟨s', rfl, hev, hleads, Nat.le_succ _⟩
          | false =>
              have hfuel' : events.length < fuel := by
                rw [List.length_cons] at hfuel
                omega
              have hnext := ih (c := c') hleads hfuel'
              dsimp only
              cases hfound : items.next c' events with
              | none =>
                  rw [hfound] at hnext
                  exact hnext
              | some result =>
                  rw [hfound] at hnext
                  obtain ⟨s'', hpull, hslot, hleads', hle⟩ := hnext
                  exact ⟨s'', hpull, hslot, hleads', Nat.le_succ_of_le hle⟩

/-- The calls of `next` on a reader return what `drain` returns of the events that the reader returns, and `false` from
then on. -/
theorem calls_pull (h : Prog.LeadsTo reader slot (reader s) events (.error q)) (hstop : reader q = .error q)
    (hfuel : events.length < fuel) (count : Nat) : ∃ state,
      Prog.calls (items.pull reader slot fuel) (fun state => slot state.2) (c, s) count =
        some ((items.drain c events count).map some ++
          List.replicate (count - (items.drain c events count).length) none, state) := by
  obtain ⟨passed, hpassed⟩ : ∃ passed, passed = (items.run c events).2 := ⟨_, rfl⟩
  have hcalls : ∃ c' s' rest,
      Prog.calls (items.pull reader slot fuel) (fun state => slot state.2) (c, s) count =
        some ((passed.take count).map some ++ List.replicate (count - passed.length) none, (c', s')) ∧
      Prog.LeadsTo reader slot (reader s') rest (.error q) ∧ rest.length ≤ events.length ∧
      passed.drop count = (items.run c' rest).2 := by
    induction count with
    | zero => exact ⟨c, s, events, by simp [Prog.calls], h, Nat.le_refl _, hpassed⟩
    | succ count ih =>
        obtain ⟨c', s', rest, hlog, hleads, hle, hdrop⟩ := ih
        have hnext := @pull_next _ items _ _ _ c' _ _ _ hleads (Nat.lt_of_le_of_lt hle hfuel)
        rw [run_next] at hdrop
        rw [Prog.calls, hlog]
        simp only
        cases hfound : items.next c' rest with
        | none =>
            rw [hfound] at hnext hdrop
            obtain ⟨c'', hpull⟩ := hnext
            have hshort : passed.length ≤ count := List.drop_eq_nil_iff.mp hdrop
            refine ⟨c'', q, [], ?_, hstop ▸ .refl _, Nat.zero_le _, ?_⟩
            · simp only [hpull]
              rw [List.take_of_length_le hshort, List.take_of_length_le (Nat.le_succ_of_le hshort),
                Nat.succ_sub hshort, List.replicate_succ', List.append_assoc]
            · rw [List.drop_eq_nil_iff.mpr (Nat.le_succ_of_le hshort)]
              rfl
        | some result =>
            obtain ⟨ev, c'', rest'⟩ := result
            rw [hfound] at hnext hdrop
            obtain ⟨s'', hpull, hslot, hleads', hle'⟩ := hnext
            have hlong : count < passed.length := by
              by_contra hshort
              rw [List.drop_eq_nil_iff.mpr (Nat.not_lt.mp hshort)] at hdrop
              cases hdrop
            obtain ⟨hget, hrest⟩ := List.cons.inj ((List.drop_eq_getElem_cons hlong).symm.trans hdrop)
            refine ⟨c'', s'', rest', ?_, hleads', hle'.trans hle, hrest⟩
            simp only [hpull, hslot]
            rw [Nat.sub_eq_zero_of_le (Nat.le_of_lt hlong), Nat.sub_eq_zero_of_le hlong,
              ← List.take_append_getElem hlong, hget]
            simp
  obtain ⟨c', s', -, hlog, -⟩ := hcalls
  refine ⟨(c', s'), ?_⟩
  rw [hlog, drain_eq, ← hpassed, List.length_take]
  congr 4
  omega

end Reader

/-- `items` on a reader that has come to its end, cleanly or not: the calls of `next` return what `drain` returns of
the events pulled. -/
theorem calls_reader (items : StreamItems) {platform : Platform} {cfg : Config} {mode : StreamMode} {input : Bytes}
    {chunkSize pulls failures : Nat} {events : List JsonEvent} {s : StreamReader}
    (h : StreamReader.pulls platform cfg mode input chunkSize pulls =
      some (events.map some ++ List.replicate (failures + 1) none, s))
    {fuel : Nat} (hfuel : events.length < fuel) (count : Nat) : ∃ state,
      Prog.calls (items.pull (StreamReader.next platform) StreamReader.out fuel) (fun state => state.2.out)
          ({}, StreamReader.create cfg mode chunkSize { rest := input }) count =
        some ((items.drain {} events count).map some ++
          List.replicate (count - (items.drain {} events count).length) none, state) := by
  obtain ⟨q, hleads⟩ := Prog.leadsTo_failure h
  have hends : StreamReader.pulls platform cfg mode input chunkSize (events.length + 1) =
      some (events.map some ++ [none], q) := Prog.calls_ends hleads
  obtain ⟨events', failures', q', -, hrun, -, -, -, -, -, -, hstop⟩ :=
    pulls_events platform cfg mode input chunkSize (events.length + 1)
  obtain ⟨hlog, rfl⟩ := Prod.mk.inj (Option.some.inj (hends.symm.trans hrun))
  have hfailed : 0 < failures' := by
    by_contra hnone
    rw [Nat.eq_zero_of_not_pos hnone, List.replicate_zero, List.append_nil] at hlog
    have hmem : (none : Option JsonEvent) ∈ events'.map some :=
      hlog ▸ List.mem_append_right _ List.mem_cons_self
    simp at hmem
  exact calls_pull hleads (hstop hfailed) hfuel count

/-- `items` on a reader of any bytes: the events pulled are the beginning of the events of a list of values. Those
that the calls of `next` return are the beginning of the events of the values that the prefix names in them and, when
the reader has come to a clean end, all of them. -/
theorem drain_pulls (items : StreamItems) (platform : Platform) (cfg : Config) (mode : StreamMode) (input : Bytes)
    (chunkSize pulls : Nat) :
    ∃ (events : List JsonEvent) (failures : Nat) (s : StreamReader) (values : List (Json Bytes)),
      StreamReader.pulls platform cfg mode input chunkSize pulls =
          some (events.map some ++ List.replicate failures none, s) ∧
        events <+: values.flatMap Json.events ∧
        (∀ count, items.drain {} events count <+:
          (values.flatMap (items.selected items.tokens)).flatMap Json.events) ∧
        (s.mFinished = true → events = values.flatMap Json.events ∧ ∀ count, items.drain {} events count =
          ((values.flatMap (items.selected items.tokens)).flatMap Json.events).take count) := by
  obtain ⟨log, s, p, hrun, hmodel, hsynced⟩ := pulls_synced platform cfg mode input chunkSize pulls
  obtain ⟨h, failures, p', hmodel', ht, -⟩ := Pull.pulls_tell platform cfg mode input pulls
  obtain ⟨rfl, rfl⟩ := Prod.mk.inj (Option.some.inj (hmodel.symm.trans hmodel'))
  obtain ⟨values, hbegins, -, hclosed⟩ := History.events_prefix h.roots h.opens ht.nested.takes_tail
  refine ⟨h.events, failures, s, values, hrun, hbegins, fun count => ?_, fun hfinished => ?_⟩
  · obtain ⟨more, hmore⟩ := hbegins
    have hbeginning := @isPrefix_run items {} h.events more
    rw [hmore, run_values] at hbeginning
    rw [drain_eq]
    refine List.IsPrefix.trans ?_ hbeginning
    exact List.take_prefix _ _
  · obtain ⟨-, hnil, -⟩ := ht.finished (hsynced.finished.symm.trans hfinished)
    have hopens : h.opens = [] := by
      apply List.eq_nil_of_length_eq_zero
      rw [← ht.nested.length_eq, hnil, List.length_nil]
    have hevents : h.events = values.flatMap Json.events := by
      rw [hclosed hopens, History.events, hopens, List.reverse_nil, List.flatMap_nil, List.append_nil]
    rw [hevents]
    refine ⟨rfl, fun count => ?_⟩
    rw [drain_eq, run_values]

end StreamItems

end PjhJson
