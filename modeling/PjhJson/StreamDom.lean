import PjhJson.RefineText
import PjhJson.StreamHistory
import PjhJson.StreamStrings

/-! The machine of events follows the recursive parser: where the parser returns from a value, the machine
has emitted the events of it and stands in the same place, and where the parser fails, so does the
machine. -/

namespace PjhJson

open Grammar Reading

namespace Ast

mutual

/-- The value with every member of the text, given the value of each number token. -/
def spelled (numberOf : Bytes → Number) : Ast → Json Bytes
  | null => .null
  | boolean value => .boolean value
  | number token => (numberOf token).toJson
  | string value => .string value
  | array elements => .array (spelledElements numberOf elements)
  | object members => .object (spelledMembers numberOf members)

def spelledElements (numberOf : Bytes → Number) : List Ast → List (Json Bytes)
  | [] => []
  | value :: rest => value.spelled numberOf :: spelledElements numberOf rest

def spelledMembers (numberOf : Bytes → Number) : List (Bytes × Ast) → List (Bytes × Json Bytes)
  | [] => []
  | (key, value) :: rest => (key, value.spelled numberOf) :: spelledMembers numberOf rest

end

variable (numberOf : Bytes → Number)

theorem spelledElements_eq (elements : List Ast) :
    spelledElements numberOf elements = elements.map (·.spelled numberOf) := by
  induction elements with
  | nil => rfl
  | cons value rest ih => rw [spelledElements, ih, List.map_cons]

theorem spelledMembers_eq (members : List (Bytes × Ast)) :
    spelledMembers numberOf members = members.map fun member => (member.1, member.2.spelled numberOf) := by
  induction members with
  | nil => rfl
  | cons member rest ih => rw [spelledMembers, ih, List.map_cons]

/-- The events of a text with this tree. -/
def events (value : Ast) : List JsonEvent := (value.spelled numberOf).events

/-- The events of a member. -/
def memberEvents (member : Bytes × Ast) : List JsonEvent := keyEvent member.1 :: member.2.events numberOf

theorem events_array (elements : List Ast) : (array elements).events numberOf =
    { type := .beginArray } :: (elements.flatMap (events numberOf) ++ [{ type := .endArray }]) := by
  rw [events, spelled, Json.events_array, spelledElements_eq, List.flatMap_map]
  rfl

theorem events_object (members : List (Bytes × Ast)) : (object members).events numberOf =
    { type := .beginObject } :: (members.flatMap (memberEvents numberOf) ++ [{ type := .endObject }]) := by
  rw [events, spelled, Json.events_object, spelledMembers_eq, List.flatMap_map]
  rfl

end Ast

/-! ### Pulls of a running machine -/

/-- The machine is inside its value. -/
structure Inside (p : Pull) : Prop where
  failure : p.failure = none
  finished : p.finished = false
  root : p.rootDone = false
  begun : p.started = true

/-- A value ends here. -/
def Pull.complete (p : Pull) : Pull :=
  match p.stack with
  | [] => { p with rootDone := true }
  | f :: outer => { p with stack := f.completed :: outer }

theorem Frame.kind_completed (f : Frame) : f.completed.kind = f.kind := by
  rw [Frame.completed]
  split <;> rfl

theorem completeValue_eq (p : Pull) : Pull.completeValue p = .ok ((), p.complete) := by
  cases hstack : p.stack with
  | nil => rw [Pull.completeValue_root hstack, Pull.complete, hstack]
  | cons f outer => rw [Pull.completeValue_inner hstack, Pull.complete, hstack]

theorem out_complete (p : Pull) : p.complete.out = p.out := by
  rw [Pull.complete]
  split <;> rfl

variable {platform : Platform} {cfg : Config} {mode : StreamMode} {p : Pull} {f : Frame} {outer : List Frame}

theorem next_started (hp : p.started = true) :
    Pull.next platform cfg mode p = Pull.nextLoop platform cfg mode 2 p := by
  rw [Pull.next, Pull.skipStartBom, Prog.bind_modify, if_pos hp]

theorem Inside.not_stopped (hp : Inside p) : ¬(p.failure.isSome || p.finished) = true := by
  rw [hp.failure, hp.finished]
  exact Bool.false_ne_true

theorem Inside.running (hp : Inside p) : p.halted = false := by
  rw [Pull.halted, hp.failure, hp.finished]
  rfl

section Phases

variable {fuel : Nat} (hp : Inside p) (hstack : p.stack = f :: outer)

include hp hstack

theorem nextLoop_objectKeyOrEnd (hphase : f.phase = .objectKeyOrEnd) :
    Pull.nextLoop platform cfg mode (fuel + 1) p = Pull.objectKey cfg true p := by
  rw [Pull.nextLoop, Prog.bind_get, if_neg hp.not_stopped, hp.root, if_neg Bool.false_ne_true]
  simp only [hstack, hphase]

theorem nextLoop_objectKey (hphase : f.phase = .objectKey) :
    Pull.nextLoop platform cfg mode (fuel + 1) p = Pull.objectKey cfg false p := by
  rw [Pull.nextLoop, Prog.bind_get, if_neg hp.not_stopped, hp.root, if_neg Bool.false_ne_true]
  simp only [hstack, hphase]

theorem nextLoop_objectColon (hphase : f.phase = .objectColon) :
    Pull.nextLoop platform cfg mode (fuel + 1) p =
      (Pull.objectColon >>= fun _ => Pull.nextLoop platform cfg mode fuel) p := by
  rw [Pull.nextLoop, Prog.bind_get, if_neg hp.not_stopped, hp.root, if_neg Bool.false_ne_true]
  simp only [hstack, hphase]

theorem nextLoop_value (hphase : f.phase = .objectValue ∨ f.phase = .arrayValue) :
    Pull.nextLoop platform cfg mode (fuel + 1) p = Pull.expectValue platform cfg false p := by
  rw [Pull.nextLoop, Prog.bind_get, if_neg hp.not_stopped, hp.root, if_neg Bool.false_ne_true]
  rcases hphase with hphase | hphase <;> simp only [hstack, hphase]

theorem nextLoop_objectCommaOrEnd (hphase : f.phase = .objectCommaOrEnd) :
    Pull.nextLoop platform cfg mode (fuel + 1) p =
      (Pull.objectCommaOrEnd >>= fun ended =>
        if ended then pure () else Pull.nextLoop platform cfg mode fuel) p := by
  rw [Pull.nextLoop, Prog.bind_get, if_neg hp.not_stopped, hp.root, if_neg Bool.false_ne_true]
  simp only [hstack, hphase]

theorem nextLoop_arrayValueOrEnd (hphase : f.phase = .arrayValueOrEnd) :
    Pull.nextLoop platform cfg mode (fuel + 1) p = Pull.arrayValueOrEnd platform cfg p := by
  rw [Pull.nextLoop, Prog.bind_get, if_neg hp.not_stopped, hp.root, if_neg Bool.false_ne_true]
  simp only [hstack, hphase]

theorem nextLoop_arrayCommaOrEnd (hphase : f.phase = .arrayCommaOrEnd) :
    Pull.nextLoop platform cfg mode (fuel + 1) p =
      (Pull.arrayCommaOrEnd >>= fun ended =>
        if ended then pure () else Pull.nextLoop platform cfg mode fuel) p := by
  rw [Pull.nextLoop, Prog.bind_get, if_neg hp.not_stopped, hp.root, if_neg Bool.false_ne_true]
  simp only [hstack, hphase]

end Phases

/-! ### Following a reading -/

/-- The machine fails as the parser does, but for what a string hides: the machine looks for the closing
quote before it looks at anything else, and at the encoding before it looks for control bytes. -/
def SameFailure (cfg : Config) (failure found : Failure) : Prop :=
  found = failure ∨ found = { code := .unterminatedString, left := some 0 } ∨
    cfg.strictUtf8 = true ∧ found.code ∈ utf8Codes ∧ ∃ left left',
      failure = { code := .unescapedControl, left := some left } ∧
      found = { code := found.code, left := some left' } ∧ left ≤ left'

/-- The machine that goes on with `run` follows the reading: what the reading returns and what is left,
the events, and the outcome of the pull behind them satisfy `done`. -/
def Streams (platform : Platform) (cfg : Config) {α : Type} (reading : Res Reading (α × Reading))
    (run : Res Pull (Unit × Pull))
    (done : α → Bytes → List JsonEvent → Res Pull (Unit × Pull) → Prop) : Prop :=
  match reading with
  | .ok (a, r) => r.failure = none ∧ ∃ events last,
      Prog.LeadsTo (Pull.next platform cfg .singleRoot) Pull.out run events last ∧ done a r.rest events last
  | .error r => ∃ events q,
      Prog.LeadsTo (Pull.next platform cfg .singleRoot) Pull.out run events (.error q) ∧
        q.finished = false ∧ ∃ failure found, r.failure = some failure ∧ q.failure = some found ∧
          SameFailure cfg failure found
  | .stuck => True

section Rules

variable {α β : Type} {run : Res Pull (Unit × Pull)}
  {done : α → Bytes → List JsonEvent → Res Pull (Unit × Pull) → Prop}

theorem streams_ok {a : α} {rest : Bytes} (h : done a rest [] run) :
    Streams platform cfg (.ok (a, { rest })) run done :=
  ⟨rfl, [], run, .refl run, h⟩

theorem streams_bind {reading : Prog Reading α} {r : Reading} {next : α → Prog Reading β}
    {final : β → Bytes → List JsonEvent → Res Pull (Unit × Pull) → Prop}
    (h : Streams platform cfg (reading r) run done)
    (hnext : ∀ a rest events last, done a rest events last →
      Streams platform cfg (next a { rest }) last fun b rest' more last' =>
        final b rest' (events ++ more) last') :
    Streams platform cfg ((reading >>= next) r) run final := by
  rw [Prog.bind_apply]
  cases hreading : reading r with
  | stuck => trivial
  | error r' =>
      rw [hreading] at h
      exact h
  | ok result =>
      obtain ⟨a, rest, failure⟩ := result
      rw [hreading] at h
      obtain ⟨rfl, events, last, hleads, hdone⟩ := h
      have hstreams := hnext a rest events last hdone
      rw [Res.ok_bind]
      simp only
      cases hrest : next a { rest } with
      | stuck => trivial
      | error r' =>
          rw [hrest] at hstreams
          obtain ⟨more, q, hleads', hsame⟩ := hstreams
          exact ⟨_, q, hleads.trans hleads', hsame⟩
      | ok result' =>
          rw [hrest] at hstreams
          obtain ⟨hfailure, more, last', hleads', hfinal⟩ := hstreams
          exact ⟨hfailure, _, last', hleads.trans hleads', hfinal⟩

/-- The pull emits an event, and the next one goes on with the reading. -/
theorem streams_step {q : Pull} {reading : Res Reading (α × Reading)}
    (h : Streams platform cfg reading (Pull.next platform cfg .singleRoot q) fun a rest events last =>
      done a rest (q.out :: events) last) :
    Streams platform cfg reading (.ok ((), q)) done := by
  cases reading with
  | stuck => trivial
  | error r =>
      obtain ⟨events, q', hleads, hsame⟩ := h
      exact ⟨_, q', .step hleads, hsame⟩
  | ok result =>
      obtain ⟨hfailure, events, last, hleads, hdone⟩ := h
      exact ⟨hfailure, _, last, .step hleads, hdone⟩

theorem streams_mono {reading : Res Reading (α × Reading)}
    {final : α → Bytes → List JsonEvent → Res Pull (Unit × Pull) → Prop}
    (h : Streams platform cfg reading run done)
    (hdone : ∀ a rest events last, done a rest events last → final a rest events last) :
    Streams platform cfg reading run final := by
  cases reading with
  | stuck => trivial
  | error r => exact h
  | ok result =>
      obtain ⟨hfailure, events, last, hleads, hlast⟩ := h
      exact ⟨hfailure, events, last, hleads, hdone _ _ _ _ hlast⟩

theorem streams_error (hp : Inside p) {r : Reading} {failure found : Failure}
    (hfailure : r.failure = some failure) (hsame : SameFailure cfg failure found) :
    Streams platform cfg (.error r : Res Reading (α × Reading))
      (.error { p with failure := some found }) done :=
  ⟨[], _, .refl _, hp.finished, failure, found, hfailure, rfl, hsame⟩

theorem streams_failed (hp : Inside p) (rest : Bytes) (code : ErrorCode) (left : Nat) :
    Streams platform cfg ((Reading.fail code left : Prog Reading α) { rest })
      (.error { p with failure := some { code, left := some left } }) done :=
  streams_error hp (r := { rest, failure := some { code, left := some left } }) rfl (.inl rfl)

theorem streams_fail (hp : Inside p) (rest : Bytes) (code : ErrorCode) (left : Nat) :
    Streams platform cfg ((Reading.fail code left : Prog Reading α) { rest })
      ((Pull.fail code left : Prog Pull Unit) p) done := by
  rw [fail_of_running hp.running]
  exact streams_failed hp rest code left

theorem streams_failHere {rest : Bytes} (hp : Inside p) (hrest : p.rest = rest) (code : ErrorCode) :
    Streams platform cfg ((Reading.failHere code : Prog Reading α) { rest })
      ((Pull.failHere code : Prog Pull Unit) p) done := by
  rw [Reading.failHere, Pull.failHere, Prog.bind_get, Prog.bind_get, hrest]
  exact streams_fail hp rest code rest.length

end Rules

/-! ### Tokens -/

theorem Inside.with_rest (hp : Inside p) (rest : Bytes) : Inside { p with rest } :=
  ⟨hp.failure, hp.finished, hp.root, hp.begun⟩

/-- Behind a value that began at `p`. -/
def ValueDone (platform : Platform) (cfg : Config) (p : Pull) (value : Ast) (rest : Bytes)
    (events : List JsonEvent) (last : Res Pull (Unit × Pull)) : Prop :=
  events = value.events (tokenNumber platform cfg) ∧ ∃ out,
    last = Pull.next platform cfg .singleRoot (Pull.complete { p with rest, out })

/-- Behind a scalar. -/
theorem streams_scalar {value : Ast} {rest : Bytes} {event : JsonEvent}
    (hevents : value.events (tokenNumber platform cfg) = [event]) :
    Streams platform cfg (.ok (value, { rest })) (Pull.completeValue { p with rest, out := event })
      (ValueDone platform cfg p) := by
  rw [completeValue_eq]
  refine streams_step (streams_ok ⟨?_, event, rfl⟩)
  rw [out_complete, hevents]

theorem streams_stringToken (hjson5 : cfg.json5 = false) (hp : Inside p) {text : Bytes}
    {next : Bytes → Prog Pull Unit} :
    Streams platform cfg (readString cfg 0 { rest := ascii '"' :: text })
      ((Pull.stringToken cfg.strictUtf8 >>= next) { p with rest := ascii '"' :: text })
      fun value rest events last => events = [] ∧ last = next value { p with rest } := by
  have hread : readString cfg 0 { rest := ascii '"' :: text } = readStringBody cfg 0 { rest := text } := by
    rw [readString, Prog.bind_get, if_neg (by simp [atEnd]), bind_peek]
    simp only [here, List.headD_cons, hjson5, ne_eq, not_true_eq_false, if_false, Bool.false_eq_true]
    rfl
  rw [hread, Prog.bind_apply, Pull.stringToken, Pull.advance, Prog.bind_modify, Prog.bind_get]
  simp only [List.drop_succ_cons, List.drop_zero]
  cases hraw : Pull.rawContent false text with
  | none =>
      obtain ⟨r, failure, hrun, hfailure⟩ := readStringBody_open cfg hraw
      have hinside : Inside { p with rest := [] } := hp.with_rest []
      simp only
      rw [hrun, Pull.moveTo, Prog.bind_modify, fail_of_running hinside.running]
      exact streams_error hinside hfailure (.inr (.inl rfl))
  | some content =>
      obtain ⟨raw, rest⟩ := content
      have hinside : Inside { p with rest } := hp.with_rest rest
      simp only
      rw [Pull.moveTo, Prog.bind_modify]
      rcases decodes_readStringBody cfg hraw with hdecodes | hhidden
      · cases hcontent : Pull.decodeContent cfg.strictUtf8 raw with
        | stuck => exact absurd hcontent (decodeContent_ne_stuck _ _)
        | ok value =>
            rw [hcontent] at hdecodes
            rw [show readStringBody cfg 0 { rest := text } = _ from hdecodes]
            exact streams_ok ⟨rfl, rfl⟩
        | error failure =>
            obtain ⟨code, pos⟩ := failure
            rw [hcontent] at hdecodes
            obtain ⟨r, hrun, hfailure⟩ := hdecodes
            rw [hrun]
            cases pos with
            | none =>
                rw [Pull.ofContent, failContext_of_running hinside.running]
                exact streams_error hinside hfailure (.inl rfl)
            | some pos =>
                rw [Pull.ofContent, fail_of_running hinside.running]
                exact streams_error hinside hfailure (.inl rfl)
      · obtain ⟨hstrict, code, pos, left, r, hcontent, hcode, hrun, hfailure, hle⟩ := hhidden
        rw [hrun, hcontent, Pull.ofContent, fail_of_running hinside.running]
        exact streams_error hinside hfailure (.inr (.inr ⟨hstrict, hcode, left, _, rfl, rfl, hle⟩))

/-- The literal that a first byte announces, if it is there. -/
theorem literalHere_eq (platform : Platform) (cfg : Config) {c : UInt8}
    (hc : c = ascii 't' ∨ c = ascii 'f' ∨ c = ascii 'n') (text : Bytes) :
    ∃ value : Ast, value.events (tokenNumber platform cfg) = [StreamReader.literalEvent c] ∧
      literalHere { rest := c :: text } =
        if (c :: text).take (StreamReader.literalOf c).length = StreamReader.literalOf c then
          some (value, (StreamReader.literalOf c).length) else none := by
  rcases hc with rfl | rfl | rfl
  · refine ⟨.boolean true, rfl, ?_⟩
    have hnull : (ascii 't' :: text).take 4 ≠ kNull := fun h => absurd (List.cons.inj h).1 (by decide)
    have hfalse : (ascii 't' :: text).take 5 ≠ kFalse := fun h => absurd (List.cons.inj h).1 (by decide)
    rw [literalHere, if_neg hnull, if_neg hfalse]
    rfl
  · refine ⟨.boolean false, rfl, ?_⟩
    have htrue : (ascii 'f' :: text).take 4 ≠ kTrue := fun h => absurd (List.cons.inj h).1 (by decide)
    have hnull : (ascii 'f' :: text).take 4 ≠ kNull := fun h => absurd (List.cons.inj h).1 (by decide)
    rw [literalHere, if_neg htrue, if_neg hnull]
    rfl
  · refine ⟨.null, rfl, ?_⟩
    have htrue : (ascii 'n' :: text).take 4 ≠ kTrue := fun h => absurd (List.cons.inj h).1 (by decide)
    have hfalse : (ascii 'n' :: text).take 5 ≠ kFalse := fun h => absurd (List.cons.inj h).1 (by decide)
    rw [literalHere, if_neg htrue, if_neg hfalse]
    rfl

theorem streams_literal (hjson5 : cfg.json5 = false) (hp : Inside p) {c : UInt8} {text : Bytes}
    (hc : c = ascii 't' ∨ c = ascii 'f' ∨ c = ascii 'n') (hrest : p.rest = c :: text) :
    Streams platform cfg (readLiteral cfg { rest := c :: text })
      ((Pull.literal >>= fun _ => Pull.completeValue) p) (ValueDone platform cfg p) := by
  obtain ⟨value, hevents, hhere⟩ := literalHere_eq platform cfg hc text
  have hpeek : Pull.peek p = .ok (c, p) := by rw [Pull.peek, hrest]; rfl
  rw [readLiteral, Prog.bind_get, hhere, Prog.bind_apply, Pull.literal, Prog.bind_of_ok hpeek, Prog.bind_get,
    hrest]
  split
  · simp only
    rw [Reading.advance, Prog.bind_modify, Pull.advance, Prog.bind_modify, bind_peek, hjson5, Bool.false_or,
      isAfterLiteral_eq, hrest, Prog.bind_apply, Pull.checkAfterLiteral, Prog.bind_get]
    generalize List.drop _ (c :: text) = rest
    have hinside : Inside { p with rest } := hp.with_rest rest
    cases rest with
    | nil =>
        have hnul : Parser.kValidAfterLiteral (here { rest := [] }) = true := by decide
        rw [if_pos hnul, if_neg (by simp)]
        exact streams_scalar hevents
    | cons d more =>
        by_cases hvalid : Parser.kValidAfterLiteral (here { rest := d :: more }) = true
        · rw [if_pos hvalid, if_neg fun h => absurd (hvalid.symm.trans h.2) (by decide)]
          exact streams_scalar hevents
        · rw [if_neg hvalid, if_pos ⟨List.cons_ne_nil _ _, Bool.eq_false_iff.mpr hvalid⟩, Pull.failHere,
            Prog.bind_get, fail_of_running hinside.running]
          exact streams_failed hinside _ _ _
  · simp only
    rw [Pull.failHere, Prog.bind_get, fail_of_running hp.running, hrest]
    exact streams_failed (hp.with_rest (c :: text)) _ _ _

theorem streams_number (hjson5 : cfg.json5 = false) (hp : Inside p) {text : Bytes} (hrest : p.rest = text) :
    Streams platform cfg (readNumber platform cfg 0 { rest := text })
      ((Pull.number platform >>= fun _ => Pull.completeValue) p) (ValueDone platform cfg p) := by
  have hbody : Reading.body 0 { rest := text } = text := by rw [body, Nat.sub_zero, List.take_length]
  have htoken : parseNumberToken platform cfg text = scanAndClassify platform text := by
    rw [parseNumberToken, hjson5, if_neg Bool.false_ne_true]
  have hlength := length_scanAndClassify_le platform text
  rw [readNumber, Prog.bind_get, hbody, htoken, Prog.bind_apply, Pull.number, Prog.bind_get, hrest]
  cases hscan : scanAndClassify platform text with
  | error failure =>
      obtain ⟨code, anchor⟩ := failure
      rw [hscan] at hlength
      have hleft : text.length - (text.length - anchor.length) = anchor.length := Nat.sub_sub_self hlength
      simp only [hleft]
      rw [fail_of_running hp.running]
      exact streams_failed hp _ _ _
  | ok result =>
      obtain ⟨number, rest⟩ := result
      have hnumber := tokenNumber_between platform (htoken.trans hscan)
      obtain ⟨parts, hsplit, -, -⟩ := (scanAndClassify_eq_ok platform).mp hscan
      have hdrop : text.drop (text.length - rest.length) = rest := by
        rw [hsplit, List.length_append, Nat.add_sub_cancel, List.drop_left]
      simp only
      rw [advanceTo, Prog.bind_modify, hbody]
      simp only [hdrop]
      refine streams_scalar ?_
      rw [Ast.events, Ast.spelled, hnumber, numberEvent_events]

/-! ### Values -/

/-- A reader of elements that the machine follows, wherever a value may begin at this depth. -/
def Followed (platform : Platform) (cfg : Config) (depth : Nat) (element : Prog Reading Ast) : Prop :=
  ∀ p : Pull, Inside p → p.stack.length = depth →
    Streams platform cfg (element { rest := p.rest }) (Pull.expectValue platform cfg false p)
      (ValueDone platform cfg p)

/-- The machine in a container that began at `p`. -/
def Pull.within (p : Pull) (f : Frame) (rest : Bytes) (out : JsonEvent) : Pull :=
  { p with rest, stack := f :: p.stack, out }

theorem Inside.within (hp : Inside p) (f : Frame) (rest : Bytes) (out : JsonEvent) :
    Inside (p.within f rest out) :=
  ⟨hp.failure, hp.finished, hp.root, hp.begun⟩

theorem complete_within (p : Pull) (f : Frame) (rest rest' : Bytes) (out out' : JsonEvent) :
    Pull.complete { p.within f rest out with rest := rest', out := out' } = p.within f.completed rest' out' := rfl

theorem skipWhitespace_rfc (hjson5 : cfg.json5 = false) {α : Type} (rest : Bytes)
    (next : Unit → Prog Reading α) :
    (skipWhitespace cfg 0 >>= next) { rest } = next () { rest := rest.dropWhile isWhitespace } := by
  rw [skipWhitespace, hjson5, if_neg Bool.false_ne_true, Prog.bind_modify]

/-- The bracket that ends a container. -/
theorem endContainer_within (p : Pull) (f : Frame) (c : UInt8) (rest : Bytes) (out : JsonEvent)
    (type : EventType) :
    Pull.endContainer type (p.within f (c :: rest) out) =
      .ok ((), Pull.complete { p with rest, out := { type } }) := by
  rw [Pull.endContainer, Pull.advance, Prog.bind_modify, Prog.bind_modify, Pull.setOut, Prog.bind_modify,
    completeValue_eq]
  rfl

/-- Behind a container that began at `p`, whose items are what `items` and `new` hold. -/
def ContainerDone (platform : Platform) (cfg : Config) (p : Pull) {α : Type} (itemEvents : α → List JsonEvent)
    (type : EventType) (items all : List α) (rest : Bytes) (events : List JsonEvent)
    (last : Res Pull (Unit × Pull)) : Prop :=
  (∃ new, all = items ++ new ∧ events = new.flatMap itemEvents ++ [({ type } : JsonEvent)]) ∧
    ∃ out, last = Pull.next platform cfg .singleRoot (Pull.complete { p with rest, out })

theorem streams_closed {α : Type} {itemEvents : α → List JsonEvent} {items : List α} {item : α}
    {rest : Bytes} {type : EventType} :
    Streams platform cfg (.ok (items ++ [item], { rest }))
      (.ok ((), Pull.complete { p with rest, out := { type } }))
      fun all rest' events last => ContainerDone platform cfg p itemEvents type items all rest'
        (itemEvents item ++ events) last := by
  refine streams_step (streams_ok ⟨⟨[item], rfl, ?_⟩, _, rfl⟩)
  rw [out_complete, List.flatMap_singleton]

theorem ContainerDone.cons {α : Type} {itemEvents : α → List JsonEvent} {items all : List α} {item : α}
    {rest : Bytes} {events : List JsonEvent} {last : Res Pull (Unit × Pull)} {type : EventType}
    (h : ContainerDone platform cfg p itemEvents type (items ++ [item]) all rest events last) :
    ContainerDone platform cfg p itemEvents type items all rest (itemEvents item ++ events) last := by
  obtain ⟨⟨new, hall, hevents⟩, hlast⟩ := h
  refine ⟨⟨item :: new, ?_, ?_⟩, hlast⟩
  · rw [hall, List.append_assoc, List.singleton_append]
  · rw [hevents, List.flatMap_cons, List.append_assoc]

section CommaOrEnd

variable {close : UInt8} {type : EventType} {atEnd unexpected : ErrorCode} {phase : Frame.Phase}
  {rest more : Bytes} {out : JsonEvent}

theorem skipWs_within {β : Type} (p : Pull) (f : Frame) (rest : Bytes) (out : JsonEvent)
    (next : Pull → Prog Pull β) :
    (Pull.skipWs >>= fun _ => Prog.get >>= next) (p.within f rest out) =
      next (p.within f (rest.dropWhile isWhitespace) out) (p.within f (rest.dropWhile isWhitespace) out) := rfl

@[simp] theorem rest_within (p : Pull) (f : Frame) (rest : Bytes) (out : JsonEvent) :
    (p.within f rest out).rest = rest := rfl

theorem peek_within {β : Type} (p : Pull) (f : Frame) (c : UInt8) (rest : Bytes) (out : JsonEvent)
    (next : UInt8 → Prog Pull β) :
    (Pull.peek >>= next) (p.within f (c :: rest) out) = next c (p.within f (c :: rest) out) := rfl

theorem failHere_within {α : Type} (hp : Inside p) (code : ErrorCode) :
    (Pull.failHere code : Prog Pull α) (p.within f rest out) =
      .error { p.within f rest out with failure := some { code, left := some rest.length } } :=
  fail_of_running (hp.within f rest out).running _ _

theorem commaOrEnd_atEnd (hp : Inside p) (hrest : rest.dropWhile isWhitespace = []) :
    Pull.commaOrEnd close type atEnd unexpected phase (p.within f rest out) =
      .error { p.within f [] out with failure := some { code := atEnd, left := some 0 } } := by
  rw [Pull.commaOrEnd, skipWs_within, hrest, if_pos (rest_within p f [] out), failHere_within hp]
  rfl

theorem commaOrEnd_close (hrest : rest.dropWhile isWhitespace = close :: more) :
    Pull.commaOrEnd close type atEnd unexpected phase (p.within f rest out) =
      .ok (true, Pull.complete { p with rest := more, out := { type } }) := by
  rw [Pull.commaOrEnd, skipWs_within, hrest, rest_within, if_neg (List.cons_ne_nil _ _), peek_within, if_pos rfl,
    Prog.bind_of_ok (endContainer_within p f close more out type)]
  rfl

theorem commaOrEnd_comma (hclose : ascii ',' ≠ close) (hrest : rest.dropWhile isWhitespace = ascii ',' :: more) :
    Pull.commaOrEnd close type atEnd unexpected phase (p.within f rest out) =
      .ok (false, p.within { f with phase } more out) := by
  rw [Pull.commaOrEnd, skipWs_within, hrest, rest_within, if_neg (List.cons_ne_nil _ _), peek_within,
    if_neg hclose, if_pos rfl]
  rfl

theorem commaOrEnd_other (hp : Inside p) {c : UInt8} (hclose : c ≠ close) (hcomma : c ≠ ascii ',')
    (hrest : rest.dropWhile isWhitespace = c :: more) :
    Pull.commaOrEnd close type atEnd unexpected phase (p.within f rest out) =
      .error { p.within f (c :: more) out with
        failure := some { code := unexpected, left := some (c :: more).length } } := by
  rw [Pull.commaOrEnd, skipWs_within, hrest, rest_within, if_neg (List.cons_ne_nil _ _), peek_within,
    if_neg hclose, if_neg hcomma, failHere_within hp]

end CommaOrEnd

theorem closedAfterComma_rfc (hjson5 : cfg.json5 = false) {α : Type} (c : UInt8) (r : Reading)
    (next : Bool → Prog Reading α) : (closedAfterComma skipWhitespace cfg 0 c >>= next) r = next false r := by
  rw [closedAfterComma, hjson5, if_neg Bool.false_ne_true]
  rfl

theorem streams_elementsLoop (hjson5 : cfg.json5 = false) (hp : Inside p) {element : Prog Reading Ast}
    (helement : Followed platform cfg (p.stack.length + 1) element) {fuel : Nat} {elements : List Ast}
    (hkind : f.kind = .array) {rest : Bytes} {out : JsonEvent} :
    Streams platform cfg (elementsLoop skipWhitespace cfg 0 element fuel elements { rest })
      (Pull.expectValue platform cfg false (p.within f rest out))
      (ContainerDone platform cfg p (Ast.events (tokenNumber platform cfg)) .endArray elements) := by
  induction fuel generalizing f rest out elements with
  | zero => trivial
  | succ fuel ih =>
      rw [elementsLoop]
      refine streams_bind (helement (p.within f rest out) (hp.within f rest out) rfl) ?_
      rintro value rest' events last ⟨rfl, out', rfl⟩
      rw [skipWhitespace_rfc hjson5, complete_within, next_started (hp.within _ _ _).begun,
        nextLoop_arrayCommaOrEnd (hp.within _ _ _) rfl (by rw [Frame.completed, hkind]), bind_peek]
      cases hrest : rest'.dropWhile isWhitespace with
      | nil =>
          rw [Pull.arrayCommaOrEnd, Prog.bind_of_error (commaOrEnd_atEnd hp hrest)]
          exact streams_failed (hp.within _ _ _) _ _ _
      | cons c more =>
          rw [here, List.headD_cons]
          by_cases hclose : c = ascii ']'
          · subst hclose
            rw [if_pos rfl, Pull.arrayCommaOrEnd, Prog.bind_of_ok (commaOrEnd_close hrest)]
            exact streams_closed
          by_cases hcomma : c = ascii ','
          · subst hcomma
            rw [if_neg hclose, if_pos rfl, Pull.arrayCommaOrEnd, Prog.bind_of_ok (commaOrEnd_comma hclose hrest),
              if_neg Bool.false_ne_true, nextLoop_value (hp.within _ _ _) rfl (.inr rfl), advance,
              Prog.bind_modify, closedAfterComma_rfc hjson5, if_neg Bool.false_ne_true]
            have hnext := @ih { f.completed with phase := .arrayValue } (elements ++ [value])
              (f.kind_completed.trans hkind) more out'
            exact streams_mono hnext fun _ _ _ _ => ContainerDone.cons
          · rw [if_neg hclose, if_neg hcomma, Pull.arrayCommaOrEnd,
              Prog.bind_of_error (commaOrEnd_other hp hclose hcomma hrest)]
            exact streams_failed (hp.within _ _ _) _ _ _

/-- The bracket that begins a container. -/
theorem streams_beginContainer {α : Type} {depth : Nat} (hp : Inside p) (hdepth : p.stack.length = depth)
    {c : UInt8} {text : Bytes} (hrest : p.rest = c :: text) {kind : Frame.Kind} {type : EventType}
    {next : Unit → Prog Reading α} {done : α → Bytes → List JsonEvent → Res Pull (Unit × Pull) → Prop}
    (hnext : Streams platform cfg (next () { rest := text })
      (Pull.next platform cfg .singleRoot (p.within (Frame.opened kind) text { type }))
      fun a rest events last => done a rest ({ type } :: events) last) :
    Streams platform cfg ((checkDepth cfg depth >>= fun _ => advance 1 >>= next) { rest := p.rest })
      (Pull.beginContainer cfg kind type p) done := by
  rw [checkDepth, Pull.beginContainer, Prog.bind_get, hdepth]
  split
  · exact streams_failHere hp rfl _
  · rw [Prog.bind_modify, Pull.advance, Prog.bind_modify, Pull.setOut, Prog.modify_apply]
    simp only [hrest, List.drop_succ_cons, List.drop_zero]
    exact streams_step hnext

/-- A container that ends where it begins. -/
theorem streams_empty {value : Ast} {rest : Bytes} {type : EventType} {first : JsonEvent}
    (hevents : value.events (tokenNumber platform cfg) = [first, { type }]) :
    Streams platform cfg (.ok (value, { rest })) (.ok ((), Pull.complete { p with rest, out := { type } }))
      fun value' rest' events last => ValueDone platform cfg p value' rest' (first :: events) last := by
  refine streams_step (streams_ok ⟨?_, _, rfl⟩)
  rw [hevents, out_complete]

theorem expectValue_nil (p : Pull) (f : Frame) (out : JsonEvent) :
    Pull.expectValue platform cfg false (p.within f [] out) =
      (Pull.failHere .unexpectedCharacter : Prog Pull Unit) (p.within f [] out) := by
  rw [Pull.expectValue, skipWs_within]
  rfl

theorem streams_readArray (hjson5 : cfg.json5 = false) (hp : Inside p) {depth : Nat} {text : Bytes}
    (hdepth : p.stack.length = depth) (hrest : p.rest = ascii '[' :: text)
    {element : Nat → Prog Reading Ast} (helement : Followed platform cfg (depth + 1) (element (depth + 1))) :
    Streams platform cfg (readArray skipWhitespace cfg 0 depth element { rest := p.rest })
      (Pull.beginContainer cfg .array .beginArray p) (ValueDone platform cfg p) := by
  have hin := fun rest out => hp.within (Frame.opened .array) rest out
  have hloop : ∀ fuel rest out, Streams platform cfg
      ((elementsLoop skipWhitespace cfg 0 (element (depth + 1)) fuel [] >>= fun elements =>
        pure (.array elements)) { rest })
      (Pull.expectValue platform cfg false (p.within (Frame.opened .array) rest out))
      fun value rest' events last => ValueDone platform cfg p value rest' ({ type := .beginArray } :: events) last := by
    intro fuel rest out
    refine streams_bind (streams_elementsLoop hjson5 hp (hdepth ▸ helement) rfl) ?_
    rintro elements rest' events last ⟨⟨new, rfl, rfl⟩, hlast⟩
    refine streams_ok ⟨?_, hlast⟩
    rw [Ast.events_array, List.append_nil]
  rw [readArray, Prog.bind_get]
  refine streams_beginContainer hp hdepth hrest ?_
  rw [next_started (hin _ _).begun, nextLoop_arrayValueOrEnd (hin _ _) rfl rfl, Pull.arrayValueOrEnd,
    skipWs_within, skipWhitespace_rfc hjson5, Prog.bind_apply, atByte, Prog.bind_get]
  cases htext : text.dropWhile isWhitespace with
  | nil =>
      rw [rest_within, if_pos rfl, ← expectValue_nil]
      exact hloop _ [] _
  | cons c more =>
      have hend : ¬atEnd 0 { rest := c :: more } = true := by simp [atEnd]
      rw [rest_within, if_neg (List.cons_ne_nil _ _), peek_within, if_neg hend]
      by_cases hclose : c = ascii ']'
      · subst hclose
        rw [if_pos rfl, endContainer_within]
        have hempty : (Ast.array []).events (tokenNumber platform cfg) =
          [{ type := .beginArray }, { type := .endArray }] := rfl
        exact streams_empty hempty
      · have hfound : (here { rest := c :: more } == ascii ']') = false := beq_eq_false_iff_ne.mpr hclose
        rw [if_neg hclose, hfound]
        exact hloop _ _ _

/-! ### Objects -/

section Members

variable {phase : Frame.Phase} {rest : Bytes} {out : JsonEvent}

theorem checkDuplicateKey_off (hduplicates : cfg.strictDuplicateKeys = false) {α : Type}
    (members : List (Bytes × Ast)) (key : Bytes) (r : Reading) (next : Unit → Prog Reading α) :
    (checkDuplicateKey cfg members key >>= next) r = next () r := by
  rw [checkDuplicateKey, hduplicates, if_neg (by simp)]
  rfl

/-- The machine behind the key of a member, in front of its colon. -/
theorem streams_memberValue (hjson5 : cfg.json5 = false) (hp : Inside p) {element : Prog Reading Ast}
    (helement : Followed platform cfg (p.stack.length + 1) element) (key : Bytes) :
    Streams platform cfg
      ((skipWhitespace cfg 0 >>= fun _ => peek >>= fun c =>
        if c ≠ ascii ':' then failHere .expectedColon
        else advance 1 >>= fun _ => element >>= fun value => pure (key, value)) { rest })
      (Pull.next platform cfg .singleRoot (p.within { kind := .object, phase := .objectColon } rest out))
      fun member rest' events last =>
        keyEvent key :: events = Ast.memberEvents (tokenNumber platform cfg) member ∧
        ∃ out', last = Pull.next platform cfg .singleRoot
          (p.within { kind := .object, phase := .objectCommaOrEnd } rest' out') := by
  rw [skipWhitespace_rfc hjson5, bind_peek, next_started (hp.within _ _ _).begun,
    nextLoop_objectColon (hp.within _ _ _) rfl rfl, Prog.bind_apply, Pull.objectColon, skipWs_within]
  cases hrest : rest.dropWhile isWhitespace with
  | nil =>
      have hhere : here { rest := [] } ≠ ascii ':' := by decide
      rw [rest_within, if_pos rfl, if_pos hhere, failHere_within hp]
      exact streams_failed (hp.within _ _ _) _ _ _
  | cons c more =>
      rw [rest_within, if_neg (List.cons_ne_nil _ _), peek_within, here, List.headD_cons]
      by_cases hcolon : c = ascii ':'
      · have hpass : (Pull.advance 1 >>= fun _ => Pull.setPhase .objectValue)
            (p.within { kind := .object, phase := .objectColon } (c :: more) out) =
              .ok ((), p.within { kind := .object, phase := .objectValue } more out) := rfl
        rw [if_neg (not_not.mpr hcolon), if_neg (not_not.mpr hcolon), hpass, Res.ok_bind,
          nextLoop_value (hp.within _ _ _) rfl (.inl rfl), advance, Prog.bind_modify]
        refine streams_bind (helement (p.within _ more out) (hp.within _ _ _) rfl) ?_
        rintro value rest' events last ⟨rfl, out', rfl⟩
        refine streams_ok ⟨?_, out', rfl⟩
        rw [List.append_nil, Ast.memberEvents]
      · rw [if_pos hcolon, if_pos hcolon, failHere_within hp]
        exact streams_failed (hp.within _ _ _) _ _ _

theorem readKey_rfc (hjson5 : cfg.json5 = false) (r : Reading) :
    readKey cfg 0 r =
      if r.here ≠ ascii '"' then (failHere .expectedStringKey : Prog Reading Bytes) r else readString cfg 0 r := by
  rw [readKey, Prog.bind_get, if_neg (by simp [hjson5])]
  split <;> rfl

theorem streams_readKey (hjson5 : cfg.json5 = false) (hp : Inside p) {mayEnd : Bool}
    (hend : ∀ more, rest.dropWhile isWhitespace = ascii '}' :: more → mayEnd = false) :
    Streams platform cfg (readKey cfg 0 { rest := rest.dropWhile isWhitespace })
      (Pull.objectKey cfg mayEnd (p.within { kind := .object, phase } rest out))
      fun key rest' events last => events = [] ∧
        last = .ok ((), p.within { kind := .object, phase := .objectColon } rest' (keyEvent key)) := by
  rw [Pull.objectKey, skipWs_within, readKey_rfc hjson5]
  cases hrest : rest.dropWhile isWhitespace with
  | nil =>
      have hhere : here { rest := [] } ≠ ascii '"' := by decide
      rw [rest_within, if_pos rfl, if_pos hhere, failHere_within hp]
      exact streams_failed (hp.within _ _ _) _ _ _
  | cons c more =>
      rw [rest_within, if_neg (List.cons_ne_nil _ _), peek_within, here, List.headD_cons]
      have hbrace : ¬(c = ascii '}' ∧ mayEnd = true) := by
        rintro ⟨rfl, hmay⟩
        exact absurd (hmay.symm.trans (hend more hrest)) (by decide)
      rw [if_neg hbrace]
      by_cases hquote : c = ascii '"'
      · subst hquote
        rw [if_neg (not_not.mpr rfl), if_neg (not_not.mpr rfl)]
        refine streams_mono (streams_stringToken hjson5 (hp.within _ [] out)) ?_
        rintro key rest' events last ⟨rfl, rfl⟩
        exact ⟨rfl, rfl⟩
      · rw [if_pos hquote, if_pos hquote, failHere_within hp]
        exact streams_failed (hp.within _ _ _) _ _ _

theorem streams_readMember (hjson5 : cfg.json5 = false) (hduplicates : cfg.strictDuplicateKeys = false)
    (hp : Inside p) {element : Prog Reading Ast}
    (helement : Followed platform cfg (p.stack.length + 1) element) {members : List (Bytes × Ast)}
    {mayEnd : Bool} (hend : ∀ more, rest.dropWhile isWhitespace = ascii '}' :: more → mayEnd = false) :
    Streams platform cfg (readMember skipWhitespace cfg 0 element members { rest })
      (Pull.objectKey cfg mayEnd (p.within { kind := .object, phase } rest out))
      fun member rest' events last => events = Ast.memberEvents (tokenNumber platform cfg) member ∧
        ∃ out', last = Pull.next platform cfg .singleRoot
          (p.within { kind := .object, phase := .objectCommaOrEnd } rest' out') := by
  rw [readMember, skipWhitespace_rfc hjson5]
  refine streams_bind (streams_readKey hjson5 hp hend) ?_
  rintro key rest' events last ⟨rfl, rfl⟩
  rw [checkDuplicateKey_off hduplicates]
  refine streams_step (streams_mono (streams_memberValue hjson5 hp helement key) ?_)
  exact fun _ _ _ _ h => h

theorem streams_membersLoop (hjson5 : cfg.json5 = false) (hduplicates : cfg.strictDuplicateKeys = false)
    (hp : Inside p) {element : Prog Reading Ast}
    (helement : Followed platform cfg (p.stack.length + 1) element) {fuel : Nat} {members : List (Bytes × Ast)}
    {mayEnd : Bool} (hend : ∀ more, rest.dropWhile isWhitespace = ascii '}' :: more → mayEnd = false) :
    Streams platform cfg (membersLoop skipWhitespace cfg 0 element fuel members { rest })
      (Pull.objectKey cfg mayEnd (p.within { kind := .object, phase } rest out))
      (ContainerDone platform cfg p (Ast.memberEvents (tokenNumber platform cfg)) .endObject members) := by
  induction fuel generalizing phase rest out members mayEnd with
  | zero => trivial
  | succ fuel ih =>
      rw [membersLoop]
      refine streams_bind (streams_readMember hjson5 hduplicates hp helement hend) ?_
      rintro member rest' events last ⟨rfl, out', rfl⟩
      rw [skipWhitespace_rfc hjson5, next_started (hp.within _ _ _).begun,
        nextLoop_objectCommaOrEnd (hp.within _ _ _) rfl rfl, Prog.bind_get]
      cases hrest : rest'.dropWhile isWhitespace with
      | nil =>
          have hempty : atEnd 0 { rest := [] } = true := rfl
          rw [Pull.objectCommaOrEnd, Prog.bind_of_error (commaOrEnd_atEnd hp hrest), if_pos hempty]
          exact streams_failed (hp.within _ _ _) _ _ _
      | cons c more =>
          have hmore : ¬atEnd 0 { rest := c :: more } = true := by simp [atEnd]
          rw [if_neg hmore, here, List.headD_cons]
          by_cases hclose : c = ascii '}'
          · subst hclose
            rw [if_pos rfl, Pull.objectCommaOrEnd, Prog.bind_of_ok (commaOrEnd_close hrest)]
            exact streams_closed
          by_cases hcomma : c = ascii ','
          · subst hcomma
            rw [if_neg hclose, if_pos rfl, Pull.objectCommaOrEnd, Prog.bind_of_ok (commaOrEnd_comma hclose hrest),
              if_neg Bool.false_ne_true, nextLoop_objectKey (hp.within _ _ _) rfl rfl, advance,
              Prog.bind_modify, closedAfterComma_rfc hjson5, if_neg Bool.false_ne_true]
            have hnext := @ih .objectKey more out' (members ++ [member]) false fun _ _ => rfl
            exact streams_mono hnext fun _ _ _ _ => ContainerDone.cons
          · rw [if_neg hclose, if_neg hcomma, Pull.objectCommaOrEnd,
              Prog.bind_of_error (commaOrEnd_other hp hclose hcomma hrest)]
            exact streams_failed (hp.within _ _ _) _ _ _

theorem objectKey_skipped (p : Pull) (f : Frame) (mayEnd : Bool) :
    Pull.objectKey cfg mayEnd (p.within f rest out) =
      Pull.objectKey cfg mayEnd (p.within f (rest.dropWhile isWhitespace) out) := by
  rw [Pull.objectKey, skipWs_within, skipWs_within, List.dropWhile_idempotent]

theorem streams_readObject (hjson5 : cfg.json5 = false) (hduplicates : cfg.strictDuplicateKeys = false)
    (hp : Inside p) {depth : Nat} {text : Bytes} (hdepth : p.stack.length = depth)
    (hrest : p.rest = ascii '{' :: text) {element : Nat → Prog Reading Ast}
    (helement : Followed platform cfg (depth + 1) (element (depth + 1))) :
    Streams platform cfg (readObject skipWhitespace cfg 0 depth element { rest := p.rest })
      (Pull.beginContainer cfg .object .beginObject p) (ValueDone platform cfg p) := by
  have hin := fun rest out => hp.within (Frame.opened .object) rest out
  rw [readObject, Prog.bind_get]
  refine streams_beginContainer hp hdepth hrest ?_
  rw [next_started (hin _ _).begun, nextLoop_objectKeyOrEnd (hin _ _) rfl rfl, skipWhitespace_rfc hjson5,
    bind_peek]
  by_cases hclose : here { rest := text.dropWhile isWhitespace } = ascii '}'
  · obtain ⟨more, hmore⟩ := here_cons (by decide) hclose
    have hmore' : text.dropWhile isWhitespace = ascii '}' :: more := hmore
    have hempty : (Ast.object []).events (tokenNumber platform cfg) =
      [{ type := .beginObject }, { type := .endObject }] := rfl
    rw [if_pos hclose, Pull.objectKey, skipWs_within, hmore', rest_within, if_neg (List.cons_ne_nil _ _),
      peek_within, if_pos ⟨rfl, rfl⟩, endContainer_within]
    exact streams_empty hempty
  · rw [if_neg hclose]
    have hend : ∀ more, text.dropWhile isWhitespace = ascii '}' :: more → true = false := by
      intro more hmore
      rw [hmore] at hclose
      exact absurd rfl hclose
    have hend' : ∀ more, (text.dropWhile isWhitespace).dropWhile isWhitespace = ascii '}' :: more →
        true = false := by
      rw [List.dropWhile_idempotent]
      exact hend
    rw [objectKey_skipped]
    refine streams_bind (streams_membersLoop hjson5 hduplicates hp (hdepth ▸ helement) hend') ?_
    rintro members rest' events last ⟨⟨new, rfl, rfl⟩, hlast⟩
    refine streams_ok ⟨?_, hlast⟩
    rw [Ast.events_object, List.append_nil]

end Members

end PjhJson
