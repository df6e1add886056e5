import PjhJson.StreamEvents
import PjhJson.StreamStrings

/-! The machine tells well-formed histories: a pull adds one event to what has been told, or it stops the
machine and adds nothing, and the machine is never stuck. -/

namespace PjhJson

open Grammar

/-- What a container has told when its frame is in the phase. -/
def Begun.At (c : Begun) (f : Frame) : Prop :=
  f.kind = c.kind ∧
    match f.phase with
    | .objectKeyOrEnd | .objectKey | .objectCommaOrEnd => ∃ entries, c = .object entries none
    | .objectColon | .objectValue => ∃ entries key, c = .object entries (some key)
    | .arrayValueOrEnd | .arrayValue | .arrayCommaOrEnd => ∃ elements, c = .array elements

/-- Every one of these containers is in front of a value. -/
def Waiting (stack : List Frame) (opens : List Begun) : Prop :=
  List.Forall₂ (fun f c => f.kind = c.kind ∧ c.takes = true) stack opens

/-- The frames are those of the open containers; all but the innermost are in front of a value. -/
def Nested : List Frame → List Begun → Prop
  | [], [] => True
  | f :: stack, c :: opens => c.At f ∧ Waiting stack opens
  | _, _ => False

theorem at_opened (kind : Frame.Kind) : (Begun.opened kind).At (Frame.opened kind) := by
  cases kind with
  | object => exact ⟨rfl, [], rfl⟩
  | array => exact ⟨rfl, [], rfl⟩

theorem at_completed {f : Frame} {c : Begun} (hkind : f.kind = c.kind) (value : Json Bytes) :
    (c.put value).At f.completed := by
  cases c with
  | array elements =>
      rw [Begun.kind] at hkind
      rw [Frame.completed, hkind]
      exact ⟨rfl, _, rfl⟩
  | object entries key =>
      rw [Begun.kind] at hkind
      rw [Frame.completed, hkind]
      exact ⟨rfl, _, rfl⟩

theorem Waiting.takes {stack : List Frame} {opens : List Begun} (h : Waiting stack opens) :
    ∀ c ∈ opens, c.takes = true := by
  induction h with
  | nil => exact fun c hmem => absurd hmem List.not_mem_nil
  | cons hhead _ ih => exact List.forall_mem_cons.mpr ⟨hhead.2, ih⟩

theorem Nested.takes_tail {stack : List Frame} {opens : List Begun} (h : Nested stack opens) :
    ∀ c ∈ opens.tail, c.takes = true := by
  cases stack with
  | nil =>
      cases opens with
      | nil => exact fun c hmem => absurd hmem List.not_mem_nil
      | cons c opens => exact h.elim
  | cons f stack =>
      cases opens with
      | nil => exact h.elim
      | cons c opens => exact h.2.takes

theorem Nested.length_eq {stack : List Frame} {opens : List Begun} (h : Nested stack opens) :
    stack.length = opens.length := by
  cases stack with
  | nil =>
      cases opens with
      | nil => rfl
      | cons c opens => exact h.elim
  | cons f stack =>
      cases opens with
      | nil => exact h.elim
      | cons c opens => rw [List.length_cons, List.length_cons, h.2.length_eq]

/-- The machine stands where the history ends. -/
structure Told (cfg : Config) (mode : StreamMode) (h : History) (p : Pull) : Prop where
  nested : Nested p.stack h.opens
  root : p.rootDone = true → p.stack = []
  single : mode = .singleRoot → h.roots.length = if p.rootDone then 1 else 0
  depth : cfg.maxDepth ≠ 0 → p.stack.length ≤ cfg.maxDepth
  finished : p.finished = true → p.failure = none ∧ p.stack = [] ∧ (mode = .singleRoot → p.rootDone = true)
  out : p.out = h.events.getLastD {}
  begun : p.started = true

def Pull.halted (p : Pull) : Bool := p.failure.isSome || p.finished

/-- The run adds the event it leaves in the slot to the history, or it stops the machine. -/
def Tells (cfg : Config) (mode : StreamMode) (h : History) {α : Type} (run : Res Pull (α × Pull)) : Prop :=
  Prog.Ends run
    (fun _ p' => ∃ h', Told cfg mode h' p' ∧ h'.events = h.events ++ [p'.out])
    (fun p' => Told cfg mode h p' ∧ p'.halted = true)

variable {cfg : Config} {mode : StreamMode} {h : History} {p : Pull} {α β : Type}

theorem Told.with_rest (ht : Told cfg mode h p) (rest : Bytes) : Told cfg mode h { p with rest } :=
  ⟨ht.nested, ht.root, ht.single, ht.depth, ht.finished, ht.out, ht.begun⟩

theorem Pull.halted_eq_false : p.halted = false ↔ p.failure = none ∧ p.finished = false := by
  rw [halted, Bool.or_eq_false_iff, Option.isSome_eq_false_iff, Option.isNone_iff_eq_none]

/-! ### Stopping -/

theorem Told.with_failure (ht : Told cfg mode h p) (hrun : p.halted = false) (failure : Failure) :
    Told cfg mode h { p with failure := some failure } :=
  ⟨ht.nested, ht.root, ht.single, ht.depth,
    fun hfinished => absurd ((Pull.halted_eq_false.mp hrun).2.symm.trans hfinished) Bool.false_ne_true,
    ht.out, ht.begun⟩

theorem record_of_running (hrun : p.halted = false) (failure : Failure) :
    Pull.record failure p = .ok ((), { p with failure := some failure }) := by
  rw [Pull.record, Prog.modify_apply, (Pull.halted_eq_false.mp hrun).1]
  rfl

theorem fail_of_running (hrun : p.halted = false) (code : ErrorCode) (left : Nat) :
    (Pull.fail code left : Prog Pull α) p =
      .error { p with failure := some { code, left := some left } } := by
  rw [Pull.fail, Prog.bind_of_ok (record_of_running hrun _), Prog.halt_apply]

theorem failContext_of_running (hrun : p.halted = false) (code : ErrorCode) :
    (Pull.failContext code : Prog Pull α) p = .error { p with failure := some { code } } := by
  rw [Pull.failContext, Prog.bind_of_ok (record_of_running hrun _), Prog.halt_apply]

theorem tells_fail (ht : Told cfg mode h p) (hrun : p.halted = false) (code : ErrorCode) (left : Nat) :
    Tells cfg mode h ((Pull.fail code left : Prog Pull α) p) := by
  rw [Tells, fail_of_running hrun]
  exact ⟨ht.with_failure hrun _, rfl⟩

theorem tells_failHere (ht : Told cfg mode h p) (hrun : p.halted = false) (code : ErrorCode) :
    Tells cfg mode h ((Pull.failHere code : Prog Pull α) p) :=
  tells_fail ht hrun code _

theorem tells_finish (ht : Told cfg mode h p) (hrun : p.halted = false) (hstack : p.stack = [])
    (hroot : mode = .singleRoot → p.rootDone = true) :
    Tells cfg mode h ((Pull.finish : Prog Pull α) p) :=
  ⟨⟨ht.nested, ht.root, ht.single, ht.depth, fun _ => ⟨(Pull.halted_eq_false.mp hrun).1, hstack, hroot⟩,
    ht.out, ht.begun⟩, Bool.or_true _⟩

/-! ### Tokens -/

/-- The run moves over bytes, or it fails. -/
def Scans (p : Pull) {α : Type} (run : Res Pull (α × Pull)) : Prop :=
  Prog.Ends run (fun _ p' => ∃ rest, p' = { p with rest })
    (fun p' => ∃ rest failure, p' = { p with rest, failure := some failure })

theorem scans_fail (hrun : p.halted = false) (rest : Bytes) (code : ErrorCode) (left : Nat) :
    Scans p ((Pull.fail code left : Prog Pull α) { p with rest }) := by
  rw [Scans, fail_of_running (p := { p with rest }) hrun]
  exact ⟨rest, _, rfl⟩

theorem tells_scan {program : Prog Pull α} {next : α → Prog Pull β} (ht : Told cfg mode h p)
    (hrun : p.halted = false) (hscans : Scans p (program p))
    (hnext : ∀ a rest, Tells cfg mode h (next a { p with rest })) :
    Tells cfg mode h ((program >>= next) p) := by
  rw [Tells, Prog.bind_apply]
  cases hprogram : program p with
  | ok result =>
      rw [hprogram] at hscans
      obtain ⟨rest, hrest⟩ := hscans
      rw [Res.ok_bind, hrest]
      exact hnext _ _
  | error p' =>
      rw [hprogram] at hscans
      obtain ⟨rest, failure, rfl⟩ := hscans
      exact ⟨(ht.with_rest rest).with_failure hrun failure, rfl⟩
  | stuck =>
      rw [hprogram] at hscans
      exact hscans.elim

theorem scans_ofContent (hrun : p.halted = false) (rest : Bytes) (left : Nat) (strict : Bool) (raw : Bytes) :
    Scans p (Pull.ofContent left (Pull.decodeContent strict raw) { p with rest }) := by
  cases hcontent : Pull.decodeContent strict raw with
  | stuck => exact absurd hcontent (decodeContent_ne_stuck strict raw)
  | ok text => exact ⟨rest, rfl⟩
  | error failure =>
      obtain ⟨code, pos⟩ := failure
      cases pos with
      | none =>
          rw [Pull.ofContent, Scans, failContext_of_running (p := { p with rest }) hrun]
          exact ⟨rest, _, rfl⟩
      | some pos => exact scans_fail hrun rest _ _

theorem scans_stringToken (hrun : p.halted = false) (strict : Bool) :
    Scans p (Pull.stringToken strict p) := by
  rw [Pull.stringToken, Pull.advance, Prog.bind_modify, Prog.bind_get]
  simp only
  cases Pull.rawContent false (p.rest.drop 1) with
  | none => exact scans_fail hrun [] _ _
  | some content => exact scans_ofContent hrun content.2 _ _ _

/-- The run moves over a scalar and leaves its event in the slot, or it fails. -/
def ScansScalar (p : Pull) (run : Res Pull (Unit × Pull)) : Prop :=
  Prog.Ends run
    (fun _ p' => ∃ rest, ∃ value : Json Bytes, ∃ event,
      value.events = [event] ∧ p' = { p with rest, out := event })
    (fun p' => ∃ rest failure, p' = { p with rest, failure := some failure })

theorem literalEvent_events (c : UInt8) :
    ∃ value : Json Bytes, value.events = [StreamReader.literalEvent c] := by
  rw [StreamReader.literalEvent]
  split
  · exact ⟨.null, rfl⟩
  · exact ⟨.boolean (c == ascii 't'), rfl⟩

theorem numberEvent_events (number : Number) :
    (number.toJson : Json Bytes).events = [StreamReader.numberEvent number] := by
  cases number <;> rfl

theorem scansScalar_literal (hrun : p.halted = false) : ScansScalar p (Pull.literal p) := by
  rw [Pull.literal, Prog.bind_of_ok (show Pull.peek p = .ok (p.rest.headD 0, p) from rfl), Prog.bind_get]
  split
  · rw [Pull.advance, Prog.bind_modify, Prog.bind_apply, Pull.checkAfterLiteral, Prog.bind_get]
    split
    · rw [Pull.failHere, Prog.bind_get]
      simp only
      rw [fail_of_running (p := { p with rest := p.rest.drop _ }) hrun]
      exact ⟨_, _, rfl⟩
    · obtain ⟨value, hvalue⟩ := literalEvent_events (p.rest.headD 0)
      exact ⟨_, value, _, hvalue, rfl⟩
  · rw [Pull.failHere, Prog.bind_get, fail_of_running hrun]
    exact ⟨p.rest, _, rfl⟩

theorem scansScalar_number (hrun : p.halted = false) (platform : Platform) :
    ScansScalar p (Pull.number platform p) := by
  rw [Pull.number, Prog.bind_get]
  cases scanAndClassify platform p.rest with
  | error failure =>
      simp only
      rw [fail_of_running hrun]
      exact ⟨p.rest, _, rfl⟩
  | ok result => exact ⟨result.2, result.1.toJson, _, numberEvent_events result.1, rfl⟩

/-! ### Values -/

/-- A value may begin here. -/
structure Ready (cfg : Config) (mode : StreamMode) (h : History) (p : Pull) : Prop where
  waiting : Waiting p.stack h.opens
  root : p.rootDone = false
  single : mode = .singleRoot → h.roots = []
  depth : cfg.maxDepth ≠ 0 → p.stack.length ≤ cfg.maxDepth
  running : p.halted = false
  begun : p.started = true

theorem Ready.with_rest (hr : Ready cfg mode h p) (rest : Bytes) : Ready cfg mode h { p with rest } :=
  ⟨hr.waiting, hr.root, hr.single, hr.depth, hr.running, hr.begun⟩

/-- The last event of a value completes it. -/
theorem Ready.completeValue (hr : Ready cfg mode h p) {value : Json Bytes} (events : List JsonEvent)
    (hevents : value.events = events ++ [p.out]) :
    ∃ p', Pull.completeValue p = .ok ((), p') ∧ Told cfg mode (h.put value) p' ∧ p'.out = p.out := by
  have hput := History.events_put hr.waiting.takes value
  have hout : p.out = (h.put value).events.getLastD {} := by
    rw [hput, hevents, ← List.append_assoc, List.getLastD_concat]
  have hfinished : p.finished ≠ true := by
    rw [(Pull.halted_eq_false.mp hr.running).2]
    exact Bool.false_ne_true
  have hwaiting := hr.waiting
  have hsingle := hr.single
  obtain ⟨roots, opens⟩ := h
  cases hstack : p.stack with
  | nil =>
      rw [hstack] at hwaiting
      obtain rfl : opens = [] := List.forall₂_nil_left_iff.mp hwaiting
      refine ⟨_, Pull.completeValue_root hstack, ⟨?_, fun _ => hstack, fun hmode => ?_, hr.depth,
        fun h => absurd h hfinished, hout, hr.begun⟩, rfl⟩
      · simp only [hstack]
        exact trivial
      · have hroots : roots = [] := hsingle hmode
        rw [hroots]
        rfl
  | cons f outer =>
      rw [hstack] at hwaiting
      obtain ⟨c, cs, hhead, htail, rfl⟩ := List.forall₂_cons_left_iff.mp hwaiting
      have hdepth := hr.depth
      rw [hstack] at hdepth
      refine ⟨_, Pull.completeValue_inner hstack, ⟨?_, fun hroot => ?_, fun hmode => ?_, hdepth,
        fun h => absurd h hfinished, hout, hr.begun⟩, rfl⟩
      · exact ⟨at_completed hhead.1 value, htail⟩
      · exact absurd (hr.root.symm.trans hroot) Bool.false_ne_true
      · have hroots : roots = [] := hsingle hmode
        simp only [History.put, hroots, hr.root]
        rfl

theorem tells_completeValue {event : JsonEvent} (hr : Ready cfg mode h p) (hevent : p.out = event)
    {value : Json Bytes} (hevents : value.events = [event]) :
    Tells cfg mode h (Pull.completeValue p) := by
  obtain ⟨p', hrun, ht, hout⟩ := hr.completeValue [] (by rw [hevents, hevent]; rfl)
  rw [Tells, hrun]
  refine ⟨_, ht, ?_⟩
  rw [History.events_put hr.waiting.takes, hevents, hout, hevent]

theorem tells_scalar {program : Prog Pull Unit} (ht : Told cfg mode h p) (hr : Ready cfg mode h p)
    (hscans : ScansScalar p (program p)) :
    Tells cfg mode h ((program >>= fun _ => Pull.completeValue) p) := by
  rw [Tells, Prog.bind_apply]
  cases hprogram : program p with
  | ok result =>
      rw [hprogram] at hscans
      obtain ⟨rest, value, event, hevents, hrest⟩ := hscans
      rw [Res.ok_bind, hrest]
      have hready : Ready cfg mode h { p with rest, out := event } :=
        ⟨hr.waiting, hr.root, hr.single, hr.depth, hr.running, hr.begun⟩
      exact tells_completeValue hready rfl hevents
  | error p' =>
      rw [hprogram] at hscans
      obtain ⟨rest, failure, rfl⟩ := hscans
      exact ⟨(ht.with_rest rest).with_failure hr.running failure, rfl⟩
  | stuck =>
      rw [hprogram] at hscans
      exact hscans.elim

theorem tells_beginContainer (ht : Told cfg mode h p) (hr : Ready cfg mode h p) (kind : Frame.Kind)
    {type : EventType} (hevents : (Begun.opened kind).events = [{ type }]) :
    Tells cfg mode h (Pull.beginContainer cfg kind type p) := by
  rw [Pull.beginContainer, Prog.bind_get]
  split
  · exact tells_failHere ht hr.running _
  · rename_i hshallow
    have henter := History.events_enter (Begun.opened kind) h
    rw [hevents] at henter
    refine ⟨h.enter (Begun.opened kind), ⟨⟨at_opened kind, hr.waiting⟩, fun hroot => ?_, fun hmode => ?_,
      fun hlimit => ?_, fun hfinished => ?_, ?_, hr.begun⟩, henter⟩
    · exact absurd (hr.root.symm.trans hroot) Bool.false_ne_true
    · rw [History.enter, hr.single hmode, hr.root]
      rfl
    · exact Nat.le_of_not_lt fun hlt => hshallow ⟨hlimit, hlt⟩
    · exact absurd ((Pull.halted_eq_false.mp hr.running).2.symm.trans hfinished) Bool.false_ne_true
    · rw [henter, List.getLastD_concat]

theorem tells_expectValue {platform : Platform} (ht : Told cfg mode h p) (hr : Ready cfg mode h p)
    (atRoot : Bool) : Tells cfg mode h (Pull.expectValue platform cfg atRoot p) := by
  rw [Pull.expectValue, Pull.skipWs, Prog.bind_modify, Prog.bind_get]
  generalize p.rest.dropWhile isWhitespace = rest
  have ht' := ht.with_rest rest
  have hr' := hr.with_rest rest
  split
  · exact tells_failHere ht' hr'.running _
  rw [Prog.bind_of_ok (show Pull.peek { p with rest } = .ok (rest.headD 0, { p with rest }) from rfl)]
  split
  · exact tells_beginContainer ht' hr' .object rfl
  split
  · exact tells_beginContainer ht' hr' .array rfl
  split
  · refine tells_scan ht' hr'.running (scans_stringToken hr'.running _) fun text rest' => ?_
    have hready : Ready cfg mode h { p with rest := rest', out := { type := .string, text } } :=
      ⟨hr.waiting, hr.root, hr.single, hr.depth, hr.running, hr.begun⟩
    have hevents : (Json.string text).events = [{ type := .string, text }] := rfl
    exact tells_completeValue hready rfl hevents
  split
  · exact tells_scalar ht' hr' (scansScalar_literal hr'.running)
  split
  · exact tells_scalar ht' hr' (scansScalar_number hr'.running platform)
  · exact tells_failHere ht' hr'.running _

/-! ### Pulling an event -/

/-- A container ends. -/
theorem tells_endContainer {c : Begun} {opens : List Begun} {f : Frame} {outer : List Frame}
    (ht : Told cfg mode h p) (hrun : p.halted = false) (hroot : p.rootDone = false)
    (hstack : p.stack = f :: outer) (hopens : h.opens = c :: opens)
    (hkeyless : ∀ entries key, c = .object entries key → key = none) {type : EventType}
    (htype : c.closing = { type }) : Tells cfg mode h (Pull.endContainer type p) := by
  obtain ⟨roots, _⟩ := h
  obtain rfl : _ = c :: opens := hopens
  have hnested := ht.nested
  rw [hstack] at hnested
  rw [Pull.endContainer, Pull.advance, Prog.bind_modify, Prog.bind_modify, Pull.setOut, Prog.bind_modify]
  simp only [hstack, List.tail_cons]
  have hwhole := Begun.events_whole hkeyless
  rw [htype] at hwhole
  have hdepth := ht.depth
  rw [hstack] at hdepth
  have hready : Ready cfg mode { roots, opens }
      { p with rest := p.rest.drop 1, stack := outer, out := { type } } := by
    refine ⟨hnested.2, hroot, fun hmode => ?_, fun hlimit => ?_, hrun, ht.begun⟩
    · have hsingle := ht.single hmode
      rw [hroot] at hsingle
      exact List.eq_nil_of_length_eq_zero hsingle
    · exact Nat.le_trans (Nat.le_succ _) (hdepth hlimit)
  obtain ⟨p', hcomplete, ht', hout⟩ := hready.completeValue _ hwhole
  rw [Tells, hcomplete]
  refine ⟨_, ht', ?_⟩
  have henter := History.events_enter c { roots, opens }
  rw [History.enter] at henter
  rw [History.events_put hready.waiting.takes, hwhole, henter, hout, List.append_assoc]

/-- The run adds no event: it ends in a state that satisfies `done`, or it stops the machine. -/
def Passes (cfg : Config) (mode : StreamMode) (h : History) {α : Type} (run : Res Pull (α × Pull))
    (done : Pull → Prop) : Prop :=
  Prog.Ends run (fun _ p' => Told cfg mode h p' ∧ p'.halted = false ∧ p'.rootDone = false ∧ done p')
    (fun p' => Told cfg mode h p' ∧ p'.halted = true)

theorem tells_passed {program : Prog Pull α} {next : α → Prog Pull β} {done : Pull → Prop}
    (hpasses : Passes cfg mode h (program p) done)
    (hnext : ∀ a p', Told cfg mode h p' → p'.halted = false → p'.rootDone = false → done p' →
      Tells cfg mode h (next a p')) : Tells cfg mode h ((program >>= next) p) :=
  Prog.ends_bind hpasses fun a p' _ hdone => hnext a p' hdone.1 hdone.2.1 hdone.2.2.1 hdone.2.2.2

theorem Tells.passes {run : Res Pull (α × Pull)} {done : Pull → Prop} (htells : Tells cfg mode h run)
    (hfails : ∀ a p', run ≠ .ok (a, p')) : Passes cfg mode h run done := by
  cases run with
  | ok result => exact absurd rfl (hfails result.1 result.2)
  | error p' => exact htells
  | stuck => exact htells

theorem passes_failHere {done : Pull → Prop} (ht : Told cfg mode h p) (hrun : p.halted = false)
    (code : ErrorCode) : Passes cfg mode h ((Pull.failHere code : Prog Pull α) p) done := by
  refine (tells_failHere ht hrun code).passes fun a p' hok => ?_
  rw [Pull.failHere, Prog.bind_get, fail_of_running hrun] at hok
  cases hok

theorem passes_finish {done : Pull → Prop} (ht : Told cfg mode h p) (hrun : p.halted = false)
    (hstack : p.stack = []) (hroot : mode = .singleRoot → p.rootDone = true) :
    Passes cfg mode h ((Pull.finish : Prog Pull α) p) done :=
  (tells_finish ht hrun hstack hroot).passes fun _ _ hok => by cases hok

theorem passes_afterRoot (ht : Told cfg mode h p) (hrun : p.halted = false) (hroot : p.rootDone = true) :
    Passes cfg mode h (Pull.afterRoot mode p) fun p' => p'.stack = [] := by
  have hstack := ht.root hroot
  have hrest := ht.with_rest (p.rest.dropWhile isWhitespace)
  rw [Pull.afterRoot, Prog.bind_get]
  cases hmode : mode with
  | singleRoot =>
      rw [hmode] at hrest
      simp only [Pull.skipWs]
      rw [Prog.bind_modify, Prog.bind_get]
      split
      · exact passes_finish hrest hrun hstack fun _ => hroot
      · exact passes_failHere hrest hrun _
  | multiValue =>
      have hclear : StreamMode.multiValue ≠ .singleRoot := by decide
      rw [hmode] at ht hrest
      simp only
      split
      · exact passes_finish ht hrun hstack fun _ => hroot
      rw [Prog.bind_of_ok (show Pull.peek p = .ok (p.rest.headD 0, p) from rfl)]
      split
      · rw [Pull.skipWs, Prog.bind_modify, Prog.bind_get]
        split
        · exact passes_finish hrest hrun hstack fun _ => hroot
        · refine ⟨⟨hrest.nested, fun _ => hstack, fun h => absurd h hclear, hrest.depth, fun hfinished => ?_,
            hrest.out, hrest.begun⟩, hrun, rfl, hstack⟩
          exact absurd ((Pull.halted_eq_false.mp hrun).2.symm.trans hfinished) Bool.false_ne_true
      · exact passes_failHere ht hrun _

theorem Told.ready_root (ht : Told cfg mode h p) (hrun : p.halted = false) (hroot : p.rootDone = false)
    (hstack : p.stack = []) : Ready cfg mode h p := by
  have hnested := ht.nested
  rw [hstack] at hnested
  refine ⟨?_, hroot, fun hmode => ?_, ht.depth, hrun, ht.begun⟩
  · rw [hstack]
    cases hopens : h.opens with
    | nil => exact .nil
    | cons c opens =>
        rw [hopens] at hnested
        exact hnested.elim
  · have hsingle := ht.single hmode
    rw [hroot] at hsingle
    exact List.eq_nil_of_length_eq_zero hsingle

theorem tells_rootValue {platform : Platform} (ht : Told cfg mode h p) (hrun : p.halted = false)
    (hroot : p.rootDone = false) (hstack : p.stack = []) :
    Tells cfg mode h (Pull.rootValue platform cfg mode p) := by
  have hr := ht.ready_root hrun hroot hstack
  have hrest := ht.with_rest (p.rest.dropWhile isWhitespace)
  rw [Pull.rootValue.eq_def]
  cases hmode : mode with
  | singleRoot => exact tells_expectValue (hmode ▸ ht) (hmode ▸ hr) true
  | multiValue =>
      have hclear : StreamMode.multiValue ≠ .singleRoot := by decide
      rw [hmode] at hrest hr
      simp only [Pull.skipWs]
      rw [Prog.bind_modify, Prog.bind_get]
      split
      · exact tells_finish hrest hrun hstack fun h => absurd h hclear
      · exact tells_expectValue hrest (hr.with_rest _) true

section Containers

variable {f : Frame} {outer : List Frame}

/-- The innermost container of a machine that has one. -/
theorem Told.innermost (ht : Told cfg mode h p) (hstack : p.stack = f :: outer) :
    ∃ c opens, h.opens = c :: opens ∧ c.At f ∧ Waiting outer opens := by
  have hnested := ht.nested
  rw [hstack] at hnested
  cases hopens : h.opens with
  | nil =>
      rw [hopens] at hnested
      exact hnested.elim
  | cons c opens =>
      rw [hopens] at hnested
      exact ⟨c, opens, rfl, hnested⟩

theorem Told.ready (ht : Told cfg mode h p) (hrun : p.halted = false) (hroot : p.rootDone = false)
    (hstack : p.stack = f :: outer) (htakes : ∀ c : Begun, c.At f → c.takes = true) : Ready cfg mode h p := by
  obtain ⟨c, opens, hopens, hat, hwaiting⟩ := ht.innermost hstack
  refine ⟨?_, hroot, fun hmode => ?_, ht.depth, hrun, ht.begun⟩
  · rw [hstack, hopens]
    exact .cons ⟨hat.1, htakes c hat⟩ hwaiting
  · have hsingle := ht.single hmode
    rw [hroot] at hsingle
    exact List.eq_nil_of_length_eq_zero hsingle

/-- The phase of the innermost frame changes. -/
theorem Told.setPhase (ht : Told cfg mode h p) (hrun : p.halted = false) (hroot : p.rootDone = false)
    (hstack : p.stack = f :: outer) {phase : Frame.Phase} (hat : ∀ c : Begun, c.At f → c.At { f with phase }) :
    Passes cfg mode h (Pull.setPhase phase p) fun p' => p'.stack = { f with phase } :: outer := by
  obtain ⟨c, opens, hopens, hc, hwaiting⟩ := ht.innermost hstack
  have hdepth := ht.depth
  rw [hstack] at hdepth
  rw [Pull.setPhase_inner hstack]
  refine ⟨⟨?_, fun h => absurd (hroot.symm.trans h) Bool.false_ne_true, ht.single, hdepth, fun hfinished => ?_,
    ht.out, ht.begun⟩, hrun, hroot, rfl⟩
  · rw [hopens]
    exact ⟨hat c hc, hwaiting⟩
  · exact absurd ((Pull.halted_eq_false.mp hrun).2.symm.trans hfinished) Bool.false_ne_true

/-- A key is told. -/
theorem tells_key {entries : List (Bytes × Json Bytes)} {opens : List Begun} (ht : Told cfg mode h p)
    (hrun : p.halted = false) (hroot : p.rootDone = false) (hstack : p.stack = f :: outer)
    (hopens : h.opens = .object entries none :: opens) (hkind : f.kind = .object) (text : Bytes) :
    Tells cfg mode h
      ((Pull.setPhase .objectColon >>= fun _ => Pull.setOut { type := .mapKey, text }) p) := by
  obtain ⟨roots, _⟩ := h
  obtain rfl : _ = .object entries none :: opens := hopens
  have hnested := ht.nested
  have hdepth := ht.depth
  rw [hstack] at hnested hdepth
  rw [Prog.bind_of_ok (Pull.setPhase_inner hstack _)]
  have hevents : (History.mk roots (.object entries (some text) :: opens)).events =
      (History.mk roots (.object entries none :: opens)).events ++ [{ type := .mapKey, text }] := by
    simp [History.events, Begun.events, keyEvent]
  refine ⟨⟨roots, .object entries (some text) :: opens⟩, ⟨⟨⟨hkind, entries, text, rfl⟩, hnested.2⟩, fun h => ?_,
    ht.single, hdepth, fun hfinished => ?_, ?_, ht.begun⟩, hevents⟩
  · exact absurd (hroot.symm.trans h) Bool.false_ne_true
  · exact absurd ((Pull.halted_eq_false.mp hrun).2.symm.trans hfinished) Bool.false_ne_true
  · rw [hevents, List.getLastD_concat]

theorem tells_objectKey (ht : Told cfg mode h p) (hrun : p.halted = false) (hroot : p.rootDone = false)
    (hstack : p.stack = f :: outer) (mayEnd : Bool)
    (hkeyless : ∀ c : Begun, c.At f → ∃ entries, c = .object entries none) :
    Tells cfg mode h (Pull.objectKey cfg mayEnd p) := by
  obtain ⟨c, opens, hopens, hat, -⟩ := ht.innermost hstack
  obtain ⟨entries, rfl⟩ := hkeyless c hat
  rw [Pull.objectKey, Pull.skipWs, Prog.bind_modify, Prog.bind_get]
  generalize p.rest.dropWhile isWhitespace = rest
  have ht' := ht.with_rest rest
  split
  · exact tells_failHere ht' hrun _
  rw [Prog.bind_of_ok (show Pull.peek { p with rest } = .ok (rest.headD 0, { p with rest }) from rfl)]
  split
  · exact tells_endContainer ht' hrun hroot hstack hopens (fun _ _ h => (Begun.object.inj h).2.symm) rfl
  split
  · exact tells_failHere ht' hrun _
  · refine tells_scan ht' hrun (scans_stringToken (p := { p with rest }) hrun _) fun text rest' => ?_
    exact tells_key (ht.with_rest rest') hrun hroot hstack hopens hat.1 text

theorem passes_objectColon (ht : Told cfg mode h p) (hrun : p.halted = false) (hroot : p.rootDone = false)
    (hstack : p.stack = f :: outer) (hat : ∀ c : Begun, c.At f → c.At { f with phase := .objectValue }) :
    Passes cfg mode h (Pull.objectColon p) fun p' => p'.stack = { f with phase := .objectValue } :: outer := by
  rw [Pull.objectColon, Pull.skipWs, Prog.bind_modify, Prog.bind_get]
  generalize p.rest.dropWhile isWhitespace = rest
  have ht' := ht.with_rest rest
  split
  · exact passes_failHere ht' hrun _
  rw [Prog.bind_of_ok (show Pull.peek { p with rest } = .ok (rest.headD 0, { p with rest }) from rfl)]
  split
  · exact passes_failHere ht' hrun _
  · exact (ht.with_rest (rest.drop 1)).setPhase hrun hroot hstack hat

/-- Behind a value of a container: the container ends, or a comma is passed. -/
theorem tells_commaOrEnd {close : UInt8} {type : EventType} {atEnd unexpected : ErrorCode}
    {phase : Frame.Phase} {next : Prog Pull Unit} (ht : Told cfg mode h p) (hrun : p.halted = false)
    (hroot : p.rootDone = false) (hstack : p.stack = f :: outer)
    (hclosing : ∀ c : Begun, c.At f →
      (∀ entries key, c = .object entries key → key = none) ∧ c.closing = { type })
    (hat : ∀ c : Begun, c.At f → c.At { f with phase })
    (hnext : ∀ p', Told cfg mode h p' → p'.halted = false → p'.rootDone = false →
      p'.stack = { f with phase } :: outer → Tells cfg mode h (next p')) :
    Tells cfg mode h
      ((Pull.commaOrEnd close type atEnd unexpected phase >>= fun ended => if ended then pure () else next) p) := by
  obtain ⟨c, opens, hopens, hc, -⟩ := ht.innermost hstack
  rw [Prog.bind_apply, Pull.commaOrEnd, Pull.skipWs, Prog.bind_modify, Prog.bind_get]
  generalize p.rest.dropWhile isWhitespace = rest
  have ht' := ht.with_rest rest
  have hfail : ∀ code, Tells cfg mode h (((Pull.failHere code : Prog Pull Bool) { p with rest }) >>=
      fun result => (if result.1 then pure () else next : Prog Pull Unit) result.2) := by
    intro code
    have htells := tells_failHere (α := Bool) ht' hrun code
    rw [Pull.failHere, Prog.bind_get, fail_of_running (p := { p with rest }) hrun] at htells ⊢
    exact htells
  split
  · exact hfail _
  rw [Prog.bind_of_ok (show Pull.peek { p with rest } = .ok (rest.headD 0, { p with rest }) from rfl)]
  split
  · have hends := tells_endContainer ht' hrun hroot hstack hopens (hclosing c hc).1 (hclosing c hc).2
    rw [Tells] at hends ⊢
    rw [Prog.bind_apply]
    cases hend : Pull.endContainer type { p with rest } with
    | ok result =>
        rw [hend] at hends
        exact hends
    | error p' =>
        rw [hend] at hends
        exact hends
    | stuck =>
        rw [hend] at hends
        exact hends
  split
  · have hpasses := (ht.with_rest (rest.drop 1)).setPhase hrun hroot hstack hat
    have hset := Pull.setPhase_inner (p := { p with rest := rest.drop 1 }) hstack phase
    rw [hset] at hpasses
    obtain ⟨ht'', hrun', hroot', hstack'⟩ := hpasses
    rw [Pull.advance, Prog.bind_modify, Prog.bind_of_ok hset]
    exact hnext _ ht'' hrun' hroot' hstack'
  · exact hfail _

end Containers

/-! ### Whole pulls -/

theorem Begun.At.keyless {c : Begun} {f : Frame} (hat : c.At f)
    (hphase : f.phase = .objectKeyOrEnd ∨ f.phase = .objectKey ∨ f.phase = .objectCommaOrEnd) :
    ∃ entries, c = .object entries none := by
  obtain ⟨-, hphases⟩ := hat
  rcases hphase with hphase | hphase | hphase <;>
    · simp only [hphase] at hphases
      exact hphases

theorem Begun.At.takes {c : Begun} {f : Frame} (hat : c.At f)
    (hphase : f.phase = .objectValue ∨ f.phase = .arrayValueOrEnd ∨ f.phase = .arrayValue) : c.takes = true := by
  obtain ⟨-, hphases⟩ := hat
  rcases hphase with hphase | hphase | hphase <;> simp only [hphase] at hphases
  · obtain ⟨entries, key, rfl⟩ := hphases
    rfl
  · obtain ⟨elements, rfl⟩ := hphases
    rfl
  · obtain ⟨elements, rfl⟩ := hphases
    rfl

theorem tells_halt (ht : Told cfg mode h p) (hhalted : p.halted = true) :
    Tells cfg mode h ((Prog.halt : Prog Pull α) p) :=
  ⟨ht, hhalted⟩

/-- A machine that is in front of a value, of a key or of the end of a container needs no second round. -/
def Pull.Settled (p : Pull) : Prop :=
  p.rootDone = false ∧ ∀ f outer, p.stack = f :: outer →
    f.phase ≠ .objectColon ∧ f.phase ≠ .objectCommaOrEnd ∧ f.phase ≠ .arrayCommaOrEnd

variable {platform : Platform}

theorem tells_arrayValueOrEnd {f : Frame} {outer : List Frame} (ht : Told cfg mode h p)
    (hrun : p.halted = false) (hroot : p.rootDone = false) (hstack : p.stack = f :: outer)
    (hphase : f.phase = .arrayValueOrEnd) : Tells cfg mode h (Pull.arrayValueOrEnd platform cfg p) := by
  obtain ⟨c, opens, hopens, hat, -⟩ := ht.innermost hstack
  have hr := ht.ready hrun hroot hstack fun c hat => hat.takes (.inr (.inl hphase))
  have harray : ∃ elements, c = .array elements := by
    have hphases := hat.2
    simp only [hphase] at hphases
    exact hphases
  obtain ⟨elements, rfl⟩ := harray
  rw [Pull.arrayValueOrEnd, Pull.skipWs, Prog.bind_modify, Prog.bind_get]
  generalize p.rest.dropWhile isWhitespace = rest
  have ht' := ht.with_rest rest
  split
  · exact tells_failHere ht' hrun _
  rw [Prog.bind_of_ok (show Pull.peek { p with rest } = .ok (rest.headD 0, { p with rest }) from rfl)]
  split
  · exact tells_endContainer ht' hrun hroot hstack hopens (fun _ _ h => by cases h) rfl
  · exact tells_expectValue ht' (hr.with_rest rest) false

theorem tells_settled {fuel : Nat} (ht : Told cfg mode h p) (hsettled : p.Settled) :
    Tells cfg mode h (Pull.nextLoop platform cfg mode (fuel + 1) p) := by
  obtain ⟨hroot, hphases⟩ := hsettled
  rw [Pull.nextLoop, Prog.bind_get]
  by_cases hhalted : (p.failure.isSome || p.finished) = true
  · rw [if_pos hhalted]
    exact tells_halt ht hhalted
  have hrun : p.halted = false := by simpa [Pull.halted] using hhalted
  rw [if_neg hhalted, hroot, if_neg Bool.false_ne_true]
  cases hstack : p.stack with
  | nil => exact tells_rootValue ht hrun hroot hstack
  | cons f outer =>
      obtain ⟨hcolon, hcomma, hcomma'⟩ := hphases f outer hstack
      cases hphase : f.phase with
      | objectKeyOrEnd =>
          simp only [hphase]
          exact tells_objectKey ht hrun hroot hstack true fun c hat => hat.keyless (.inl hphase)
      | objectKey =>
          simp only [hphase]
          exact tells_objectKey ht hrun hroot hstack false fun c hat => hat.keyless (.inr (.inl hphase))
      | objectColon => exact absurd hphase hcolon
      | objectValue =>
          simp only [hphase]
          exact tells_expectValue ht (ht.ready hrun hroot hstack fun c hat => hat.takes (.inl hphase)) false
      | objectCommaOrEnd => exact absurd hphase hcomma
      | arrayValueOrEnd =>
          simp only [hphase]
          exact tells_arrayValueOrEnd ht hrun hroot hstack hphase
      | arrayValue =>
          simp only [hphase]
          exact tells_expectValue ht
            (ht.ready hrun hroot hstack fun c hat => hat.takes (.inr (.inr hphase))) false
      | arrayCommaOrEnd => exact absurd hphase hcomma'

theorem settled_of_phase {f : Frame} {outer : List Frame} {phase : Frame.Phase}
    (hroot : p.rootDone = false) (hstack : p.stack = { f with phase } :: outer)
    (hphase : phase ≠ .objectColon ∧ phase ≠ .objectCommaOrEnd ∧ phase ≠ .arrayCommaOrEnd) : p.Settled := by
  refine ⟨hroot, fun f' outer' hstack' => ?_⟩
  rw [hstack] at hstack'
  obtain ⟨rfl, rfl⟩ := List.cons.inj hstack'
  exact hphase

theorem tells_nextLoop {fuel : Nat} (ht : Told cfg mode h p) :
    Tells cfg mode h (Pull.nextLoop platform cfg mode (fuel + 2) p) := by
  by_cases hhalted : (p.failure.isSome || p.finished) = true
  · rw [Pull.nextLoop, Prog.bind_get, if_pos hhalted]
    exact tells_halt ht hhalted
  have hrun : p.halted = false := by simpa [Pull.halted] using hhalted
  cases hroot : p.rootDone with
  | true =>
      rw [Pull.nextLoop, Prog.bind_get, if_neg hhalted, hroot, if_pos rfl]
      refine tells_passed (passes_afterRoot ht hrun hroot) fun _ p' ht' _ hroot' hstack' => ?_
      exact tells_settled ht' ⟨hroot', fun f outer h => by rw [hstack'] at h; cases h⟩
  | false =>
      by_cases hsettled : p.Settled
      · exact tells_settled ht hsettled
      rw [Pull.nextLoop, Prog.bind_get, if_neg hhalted, hroot, if_neg Bool.false_ne_true]
      cases hstack : p.stack with
      | nil => exact absurd ⟨hroot, fun f outer h => by rw [hstack] at h; cases h⟩ hsettled
      | cons f outer =>
          have hother : ∀ {phase : Frame.Phase}, f.phase = phase →
              phase ≠ .objectColon ∧ phase ≠ .objectCommaOrEnd ∧ phase ≠ .arrayCommaOrEnd → False :=
            fun hphase hne => hsettled (settled_of_phase (f := f) hroot hstack (hphase ▸ hne))
          cases hphase : f.phase with
          | objectKeyOrEnd => exact (hother hphase (by decide)).elim
          | objectKey => exact (hother hphase (by decide)).elim
          | objectColon =>
              simp only [hphase]
              have hat : ∀ c : Begun, c.At f → c.At { f with phase := .objectValue } := by
                rintro c ⟨hkind, hphases⟩
                simp only [hphase] at hphases
                exact ⟨hkind, hphases⟩
              refine tells_passed (passes_objectColon ht hrun hroot hstack hat) fun _ p' ht' _ hroot' hstack' => ?_
              exact tells_settled ht' (settled_of_phase hroot' hstack' (by decide))
          | objectValue => exact (hother hphase (by decide)).elim
          | objectCommaOrEnd =>
              simp only [hphase]
              refine tells_commaOrEnd ht hrun hroot hstack (fun c hat => ?_) (fun c hat => ?_)
                fun p' ht' _ hroot' hstack' => tells_settled ht' (settled_of_phase hroot' hstack' (by decide))
              · obtain ⟨entries, rfl⟩ := hat.keyless (.inr (.inr hphase))
                exact ⟨fun _ _ h => (Begun.object.inj h).2.symm, rfl⟩
              · exact ⟨hat.1, hat.keyless (.inr (.inr hphase))⟩
          | arrayValueOrEnd => exact (hother hphase (by decide)).elim
          | arrayValue => exact (hother hphase (by decide)).elim
          | arrayCommaOrEnd =>
              simp only [hphase]
              have harray : ∀ c : Begun, c.At f → ∃ elements, c = .array elements := by
                rintro c ⟨-, hphases⟩
                simp only [hphase] at hphases
                exact hphases
              refine tells_commaOrEnd ht hrun hroot hstack (fun c hat => ?_) (fun c hat => ?_)
                fun p' ht' _ hroot' hstack' => tells_settled ht' (settled_of_phase hroot' hstack' (by decide))
              · obtain ⟨elements, rfl⟩ := harray c hat
                exact ⟨fun _ _ h => (by cases h), rfl⟩
              · exact ⟨hat.1, harray c hat⟩

theorem tells_next (ht : Told cfg mode h { p with started := true }) :
    Tells cfg mode h (Pull.next platform cfg mode p) := by
  rw [Pull.next, Pull.skipStartBom, Prog.bind_modify]
  refine tells_nextLoop ?_
  split
  · rename_i hstarted
    exact ⟨ht.nested, ht.root, ht.single, ht.depth, ht.finished, ht.out, hstarted⟩
  · exact ht.with_rest _

/-- A machine that has stopped does nothing. -/
theorem next_halted (hhalted : p.halted = true) (hstarted : p.started = true) :
    Pull.next platform cfg mode p = .error p := by
  have hstop : (p.failure.isSome || p.finished) = true := hhalted
  rw [Pull.next, Pull.skipStartBom, Prog.bind_modify, if_pos hstarted, Pull.nextLoop, Prog.bind_get,
    if_pos hstop, Prog.halt_apply]

theorem told_start (cfg : Config) (mode : StreamMode) (input : Bytes) :
    Told cfg mode {} { rest := input, started := true } :=
  ⟨trivial, fun _ => rfl, fun _ => rfl, fun _ => Nat.zero_le _, fun h => absurd h Bool.false_ne_true, rfl, rfl⟩

end PjhJson
