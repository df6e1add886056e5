import PjhJson.RefineStreamTokens

/-! The events of a stream do not depend on how it is cut into chunks. Every function of the reader
follows its twin of the machine without a window, so that readers of the same bytes follow the same
machine. -/

namespace PjhJson

open Grammar

variable {setup : StreamSetup} {s : StreamReader} {p : Pull} {α β : Type}
  {done : α → StreamReader → β → Pull → Prop} {platform : Platform}

/-! ### The stack -/

theorem Live.with_stack (h : Live setup s p) (stack : List Frame) :
    Live setup { s with mStack := stack } { p with stack } :=
  ⟨⟨h.synced.unread, h.synced.inside, h.synced.offset, h.synced.sound, h.synced.eof, h.synced.chunk,
    h.synced.mode, h.synced.depth, h.synced.strip, h.synced.strict, rfl, h.synced.started,
    h.synced.rootDone, h.synced.finished, h.synced.error, h.synced.fresh, h.synced.out⟩, h.clear, h.begun⟩

theorem Live.with_root (h : Live setup s p) (rootDone : Bool) :
    Live setup { s with mRootDone := rootDone } { p with rootDone } :=
  ⟨⟨h.synced.unread, h.synced.inside, h.synced.offset, h.synced.sound, h.synced.eof, h.synced.chunk,
    h.synced.mode, h.synced.depth, h.synced.strip, h.synced.strict, h.synced.stack, h.synced.started,
    rfl, h.synced.finished, h.synced.error, h.synced.fresh, h.synced.out⟩, h.clear, h.begun⟩

/-- A step that succeeds on both sides. -/
abbrev Advances (setup : StreamSetup) {α : Type} (run : Res StreamReader (α × StreamReader))
    (model : Res Pull (α × Pull)) : Prop :=
  Mirrors setup run model fun a s' b p' => a = b ∧ Live setup s' p'

theorem Live.completeValue (h : Live setup s p) :
    Advances setup (StreamReader.completeValue s) (Pull.completeValue p) := by
  cases hs : p.stack with
  | nil =>
      rw [StreamReader.completeValue_root (h.synced.stack.trans hs), Pull.completeValue_root hs]
      exact Prog.simulates_ok ⟨rfl, h.with_root true⟩
  | cons f outer =>
      rw [StreamReader.completeValue_inner (h.synced.stack.trans hs), Pull.completeValue_inner hs]
      exact Prog.simulates_ok ⟨rfl, h.with_stack _⟩

theorem Live.setPhase {f : Frame} {outer : List Frame} (h : Live setup s p) (hs : p.stack = f :: outer)
    (phase : Frame.Phase) : Mirrors setup (StreamReader.setPhase phase s) (Pull.setPhase phase p)
      fun _ s' _ p' => Live setup s' p' ∧ s'.tokenText = s.tokenText := by
  rw [StreamReader.setPhase_inner (h.synced.stack.trans hs), Pull.setPhase_inner hs]
  exact Prog.simulates_ok ⟨h.with_stack _, rfl⟩

theorem Live.beginContainer {c : UInt8} {more : Bytes} (h : Live setup s p) (hwindow : s.window = c :: more)
    (kind : Frame.Kind) (type : EventType) :
    Advances setup (StreamReader.beginContainer kind type s) (Pull.beginContainer setup.cfg kind type p) := by
  have henter := StreamReader.enterContainer_eq kind s
  rw [h.synced.stack] at henter
  rw [StreamReader.beginContainer, Pull.beginContainer, Prog.bind_get]
  by_cases hdeep : setup.cfg.maxDepth ≠ 0 ∧ setup.cfg.maxDepth < p.stack.length + 1
  · rw [if_pos (h.synced.depth ▸ hdeep)] at henter
    rw [if_pos hdeep]
    have hfail : Mirrors setup (StreamReader.enterContainer kind s)
        ((Pull.failHere .maxDepthExceeded : Prog Pull Unit) p) fun _ _ _ _ => False := by
      rw [henter]
      exact mirrors_failHere h _
    exact Prog.simulates_of_failure hfail
  · rw [if_neg (h.synced.depth ▸ hdeep)] at henter
    rw [if_neg hdeep]
    have hinside := h.with_stack (Frame.opened kind :: p.stack)
    rw [Prog.bind_of_ok henter, Prog.bind_modify]
    refine mirrors_advance hinside hwindow fun s' p' hlive _ => ?_
    exact Prog.simulates_ok ⟨rfl, hlive.with_out _⟩

theorem Live.endContainer {c : UInt8} {more : Bytes} (h : Live setup s p) (hwindow : s.window = c :: more)
    (type : EventType) : Advances setup (StreamReader.endContainer type s) (Pull.endContainer type p) := by
  rw [StreamReader.endContainer, Pull.endContainer]
  refine mirrors_advance h hwindow fun s' p' hlive _ => ?_
  rw [Prog.bind_modify, Prog.bind_modify, hlive.synced.stack]
  exact ((hlive.with_stack p'.stack.tail).with_out { type }).completeValue

/-! ### Values -/

theorem Live.expectValue (h : Live setup s p) (atRoot : Bool) :
    Advances setup (StreamReader.expectValue platform atRoot s)
      (Pull.expectValue platform setup.cfg atRoot p) := by
  rw [StreamReader.expectValue, Pull.expectValue]
  refine mirrors_skipWs h fun s₁ p₁ h₁ _ hend => ?_
  refine mirrors_front h₁ hend (mirrors_failHere h₁ _) fun c more hwindow => ?_
  split
  · exact h₁.beginContainer hwindow _ _
  split
  · exact h₁.beginContainer hwindow _ _
  split
  · refine Prog.simulates_bind (h₁.parseStringToken hwindow) ?_
    rintro _ s₂ text p₂ ⟨h₂, -, rfl⟩
    exact (h₂.with_out _).completeValue
  split
  · refine Prog.simulates_bind (h₁.parseLiteral hwindow) ?_
    rintro _ s₂ _ p₂ ⟨h₂, -⟩
    exact h₂.completeValue
  split
  · refine Prog.simulates_bind h₁.parseNumber ?_
    rintro _ s₂ _ p₂ ⟨h₂, -⟩
    exact h₂.completeValue
  · exact mirrors_failHere h₁ _

/-! ### Pulling an event -/

theorem mirrors_finish (h : Live setup s p) :
    Mirrors setup ((StreamReader.finish : Prog StreamReader α) s) ((Pull.finish : Prog Pull β) p) done :=
  .inr ⟨_, rfl, h.synced.unread, h.synced.inside, h.synced.offset, h.synced.sound, h.synced.eof,
    h.synced.chunk, h.synced.mode, h.synced.depth, h.synced.strip, h.synced.strict, h.synced.stack,
    h.synced.started, h.synced.rootDone, rfl, h.synced.error, h.synced.fresh, h.synced.out⟩

theorem mirrors_ite {condition condition' : Prop} [Decidable condition] [Decidable condition']
    (hiff : condition ↔ condition') {yes no : Prog StreamReader α} {yes' no' : Prog Pull β}
    (hyes : Mirrors setup (yes s) (yes' p) done) (hno : Mirrors setup (no s) (no' p) done) :
    Mirrors setup ((if condition then yes else no) s) ((if condition' then yes' else no') p) done := by
  by_cases h : condition
  · rw [if_pos h, if_pos (hiff.mp h)]
    exact hyes
  · rw [if_neg h, if_neg fun h' => h (hiff.mpr h')]
    exact hno

theorem Live.afterRoot (h : Live setup s p) :
    Advances setup (StreamReader.afterRoot s) (Pull.afterRoot setup.mode p) := by
  rw [StreamReader.afterRoot, Pull.afterRoot, Prog.bind_get, Prog.bind_get, h.synced.mode]
  cases setup.mode with
  | singleRoot =>
      refine mirrors_skipWs h fun s₁ p₁ h₁ _ hend => ?_
      exact mirrors_ite hend (mirrors_finish h₁) (mirrors_failHere h₁ _)
  | multiValue =>
      obtain ⟨s₁, hrun, h₁, -, -, henough⟩ := h.ensure 1
      simp only
      rw [Prog.bind_of_ok hrun]
      by_cases hle : 1 ≤ p.rest.length
      · have hlong : 1 ≤ s₁.window.length := henough.elim id fun heq => by rwa [heq]
        obtain ⟨c, more, hwindow⟩ := List.exists_cons_of_length_pos hlong
        obtain ⟨hpeek, hhead, hne⟩ := h₁.peek hwindow
        rw [if_pos (decide_eq_true hle), if_neg hne, Prog.bind_of_ok hpeek,
          Prog.bind_of_ok (show Pull.peek p = .ok (c, p) by rw [Pull.peek, hhead])]
        split
        · refine mirrors_skipWs h₁ fun s₂ p₂ h₂ _ hend => ?_
          exact mirrors_ite hend (mirrors_finish h₂) (Prog.simulates_ok ⟨rfl, h₂.with_root false⟩)
        · exact mirrors_failHere h₁ _
      · have hnil : p.rest = [] := List.eq_nil_of_length_eq_zero (by omega)
        rw [if_neg (by rw [decide_eq_false hle]; decide), if_pos hnil, Prog.bind_of_ok h₁.failIfError]
        exact mirrors_finish h₁

theorem Live.rootValue (h : Live setup s p) :
    Advances setup (StreamReader.rootValue platform s) (Pull.rootValue platform setup.cfg setup.mode p) := by
  rw [StreamReader.rootValue, Pull.rootValue.eq_def, Prog.bind_get, h.synced.mode]
  cases setup.mode with
  | singleRoot => exact h.expectValue true
  | multiValue =>
      refine mirrors_skipWs h fun s₁ p₁ h₁ _ hend => ?_
      exact mirrors_ite hend (mirrors_finish h₁) (h₁.expectValue true)

variable {f : Frame} {outer : List Frame}

theorem Live.objectKey (h : Live setup s p) (hstack : p.stack = f :: outer) (mayEnd : Bool) :
    Advances setup (StreamReader.objectKey mayEnd s) (Pull.objectKey setup.cfg mayEnd p) := by
  rw [StreamReader.objectKey, Pull.objectKey]
  refine mirrors_skipWs h fun s₁ p₁ h₁ hstack₁ hend => ?_
  refine mirrors_front h₁ hend (mirrors_failHere h₁ _) fun c more hwindow => ?_
  split
  · exact h₁.endContainer hwindow _
  split
  · exact mirrors_failHere h₁ _
  · refine Prog.simulates_bind (h₁.parseStringToken hwindow) ?_
    rintro _ s₂ text p₂ ⟨h₂, hstack₂, rfl⟩
    have hinner := hstack₂.trans (hstack₁.trans hstack)
    refine Prog.simulates_bind (h₂.setPhase hinner .objectColon) ?_
    rintro _ s₃ _ p₃ ⟨h₃, htext⟩
    rw [Prog.bind_get, htext]
    exact Prog.simulates_ok ⟨rfl, h₃.with_out _⟩

theorem Live.objectColon (h : Live setup s p) (hstack : p.stack = f :: outer) :
    Advances setup (StreamReader.objectColon s) (Pull.objectColon p) := by
  rw [StreamReader.objectColon, Pull.objectColon]
  refine mirrors_skipWs h fun s₁ p₁ h₁ hstack₁ hend => ?_
  refine mirrors_front h₁ hend (mirrors_failHere h₁ _) fun c more hwindow => ?_
  split
  · exact mirrors_failHere h₁ _
  · refine mirrors_advance h₁ hwindow fun s₂ p₂ h₂ hstack₂ => ?_
    have hinner := hstack₂.trans (hstack₁.trans hstack)
    exact Prog.simulates_mono (h₂.setPhase hinner _) fun _ _ _ _ hdone => ⟨rfl, hdone.1⟩

theorem Live.commaOrEnd (h : Live setup s p) (hstack : p.stack = f :: outer) (close : UInt8) (type : EventType)
    (atEnd unexpected : ErrorCode) (next : Frame.Phase) :
    Advances setup (StreamReader.commaOrEnd close type atEnd unexpected next s)
      (Pull.commaOrEnd close type atEnd unexpected next p) := by
  rw [StreamReader.commaOrEnd, Pull.commaOrEnd]
  refine mirrors_skipWs h fun s₁ p₁ h₁ hstack₁ hend => ?_
  refine mirrors_front h₁ hend (mirrors_failHere h₁ _) fun c more hwindow => ?_
  split
  · refine Prog.simulates_bind (h₁.endContainer hwindow type) ?_
    rintro _ s₂ _ p₂ ⟨-, h₂⟩
    exact Prog.simulates_ok ⟨rfl, h₂⟩
  split
  · refine mirrors_advance h₁ hwindow fun s₂ p₂ h₂ hstack₂ => ?_
    have hinner := hstack₂.trans (hstack₁.trans hstack)
    refine Prog.simulates_bind (h₂.setPhase hinner next) ?_
    rintro _ s₃ _ p₃ ⟨h₃, -⟩
    exact Prog.simulates_ok ⟨rfl, h₃⟩
  · exact mirrors_failHere h₁ _

theorem Live.arrayValueOrEnd (h : Live setup s p) :
    Advances setup (StreamReader.arrayValueOrEnd platform s) (Pull.arrayValueOrEnd platform setup.cfg p) := by
  rw [StreamReader.arrayValueOrEnd, Pull.arrayValueOrEnd]
  refine mirrors_skipWs h fun s₁ p₁ h₁ _ hend => ?_
  refine mirrors_front h₁ hend (mirrors_failHere h₁ _) fun c more hwindow => ?_
  split
  · exact h₁.endContainer hwindow _
  · exact h₁.expectValue false

theorem Live.nextLoop {fuel : Nat} (h : Synced setup s p) (hbegun : p.started = true) :
    Advances setup (StreamReader.nextLoop platform fuel s)
      (Pull.nextLoop platform setup.cfg setup.mode fuel p) := by
  induction fuel generalizing s p with
  | zero => trivial
  | succ fuel ih =>
      have herror : s.hasError = p.failure.isSome := by
        rw [StreamReader.hasError, h.error, Option.isSome_map]
      rw [StreamReader.nextLoop, Pull.nextLoop, Prog.bind_get, Prog.bind_get, herror, h.finished,
        h.rootDone, h.stack]
      by_cases hstop : (p.failure.isSome || p.finished) = true
      · rw [if_pos hstop, if_pos hstop]
        exact Prog.simulates_error h
      rw [if_neg hstop, if_neg hstop]
      have hlive : Live setup s p :=
        ⟨h, by rw [Bool.or_eq_true, not_or] at hstop; simpa using hstop.1, hbegun⟩
      have hgo : ∀ {program : Prog StreamReader Unit} {model : Prog Pull Unit},
          Advances setup (program s) (model p) →
          Advances setup ((program >>= fun _ => StreamReader.nextLoop platform fuel) s)
            ((model >>= fun _ => Pull.nextLoop platform setup.cfg setup.mode fuel) p) := by
        intro program model hstep
        refine Prog.simulates_bind hstep ?_
        rintro _ s' _ p' ⟨-, hlive'⟩
        exact ih hlive'.synced hlive'.begun
      have hcomma : ∀ {program : Prog StreamReader Bool} {model : Prog Pull Bool},
          Advances setup (program s) (model p) →
          Advances setup
            ((program >>= fun ended => if ended then pure () else StreamReader.nextLoop platform fuel) s)
            ((model >>= fun ended =>
              if ended then pure () else Pull.nextLoop platform setup.cfg setup.mode fuel) p) := by
        intro program model hstep
        refine Prog.simulates_bind hstep ?_
        rintro ended s' _ p' ⟨rfl, hlive'⟩
        cases ended with
        | true => exact Prog.simulates_ok ⟨rfl, hlive'⟩
        | false => exact ih hlive'.synced hlive'.begun
      split
      · exact hgo hlive.afterRoot
      cases hstack : p.stack with
      | nil => exact hlive.rootValue
      | cons f outer =>
          cases hphase : f.phase with
          | objectKeyOrEnd =>
              simp only [hphase]
              exact hlive.objectKey hstack true
          | objectKey =>
              simp only [hphase]
              exact hlive.objectKey hstack false
          | objectColon =>
              simp only [hphase]
              exact hgo (hlive.objectColon hstack)
          | objectValue =>
              simp only [hphase]
              exact hlive.expectValue false
          | objectCommaOrEnd =>
              simp only [hphase]
              exact hcomma (hlive.commaOrEnd hstack _ _ _ _ _)
          | arrayValueOrEnd =>
              simp only [hphase]
              exact hlive.arrayValueOrEnd
          | arrayValue =>
              simp only [hphase]
              exact hlive.expectValue false
          | arrayCommaOrEnd =>
              simp only [hphase]
              exact hcomma (hlive.commaOrEnd hstack _ _ _ _ _)

/-! ### The first pull -/

theorem startsWithUtf8Bom_of_begins {window rest : Bytes} (hbegins : window <+: rest)
    (henough : 3 ≤ window.length) : startsWithUtf8Bom window = startsWithUtf8Bom rest := by
  obtain ⟨more, rfl⟩ := hbegins
  rw [startsWithUtf8Bom, startsWithUtf8Bom, List.take_append_of_le_length henough]

theorem not_startsWithUtf8Bom_of_short {rest : Bytes} (h : rest.length < 3) :
    startsWithUtf8Bom rest = false := by
  rw [startsWithUtf8Bom, beq_eq_false_iff_ne]
  intro heq
  have hlength := congrArg List.length heq
  rw [List.length_take] at hlength
  simp only [List.length_cons, List.length_nil] at hlength
  omega

theorem Synced.skipStartBom (h : Synced setup s p) :
    Mirrors setup (StreamReader.skipStartBom s) (Pull.skipStartBom setup.cfg p)
      fun _ s' _ p' => Synced setup s' p' ∧ p'.started = true := by
  rw [StreamReader.skipStartBom, Pull.skipStartBom, Prog.bind_get, h.started, Prog.modify_apply]
  by_cases hstarted : p.started = true
  · rw [if_pos hstarted, if_pos hstarted]
    exact Prog.simulates_ok ⟨h, hstarted⟩
  rw [if_neg hstarted, if_neg hstarted, Prog.bind_modify]
  have hclear : p.failure = none := h.fresh (by simpa using hstarted)
  have hlive : Live setup { s with mStartChecked := true } { p with started := true } :=
    ⟨⟨h.unread, h.inside, h.offset, h.sound, h.eof, h.chunk, h.mode, h.depth, h.strip, h.strict, h.stack,
      rfl, h.rootDone, h.finished, h.error, fun hfalse => absurd hfalse.symm Bool.false_ne_true, h.out⟩, hclear, rfl⟩
  have hcondition : (!s.mStripBom || s.hasError) = !setup.cfg.stripBom := by
    rw [show s.hasError = false from hlive.noError, Bool.or_false, h.strip]
  simp only [hcondition]
  cases hstrip : setup.cfg.stripBom with
  | false => exact Prog.simulates_ok ⟨hlive.synced, rfl⟩
  | true =>
      obtain ⟨s', hrun, hlive', -, -, henough⟩ := hlive.ensure 3
      simp only [Bool.not_true, Bool.false_eq_true, if_false, Bool.true_and]
      rw [Prog.bind_of_ok hrun]
      have hbegins : s'.window <+: p.rest := ⟨_, hlive'.synced.unread⟩
      by_cases hlong : 3 ≤ p.rest.length
      · have hwide : 3 ≤ s'.window.length := henough.elim id fun heq => heq ▸ hlong
        rw [if_pos (decide_eq_true hlong), Prog.bind_get, startsWithUtf8Bom_of_begins hbegins hwide]
        by_cases hbom : startsWithUtf8Bom p.rest = true
        · rw [if_pos hbom, if_pos hbom]
          exact Prog.simulates_ok ⟨(hlive'.advance hwide).synced, rfl⟩
        · rw [if_neg hbom, if_neg hbom]
          exact Prog.simulates_ok ⟨hlive'.synced, rfl⟩
      · rw [if_neg (by rw [decide_eq_false hlong]; decide),
          if_neg (by rw [not_startsWithUtf8Bom_of_short (by omega)]; decide)]
        exact Prog.simulates_ok ⟨hlive'.synced, rfl⟩

/-- A pull of the reader is a pull of the machine. -/
theorem Synced.next (h : Synced setup s p) :
    Mirrors setup (StreamReader.next platform s) (Pull.next platform setup.cfg setup.mode p)
      fun _ s' _ p' => Synced setup s' p' := by
  rw [StreamReader.next, Pull.next]
  refine Prog.simulates_bind h.skipStartBom ?_
  rintro _ s₁ _ p₁ ⟨h₁, hbegun⟩
  exact Prog.simulates_mono (Live.nextLoop h₁ hbegun) fun _ _ _ _ hdone => hdone.2.synced

/-- A new reader of a stream of these bytes is where the machine over them is. -/
theorem synced_create (setup : StreamSetup) (chunkSize : Nat) :
    Synced setup (StreamReader.create setup.cfg setup.mode chunkSize { rest := setup.input })
      { rest := setup.input } := by
  have hpositive : 0 < if chunkSize = 0 then 1 else chunkSize := by
    split <;> omega
  exact ⟨rfl, Nat.le_refl _, Nat.zero_add _, rfl, fun h => absurd h Bool.false_ne_true, hpositive, rfl, rfl, rfl,
    rfl, rfl, rfl, rfl, rfl, rfl, fun _ => rfl, rfl⟩

end PjhJson
