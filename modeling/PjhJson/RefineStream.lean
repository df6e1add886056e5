import PjhJson.RefineEntry
import PjhJson.StreamPull

/-! The stream reader follows the machine without a window, as long as its stream does not go bad.
Where the window ends, the next chunk continues it: nothing that a pull looks at depends on where that
is. -/

namespace PjhJson

open Grammar

/-- What a reader takes over when it is made, and the bytes of its stream. -/
structure StreamSetup where
  cfg : Config
  mode : StreamMode
  input : Bytes

/-- The reader is where the machine is. -/
structure Synced (setup : StreamSetup) (s : StreamReader) (p : Pull) : Prop where
  unread : s.window ++ s.mIn.rest = p.rest
  inside : s.mPos ≤ s.mBuf.length
  offset : s.abs + p.rest.length = setup.input.length
  sound : s.mIn.broken = false
  eof : s.mEof = true → s.mIn.rest = []
  chunk : 0 < s.mChunkSize
  mode : s.mMode = setup.mode
  depth : s.mMaxDepth = setup.cfg.maxDepth
  strip : s.mStripBom = setup.cfg.stripBom
  strict : s.mStrictUtf8 = setup.cfg.strictUtf8
  stack : s.mStack = p.stack
  started : s.mStartChecked = p.started
  rootDone : s.mRootDone = p.rootDone
  finished : s.mFinished = p.finished
  error : s.mError = p.failure.map fun failure => .kernel (failure.error (Window.whole setup.input))
  fresh : p.started = false → p.failure = none
  out : s.out = p.out

/-- The reader is where the machine is, behind the byte order mark, and nothing has failed. -/
structure Live (setup : StreamSetup) (s : StreamReader) (p : Pull) : Prop where
  synced : Synced setup s p
  clear : p.failure = none
  begun : p.started = true

/-- The reader does what the machine does. -/
abbrev Mirrors (setup : StreamSetup) {α β : Type} (run : Res StreamReader (α × StreamReader))
    (model : Res Pull (β × Pull)) (done : α → StreamReader → β → Pull → Prop) : Prop :=
  Prog.Simulates run model done (Synced setup) fun _ => False

variable {setup : StreamSetup} {s : StreamReader} {p : Pull} {α β : Type}
  {done : α → StreamReader → β → Pull → Prop}

namespace Live

theorem noError (h : Live setup s p) : s.hasError = false := by
  rw [StreamReader.hasError, h.synced.error, h.clear]
  rfl

/-- The window is empty where its end has been reached. -/
theorem exhausted_iff (h : Live setup s p) : s.exhausted = true ↔ s.window = [] := by
  have := h.synced.inside
  rw [StreamReader.exhausted, StreamReader.window, beq_iff_eq, List.drop_eq_nil_iff]
  omega

theorem not_exhausted (h : Live setup s p) {c : UInt8} {more : Bytes} (hwindow : s.window = c :: more) :
    s.exhausted = false := by
  rw [← Bool.not_eq_true, h.exhausted_iff, hwindow]
  exact List.cons_ne_nil _ _

end Live

/-! ### The window -/

/-- A refill changes the window, the buffer offsets and the end-of-stream flag only. -/
structure Refilled (s s' : StreamReader) : Prop where
  window : s.window <+: s'.window
  abs : s'.abs = s.abs
  token : s'.mToken = s.mToken
  shorter : s'.mEof = true ∨ s'.mIn.rest.length < s.mIn.rest.length

theorem Live.fill (h : Live setup s p) (heof : s.mEof = false) :
    Live setup s.fill p ∧ Refilled s s.fill := by
  have hrest : s.mIn.rest.take s.mChunkSize ++ s.mIn.rest.drop s.mChunkSize = s.mIn.rest :=
    List.take_append_drop _ _
  have hchunk := h.synced.chunk
  have hinside := h.synced.inside
  obtain ⟨buf, pos, base, hcompact, hpos, hwindow, habs⟩ : ∃ buf pos base,
      s.compact = { s with mBuf := buf, mPos := pos, mAbsBase := base } ∧ pos ≤ buf.length ∧
        buf.drop pos = s.window ∧ base + pos = s.abs := by
    rw [StreamReader.compact]
    split
    · exact ⟨_, _, _, rfl, Nat.zero_le _, rfl, rfl⟩
    · exact ⟨_, _, _, rfl, hinside, rfl, rfl⟩
  have hgot : ∀ {eof : Bool}, (eof = true → s.mIn.rest.drop s.mChunkSize = []) →
      (eof = true ∨ (s.mIn.rest.drop s.mChunkSize).length < s.mIn.rest.length) →
      s.fill = { s with
        mBuf := buf ++ s.mIn.rest.take s.mChunkSize, mPos := pos, mAbsBase := base, mEof := eof,
        mIn := { s.mIn with rest := s.mIn.rest.drop s.mChunkSize } } →
      Live setup s.fill p ∧ Refilled s s.fill := by
    intro eof heof' hshorter hfill
    have hnew : s.fill.window = s.window ++ s.mIn.rest.take s.mChunkSize := by
      rw [hfill, StreamReader.window, List.drop_append_of_le_length hpos, hwindow]
    have habs' : s.fill.abs = s.abs := by rw [hfill, ← habs]; rfl
    refine ⟨⟨⟨?_, ?_, ?_, ?_, ?_, ?_, ?_, ?_, ?_, ?_, ?_, ?_, ?_, ?_, ?_, h.synced.fresh, ?_⟩,
      h.clear, h.begun⟩, ⟨?_, habs', by rw [hfill], ?_⟩⟩
    · rw [hnew, hfill, List.append_assoc, hrest, h.synced.unread]
    · rw [hfill]
      simp only [List.length_append]
      omega
    · rw [habs', h.synced.offset]
    · rw [hfill]; exact h.synced.sound
    · rw [hfill]; exact heof'
    · rw [hfill]; exact hchunk
    · rw [hfill]; exact h.synced.mode
    · rw [hfill]; exact h.synced.depth
    · rw [hfill]; exact h.synced.strip
    · rw [hfill]; exact h.synced.strict
    · rw [hfill]; exact h.synced.stack
    · rw [hfill]; exact h.synced.started
    · rw [hfill]; exact h.synced.rootDone
    · rw [hfill]; exact h.synced.finished
    · rw [hfill]; exact h.synced.error
    · rw [hfill]; exact h.synced.out
    · rw [hnew]; exact List.prefix_append _ _
    · rw [hfill]; exact hshorter
  by_cases hshort : (s.mIn.rest.take s.mChunkSize).length < s.mChunkSize
  · refine @hgot true (fun _ => ?_) (.inl rfl) ?_
    · rw [List.length_take] at hshort
      exact List.drop_eq_nil_of_le (by omega)
    · rw [StreamReader.fill, h.noError, heof, Bool.or_false, if_neg (by decide)]
      simp only [hcompact, if_pos hshort, h.synced.sound, if_neg Bool.false_ne_true]
  · refine @hgot false (fun hfalse => absurd hfalse (by decide)) (.inr ?_) ?_
    · rw [List.length_take] at hshort
      rw [List.length_drop]
      omega
    · rw [StreamReader.fill, h.noError, heof, Bool.or_false, if_neg (by decide)]
      simp only [hcompact, if_neg hshort]
      rw [heof]

/-- What is not in the window at the end of the stream is not there. -/
theorem Live.window_eq (h : Live setup s p) (heof : s.mEof = true) : s.window = p.rest := by
  have hunread := h.synced.unread
  rwa [h.synced.eof heof, List.append_nil] at hunread

theorem Live.length_window_le (h : Live setup s p) : s.window.length ≤ p.rest.length := by
  rw [← h.synced.unread, List.length_append]
  exact Nat.le_add_right _ _

/-- `ensure` finds out whether that many bytes are left, and has them in the window then. -/
theorem Live.ensureLoop {n fuel : Nat} (h : Live setup s p)
    (hfuel : s.mEof = true ∨ n < fuel + s.window.length) (hpos : 0 < fuel) :
    ∃ s', StreamReader.ensureLoop n fuel s = .ok (decide (n ≤ p.rest.length), s') ∧
      Live setup s' p ∧ s'.abs = s.abs ∧ s.window <+: s'.window ∧
      (n ≤ s'.window.length ∨ s'.window = p.rest) := by
  induction fuel generalizing s with
  | zero => omega
  | succ fuel ih =>
      have hle := h.length_window_le
      rw [StreamReader.ensureLoop, Prog.bind_get, h.noError]
      by_cases hmore : s.window.length < n ∧ s.mEof = false
      · obtain ⟨hlive, hfill⟩ := h.fill hmore.2
        rw [if_pos ⟨hmore.1, hmore.2, rfl⟩, Prog.bind_modify]
        have hroom : n < fuel + 1 + s.window.length :=
          hfuel.resolve_left fun heof => by rw [hmore.2] at heof; cases heof
        have hfuel' : s.fill.mEof = true ∨ n < fuel + s.fill.window.length := by
          refine hfill.shorter.imp_right fun hshorter => ?_
          have hunread := congrArg List.length (h.synced.unread.trans hlive.synced.unread.symm)
          rw [List.length_append, List.length_append] at hunread
          omega
        obtain ⟨s', hrun, hlive', habs, hbegins, henough⟩ := ih hlive hfuel' (by omega)
        exact ⟨s', hrun, hlive', habs.trans hfill.abs, hfill.window.trans hbegins, henough⟩
      · rw [if_neg fun hboth => hmore ⟨hboth.1, hboth.2.1⟩]
        have henough : n ≤ s.window.length ∨ s.window = p.rest := by
          by_cases hlong : n ≤ s.window.length
          · exact .inl hlong
          · refine .inr (h.window_eq ?_)
            by_contra hne
            exact hmore ⟨by omega, by simpa using hne⟩
        have hdecide : decide (n ≤ s.window.length) = decide (n ≤ p.rest.length) := by
          rw [decide_eq_decide]
          rcases henough with hlong | heq
          · exact ⟨fun _ => by omega, fun _ => hlong⟩
          · rw [heq]
        exact ⟨s, by rw [Prog.pure_apply, hdecide], h, rfl, List.prefix_rfl, henough⟩

theorem Live.ensure (h : Live setup s p) (n : Nat) :
    ∃ s', StreamReader.ensure n s = .ok (decide (n ≤ p.rest.length), s') ∧
      Live setup s' p ∧ s'.abs = s.abs ∧ s.window <+: s'.window ∧
      (n ≤ s'.window.length ∨ s'.window = p.rest) :=
  h.ensureLoop (.inr (by omega)) (Nat.succ_pos n)

/-- Moving over bytes of the window. -/
theorem Live.advance (h : Live setup s p) {count : Nat} (hle : count ≤ s.window.length) :
    Live setup { s with mPos := s.mPos + count } { p with rest := p.rest.drop count } := by
  have hrest := h.length_window_le
  have hwindow : StreamReader.window { s with mPos := s.mPos + count } = s.window.drop count := by
    rw [StreamReader.window, StreamReader.window, List.drop_drop]
  have hlength : s.window.length = s.mBuf.length - s.mPos := List.length_drop
  refine ⟨⟨?_, ?_, ?_, h.synced.sound, h.synced.eof, h.synced.chunk, h.synced.mode, h.synced.depth,
    h.synced.strip, h.synced.strict, h.synced.stack, h.synced.started, h.synced.rootDone,
    h.synced.finished, h.synced.error, h.synced.fresh, h.synced.out⟩, h.clear, h.begun⟩
  · rw [hwindow, ← h.synced.unread, List.drop_append_of_le_length hle]
  · have := h.synced.inside
    simp only
    omega
  · have hoffset := h.synced.offset
    simp only [StreamReader.abs, List.length_drop] at hoffset ⊢
    omega

/-- The first byte that is left, when it is in the window. -/
theorem Live.peek (h : Live setup s p) {c : UInt8} {more : Bytes} (hwindow : s.window = c :: more) :
    StreamReader.peek s = .ok (c, s) ∧ p.rest.headD 0 = c ∧ p.rest ≠ [] := by
  have hget : s.mBuf[s.mPos]? = some c := by
    rw [← List.head?_drop]
    exact congrArg List.head? hwindow
  have hunread := h.synced.unread
  rw [hwindow, List.cons_append] at hunread
  rw [StreamReader.peek, hget, ← hunread]
  exact ⟨rfl, rfl, List.cons_ne_nil _ _⟩

/-- The rounds that a loop over the bytes still needs. -/
def StreamReader.distance (s : StreamReader) : Nat :=
  s.window.length + 2 * s.mIn.rest.length + if s.mEof then 0 else 1

theorem StreamReader.distance_lt (s : StreamReader) : s.distance < s.rounds := by
  rw [StreamReader.distance, StreamReader.rounds]
  split <;> omega

theorem Live.distance_fill (h : Live setup s p) (heof : s.mEof = false) :
    s.fill.distance < s.distance := by
  obtain ⟨hlive, hfill⟩ := h.fill heof
  have hunread := congrArg List.length (h.synced.unread.trans hlive.synced.unread.symm)
  rw [List.length_append, List.length_append] at hunread
  rw [StreamReader.distance, StreamReader.distance, heof, if_neg Bool.false_ne_true]
  rcases hfill.shorter with heof' | hshorter
  · have hend := congrArg List.length (hlive.synced.eof heof')
    rw [List.length_nil] at hend
    rw [heof', if_pos rfl]
    omega
  · split <;> omega

theorem StreamReader.distance_advance {s : StreamReader} {c : UInt8} {more : Bytes}
    (hwindow : s.window = c :: more) : ({ s with mPos := s.mPos + 1 } : StreamReader).distance < s.distance := by
  have hnext : StreamReader.window { s with mPos := s.mPos + 1 } = more := by
    rw [StreamReader.window, ← List.drop_drop, ← StreamReader.window, hwindow, List.drop_one,
      List.tail_cons]
  rw [StreamReader.distance, StreamReader.distance, hnext, hwindow, List.length_cons]
  simp only
  omega

theorem Live.skipWsLoop {fuel : Nat} (h : Live setup s p) (hfuel : s.distance < fuel) :
    ∃ s', StreamReader.skipWsLoop fuel s = .ok ((), s') ∧
      Live setup s' { p with rest := p.rest.dropWhile isWhitespace } ∧
      (s'.exhausted = true ↔ p.rest.dropWhile isWhitespace = []) := by
  induction fuel generalizing s p with
  | zero => omega
  | succ fuel ih =>
      rw [StreamReader.skipWsLoop, Prog.bind_get, h.noError, if_neg Bool.false_ne_true]
      cases hwindow : s.window with
      | nil =>
          have hexhausted : s.exhausted = true := h.exhausted_iff.mpr hwindow
          rw [hexhausted, if_pos rfl]
          cases heof : s.mEof with
          | true =>
              have hrest : p.rest = [] := by rw [← h.window_eq heof, hwindow]
              have hsame : p.rest.dropWhile isWhitespace = p.rest := by rw [hrest]; rfl
              rw [if_pos rfl, hsame]
              exact ⟨s, rfl, h, iff_of_true hexhausted hrest⟩
          | false =>
              have hdistance := h.distance_fill heof
              rw [if_neg Bool.false_ne_true, Prog.bind_modify]
              exact ih (h.fill heof).1 (by omega)
      | cons c more =>
          obtain ⟨hpeek, hhead, -⟩ := h.peek hwindow
          have hrest : p.rest = c :: p.rest.tail := by
            have hunread := h.synced.unread
            rw [hwindow, List.cons_append] at hunread
            rw [← hunread, List.tail_cons]
          rw [h.not_exhausted hwindow, if_neg Bool.false_ne_true, Prog.bind_of_ok hpeek]
          cases hspace : isWhitespace c with
          | true =>
              have hdistance := StreamReader.distance_advance hwindow
              have hnext := @ih _ { p with rest := p.rest.drop 1 }
                (h.advance (by rw [hwindow]; exact Nat.le_add_left 1 _)) (by omega)
              have hdrop : p.rest.dropWhile isWhitespace = (p.rest.drop 1).dropWhile isWhitespace := by
                conv_lhs => rw [hrest, List.dropWhile_cons_of_pos hspace]
                rw [List.drop_one]
              rw [if_pos rfl, hdrop]
              exact hnext
          | false =>
              have hsame : p.rest.dropWhile isWhitespace = p.rest := by
                rw [hrest, List.dropWhile_cons_of_neg (by rw [hspace]; decide)]
              rw [if_neg Bool.false_ne_true, hsame]
              refine ⟨s, rfl, h, iff_of_false ?_ ?_⟩
              · rw [h.not_exhausted hwindow]
                decide
              · rw [hrest]
                exact List.cons_ne_nil _ _

theorem Live.skipWs (h : Live setup s p) : ∃ s', StreamReader.skipWs s = .ok ((), s') ∧
    Live setup s' { p with rest := p.rest.dropWhile isWhitespace } ∧
    (s'.exhausted = true ↔ p.rest.dropWhile isWhitespace = []) :=
  h.skipWsLoop s.distance_lt

/-! ### Rules for the steps of the machine -/

section Rules

theorem Live.with_failure (h : Live setup s p) {error : Error} {failure : Failure}
    (herror : error = failure.error (Window.whole setup.input)) :
    Synced setup (s.record (.kernel error)) (if p.failure.isSome then p else { p with failure := some failure }) := by
  rw [StreamReader.record, h.noError, h.clear, if_neg Bool.false_ne_true]
  have hbegun := h.begun
  exact ⟨h.synced.unread, h.synced.inside, h.synced.offset, h.synced.sound, h.synced.eof,
    h.synced.chunk, h.synced.mode, h.synced.depth, h.synced.strip, h.synced.strict, h.synced.stack,
    h.synced.started, h.synced.rootDone, h.synced.finished, by rw [herror]; rfl,
    fun hfalse => absurd (hbegun.symm.trans hfalse) (by decide), h.synced.out⟩

theorem mirrors_fail (h : Live setup s p) (code : ErrorCode) {offset left : Nat}
    (hoffset : offset + left = setup.input.length) :
    Mirrors setup ((StreamReader.fail code offset : Prog StreamReader α) s)
      ((Pull.fail code left : Prog Pull β) p) done := by
  have herror : ({ code, position := offset, positioned := true } : Error) =
      Failure.error (Window.whole setup.input) { code, left := some left } := by
    rw [Failure.error, Window.whole]
    congr 1
    simp only
    omega
  exact .inr ⟨_, rfl, h.with_failure herror⟩

theorem mirrors_failHere (h : Live setup s p) (code : ErrorCode) :
    Mirrors setup ((StreamReader.failHere code : Prog StreamReader α) s)
      ((Pull.failHere code : Prog Pull β) p) done :=
  mirrors_fail h code h.synced.offset

theorem mirrors_failContext (h : Live setup s p) (code : ErrorCode) :
    Mirrors setup ((StreamReader.failContext code : Prog StreamReader α) s)
      ((Pull.failContext code : Prog Pull β) p) done :=
  have herror : ({ code } : Error) = Failure.error (Window.whole setup.input) { code } := rfl
  .inr ⟨_, rfl, h.with_failure herror⟩

theorem Live.failIfError (h : Live setup s p) : StreamReader.failIfError s = .ok ((), s) := by
  rw [StreamReader.failIfError, Prog.bind_get, h.noError]
  rfl

/-- Whitespace is skipped in front of what comes next. -/
theorem mirrors_skipWs (h : Live setup s p) {next : StreamReader → Prog StreamReader α}
    {next' : Pull → Prog Pull β}
    (hnext : ∀ s' p', Live setup s' p' → p'.stack = p.stack →
      (s'.exhausted = true ↔ p'.rest = []) → Mirrors setup (next s' s') (next' p' p') done) :
    Mirrors setup
      ((StreamReader.skipWs >>= fun _ => StreamReader.failIfError >>= fun _ => Prog.get >>= next) s)
      ((Pull.skipWs >>= fun _ => Prog.get >>= next') p) done := by
  obtain ⟨s', hskip, hlive, hend⟩ := h.skipWs
  rw [Prog.bind_of_ok hskip, Prog.bind_of_ok hlive.failIfError, Prog.bind_get, Pull.skipWs,
    Prog.bind_modify, Prog.bind_get]
  exact hnext s' _ hlive rfl hend

/-- A byte that is left is at the front of the window where the window is not empty. -/
theorem Live.front (h : Live setup s p) (hne : s.exhausted = false) :
    ∃ c more, s.window = c :: more ∧ StreamReader.peek s = .ok (c, s) ∧ p.rest.headD 0 = c := by
  cases hwindow : s.window with
  | nil =>
      rw [h.exhausted_iff.mpr hwindow] at hne
      cases hne
  | cons c more => exact ⟨c, more, rfl, (h.peek hwindow).1, (h.peek hwindow).2.1⟩

/-- The branch on whether bytes are left, and on the first of them. -/
theorem mirrors_front (h : Live setup s p) (hend : s.exhausted = true ↔ p.rest = [])
    {atEnd : Prog StreamReader α} {atEnd' : Prog Pull β} {next : UInt8 → Prog StreamReader α}
    {next' : UInt8 → Prog Pull β} (hatEnd : Mirrors setup (atEnd s) (atEnd' p) done)
    (hnext : ∀ c more, s.window = c :: more → Mirrors setup (next c s) (next' c p) done) :
    Mirrors setup ((if s.exhausted then atEnd else StreamReader.peek >>= next) s)
      ((if p.rest = [] then atEnd' else Pull.peek >>= next') p) done := by
  cases hexhausted : s.exhausted with
  | true =>
      rw [if_pos rfl, if_pos (hend.mp hexhausted)]
      exact hatEnd
  | false =>
      obtain ⟨c, more, hwindow, hpeek, hhead⟩ := h.front hexhausted
      have hne : p.rest ≠ [] := fun hnil => by rw [hend.mpr hnil] at hexhausted; cases hexhausted
      rw [if_neg Bool.false_ne_true, if_neg hne, Prog.bind_of_ok hpeek]
      change Mirrors setup _ (next' (p.rest.headD 0) p) done
      rw [hhead]
      exact hnext c more hwindow

/-- Moving over the first byte. -/
theorem mirrors_advance (h : Live setup s p) {c : UInt8} {more : Bytes} (hwindow : s.window = c :: more)
    {next : Unit → Prog StreamReader α} {next' : Unit → Prog Pull β}
    (hnext : ∀ s' p', Live setup s' p' → p'.stack = p.stack → Mirrors setup (next () s') (next' () p') done) :
    Mirrors setup ((StreamReader.advance 1 >>= next) s) ((Pull.advance 1 >>= next') p) done :=
  hnext _ _ (h.advance (by rw [hwindow]; exact Nat.le_add_left 1 _)) rfl

end Rules

end PjhJson
