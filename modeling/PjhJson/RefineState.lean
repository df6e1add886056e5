import PjhJson.NumberToken
import PjhJson.ParserEntry
import PjhJson.Reading

/-! The parser on its memory follows the reading of the unread bytes. `Tracks` relates the two
states: the buffer from the cursor on is what is unread, followed by the padding. What a step leaves
behind the cursor is not touched by later ones (`Kept`), so that borrowed strings keep their
content. -/

namespace PjhJson

/-- The part of a buffer that is parsed: it starts at `start`, the content of the buffer has `size`
bytes, and the bytes `behind` lie behind the part. The part ends where the content ends or at a
control byte. -/
structure Window where
  start : Nat
  size : Nat
  behind : Bytes
  sealed : behind.headD 0 < 0x20

def Window.tail (w : Window) : Nat := w.behind.length

/-- The `Error` that the parser records for a failure of the reading. -/
def Failure.error (w : Window) (failure : Failure) : Error where
  code := failure.code
  position := match failure.left with
    | some left => w.size - left - w.start
    | none => 0
  positioned := failure.left.isSome
  detail := failure.detail

/-- The parser is where the reading is, `depth` containers deep. -/
structure Tracks (w : Window) (depth : Nat) (p : Parser) (r : Reading) : Prop where
  unread : p.buffer.drop p.mCurr = padded r.rest
  curr : p.mCurr + r.rest.length = w.size
  last : p.mEnd + w.tail = w.size
  start : p.mBegin = w.start
  depth : p.mDepth = depth
  error : p.mError = r.failure.map (Failure.error w)
  behind : p.buffer.drop p.mEnd = padded w.behind
  inside : w.tail ≤ r.rest.length → r.rest.drop (r.rest.length - w.tail) = w.behind

/-- The parser failed with the error that the reading failed with. -/
def Failed (w : Window) (p : Parser) (r : Reading) : Prop :=
  p.mError = r.failure.map (Failure.error w)

/-- The parser does what the reading does. -/
abbrev Matches (w : Window) {α β : Type} (run : Res Parser (α × Parser))
    (reading : Res Reading (β × Reading)) (done : α → Parser → β → Reading → Prop) : Prop :=
  Prog.Simulates run reading done (Failed w) fun _ => False

/-- The cursor has moved forward, and what lay behind it is as it was. -/
structure Kept (p p' : Parser) : Prop where
  le : p.mCurr ≤ p'.mCurr
  last : p'.mEnd = p.mEnd
  memory : p'.buffer.take p.mCurr = p.buffer.take p.mCurr

/-- A step that writes no value: the parser tracks the reading again and `out` is as it was. -/
structure Step (w : Window) (depth : Nat) (p p' : Parser) (r' : Reading) : Prop where
  tracks : Tracks w depth p' r'
  kept : Kept p p'
  out : p'.out = p.out

/-- The view lies behind `limit`. -/
def View.Below (limit : Nat) (view : View) : Prop := view.offset + view.length ≤ limit

/-- The end of what has been parsed. -/
def Parser.passed (p : Parser) : Nat := min p.mCurr p.mEnd

/-- The view holds this text, behind the cursor and inside the part. -/
def HoldsText (p : Parser) (view : View) (text : Bytes) : Prop :=
  view.read p.buffer = text ∧ view.Below p.passed

/-- The tree of views is the value of `ast`, with its strings behind the cursor. -/
def HoldsJson (platform : Platform) (cfg : Config) (p : Parser) (json : Json View) (ast : Ast) :
    Prop :=
  json.map (View.read p.buffer) = ast.toJson (tokenNumber platform cfg) ∧
    json.All (View.Below p.passed)

/-- A step that writes a value to `out`. -/
structure ValueStep (platform : Platform) (cfg : Config) (w : Window) (depth : Nat) (p p' : Parser)
    (value : Ast) (r' : Reading) : Prop where
  tracks : Tracks w depth p' r'
  kept : Kept p p'
  out : HoldsJson platform cfg p' p'.out value

theorem Kept.refl (p : Parser) : Kept p p := ⟨Nat.le_refl _, rfl, rfl⟩

theorem Kept.trans {p p' p'' : Parser} (h : Kept p p') (h' : Kept p' p'') : Kept p p'' where
  le := Nat.le_trans h.le h'.le
  last := h'.last.trans h.last
  memory := by
    have hcut := congrArg (List.take p.mCurr) h'.memory
    rw [List.take_take, List.take_take, Nat.min_eq_left h.le] at hcut
    rw [hcut, h.memory]

theorem Step.refl {w : Window} {depth : Nat} {p : Parser} {r : Reading} (h : Tracks w depth p r) :
    Step w depth p p r := ⟨h, Kept.refl p, rfl⟩

theorem Step.trans {w : Window} {depth : Nat} {p p' p'' : Parser} {r' r'' : Reading}
    (h : Step w depth p p' r') (h' : Step w depth p' p'' r'') : Step w depth p p'' r'' :=
  ⟨h'.tracks, h.kept.trans h'.kept, h'.out.trans h.out⟩

namespace Tracks

variable {w : Window} {depth : Nat} {p : Parser} {r : Reading}

theorem length_buffer (h : Tracks w depth p r) : p.buffer.length = w.size + kPaddingWidth := by
  have hlength := congrArg List.length h.unread
  have hcurr := h.curr
  simp only [padded, List.length_drop, List.length_append, List.length_replicate,
    kPaddingWidth] at hlength ⊢
  omega

theorem curr_eq (h : Tracks w depth p r) : p.mCurr = w.size - r.rest.length := by
  have := h.curr
  omega

theorem curr_le (h : Tracks w depth p r) : p.mCurr ≤ p.buffer.length := by
  have := h.curr
  rw [h.length_buffer]
  omega

theorem atEnd (h : Tracks w depth p r) : p.atEnd = r.atEnd w.tail := by
  have hcurr := h.curr
  have hlast := h.last
  rw [Parser.atEnd, Reading.atEnd, decide_eq_decide]
  omega

theorem view (h : Tracks w depth p r) : p.view = r.body w.tail := by
  have hcurr := h.curr
  have hlast := h.last
  rw [Parser.view, List.drop_take, h.unread, Reading.body, padded,
    List.take_append_of_le_length (by omega)]
  congr 1
  omega

theorem peek (h : Tracks w depth p r) : Parser.peek p = .ok (r.here, p) := by
  have hget : p.buffer[p.mCurr]? = some r.here := by
    rw [← List.head?_drop, h.unread, Reading.here, padded, kPaddingWidth]
    cases r.rest <;> simp [List.replicate_succ]
  rw [Parser.peek, hget]

/-- The unread part of the memory, at the cursor and any number of unread bytes further. -/
theorem drop_buffer (h : Tracks w depth p r) {count : Nat} (hle : count ≤ r.rest.length) :
    p.buffer.drop (p.mCurr + count) = padded (r.rest.drop count) := by
  rw [← List.drop_drop, h.unread, padded, List.drop_append_of_le_length hle, padded]

theorem drop (h : Tracks w depth p r) {count : Nat} (hle : count ≤ r.rest.length) :
    Tracks w depth { p with mCurr := p.mCurr + count } { r with rest := r.rest.drop count } where
  unread := h.drop_buffer hle
  curr := by
    have := h.curr
    simp only [List.length_drop]
    omega
  last := h.last
  start := h.start
  depth := h.depth
  error := h.error
  behind := h.behind
  inside := by
    intro hle'
    rw [List.length_drop] at hle'
    simp only [List.length_drop]
    rw [List.drop_drop, ← h.inside (by omega)]
    congr 1
    omega

theorem step_drop (h : Tracks w depth p r) {count : Nat} (hle : count ≤ r.rest.length) :
    Step w depth p { p with mCurr := p.mCurr + count } { r with rest := r.rest.drop count } :=
  ⟨h.drop hle, ⟨Nat.le_add_right _ _, rfl, rfl⟩, rfl⟩

/-- Bytes that are no control bytes do not reach behind the part. -/
theorem tail_le_of_plain (h : Tracks w depth p r) (hle : w.tail ≤ r.rest.length) {plain rest : Bytes}
    (hrest : r.rest = plain ++ rest) (hplain : ∀ c ∈ plain, 0x20 ≤ c) : w.tail ≤ rest.length := by
  by_contra hlt
  rw [Nat.not_le] at hlt
  have hbehind := h.inside hle
  rw [hrest, List.length_append] at hbehind hle
  rw [List.drop_append_of_le_length (by omega)] at hbehind
  obtain ⟨c, more, hmore⟩ := List.exists_cons_of_ne_nil
    (show plain.drop (plain.length + rest.length - w.tail) ≠ [] by
      rw [← List.length_pos_iff, List.length_drop]
      omega)
  have hc := hplain c (List.mem_of_mem_drop (hmore ▸ List.mem_cons_self))
  have hsealed := w.sealed
  rw [← hbehind, hmore, List.cons_append, List.headD_cons] at hsealed
  exact UInt8.not_lt.mpr hc hsealed

/-- A byte that is not NUL is an unread byte. -/
theorem here_cons (hne : r.here ≠ 0) : ∃ rest, r.rest = r.here :: rest := by
  rw [Reading.here] at hne ⊢
  cases hrest : r.rest with
  | nil => rw [hrest] at hne; exact absurd rfl hne
  | cons c rest => exact ⟨rest, rfl⟩

end Tracks

/-! ### What is behind the cursor stays -/

theorem View.Below.mono {limit limit' : Nat} (hle : limit ≤ limit') {view : View}
    (h : view.Below limit) : view.Below limit' := Nat.le_trans h hle

theorem Kept.passed_le {p p' : Parser} (h : Kept p p') : p.passed ≤ p'.passed := by
  have := h.le
  simp only [Parser.passed, h.last]
  omega

theorem View.read_kept {p p' : Parser} (hkept : Kept p p') {view : View}
    (h : view.Below p.passed) : view.read p'.buffer = view.read p.buffer :=
  Memory.slice_congr hkept.memory (h.mono (Nat.min_le_left _ _))

theorem HoldsText.kept {p p' : Parser} {view : View} {text : Bytes} (h : HoldsText p view text)
    (hkept : Kept p p') : HoldsText p' view text :=
  ⟨(View.read_kept hkept h.2).trans h.1, h.2.mono hkept.passed_le⟩

/-- A text that the view holds can be read. -/
theorem HoldsText.characters {w : Window} {depth : Nat} {p : Parser} {r : Reading} {view : View}
    {text : Bytes} (h : HoldsText p view text) (htracks : Tracks w depth p r) :
    Parser.characters view p = .ok (text, p) := by
  have hcurr := htracks.curr_le
  have hbelow : view.offset + view.length ≤ p.passed := h.2
  rw [Parser.passed] at hbelow
  rw [Parser.characters, if_pos (by omega), h.1]

theorem HoldsJson.kept {platform : Platform} {cfg : Config} {p p' : Parser} {json : Json View}
    {ast : Ast} (h : HoldsJson platform cfg p json ast) (hkept : Kept p p') :
    HoldsJson platform cfg p' json ast := by
  refine ⟨?_, h.2.mono fun _ => View.Below.mono hkept.passed_le⟩
  rw [← h.1]
  exact Json.map_congr (h.2.mono fun _ hbelow => View.read_kept hkept hbelow)

theorem Tracks.with_out {w : Window} {depth : Nat} {p : Parser} {r : Reading}
    (h : Tracks w depth p r) (value : Json View) : Tracks w depth { p with out := value } r :=
  ⟨h.unread, h.curr, h.last, h.start, h.depth, h.error, h.behind, h.inside⟩

theorem Kept.with_out {p p' : Parser} (h : Kept p p') (value : Json View) :
    Kept p { p' with out := value } := ⟨h.le, h.last, h.memory⟩

/-! ### Rules for the primitive steps -/

section Rules

variable {w : Window} {depth : Nat} {p : Parser} {r : Reading} {α β : Type}
  {done : α → Parser → β → Reading → Prop}

theorem matches_peek {next : UInt8 → Prog Parser α} {next' : UInt8 → Prog Reading β}
    (h : Tracks w depth p r) (hnext : Matches w (next r.here p) (next' r.here r) done) :
    Matches w ((Parser.peek >>= next) p) ((Reading.peek >>= next') r) done := by
  rw [Prog.bind_of_ok h.peek]
  exact hnext

theorem matches_advance {next : Unit → Prog Parser α} {next' : Unit → Prog Reading β} {count : Nat}
    (h : Tracks w depth p r) (hle : count ≤ r.rest.length)
    (hnext : ∀ p' r', Step w depth p p' r' → p' = { p with mCurr := p.mCurr + count } →
      r' = { r with rest := r.rest.drop count } → Matches w (next () p') (next' () r') done) :
    Matches w ((Parser.advance count >>= next) p) ((Reading.advance count >>= next') r) done :=
  hnext _ _ (h.step_drop hle) rfl rfl

theorem matches_advanceTo {next : Unit → Prog Parser α} {next' : Unit → Prog Reading β}
    {rest : Bytes} (h : Tracks w depth p r)
    (hnext : ∀ p' r', Step w depth p p' r' →
      p' = { p with mCurr := p.mCurr + ((r.body w.tail).length - rest.length) } →
      r' = { r with rest := r.rest.drop ((r.body w.tail).length - rest.length) } →
      Matches w (next () p') (next' () r') done) :
    Matches w ((Parser.advanceTo rest >>= next) p) ((Reading.advanceTo w.tail rest >>= next') r)
      done := by
  have hle : (r.body w.tail).length - rest.length ≤ r.rest.length := by
    rw [Reading.body, List.length_take]
    omega
  rw [Parser.advanceTo, Reading.advanceTo, Prog.bind_modify, Prog.bind_modify, h.view]
  exact hnext _ _ (h.step_drop hle) rfl rfl

/-- Recording a failure on both sides. -/
theorem Tracks.record (h : Tracks w depth p r) {error : Error} {failure : Failure}
    (herror : error = failure.error w) :
    Step w depth p (if p.mError.isSome then p else { p with mError := some error })
      (if r.failure.isSome then r else { r with failure := some failure }) := by
  have hsome : p.mError.isSome = r.failure.isSome := by rw [h.error, Option.isSome_map]
  rw [hsome]
  by_cases hfailure : r.failure.isSome = true
  · rw [if_pos hfailure, if_pos hfailure]
    exact Step.refl h
  · rw [if_neg hfailure, if_neg hfailure]
    exact ⟨⟨h.unread, h.curr, h.last, h.start, h.depth, by rw [herror]; rfl, h.behind, h.inside⟩,
      ⟨Nat.le_refl _, rfl, rfl⟩, rfl⟩

theorem matches_fail (h : Tracks w depth p r) {pos left : Nat} (code : ErrorCode)
    (hpos : pos = w.size - left) :
    Matches w ((Parser.fail code pos : Prog Parser α) p)
      ((Reading.fail code left : Prog Reading β) r) done := by
  have herror : ({ code, position := pos - p.mBegin, positioned := true } : Error) =
      Failure.error w { code, left := some left } := by rw [hpos, h.start]; rfl
  have hstep := h.record herror
  exact .inr ⟨_, rfl, hstep.tracks.error⟩

theorem matches_failHere (h : Tracks w depth p r) (code : ErrorCode) :
    Matches w ((Parser.failHere code : Prog Parser α) p)
      ((Reading.failHere code : Prog Reading β) r) done :=
  matches_fail h code h.curr_eq

theorem matches_failContext (h : Tracks w depth p r) (code : ErrorCode) (detail : Bytes) :
    Matches w ((Parser.failContext code detail : Prog Parser α) p)
      ((Reading.failContext code detail : Prog Reading β) r) done := by
  have herror : ({ code, detail } : Error) = Failure.error w { code, detail } := rfl
  have hstep := h.record herror
  exact .inr ⟨_, rfl, hstep.tracks.error⟩

end Rules

end PjhJson
