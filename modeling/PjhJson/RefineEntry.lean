import PjhJson.ReadingTotal
import PjhJson.RefineValue

/-! The entry points follow the reading of texts. `parseCopy_eq` says what `parse_copy` returns, in
terms of the reading alone. -/

namespace PjhJson

variable {platform : Platform} {cfg : Config} {w : Window} {p : Parser} {r : Reading}

theorem matches_failIfRecorded {depth : Nat} {α β : Type} {next : Unit → Prog Parser α}
    {next' : Unit → Prog Reading β} {done : α → Parser → β → Reading → Prop}
    (h : Tracks w depth p r) (hnext : Matches w (next () p) (next' () r) done) :
    Matches w ((Parser.failIfRecorded >>= next) p) ((Reading.failIfRecorded >>= next') r) done := by
  have hcheck : Matches w (Parser.failIfRecorded p) (Reading.failIfRecorded r)
      fun _ p' _ r' => p = p' ∧ r = r' := by
    rw [Parser.failIfRecorded, Reading.failIfRecorded, Prog.bind_get, Prog.bind_get, h.error,
      Option.isSome_map]
    split
    · exact Prog.simulates_error h.error
    · exact Prog.simulates_ok ⟨rfl, rfl⟩
  refine Prog.simulates_bind hcheck ?_
  rintro _ _ _ _ ⟨rfl, rfl⟩
  exact hnext

theorem matches_stripLeadingBom (h : Tracks w 0 p r) (hstart : p.mCurr = p.mBegin) :
    Matches w (Parser.stripLeadingBom cfg p)
      (Reading.skipLeadingBom cfg w.tail r) fun _ p' _ r' => Step w 0 p p' r' := by
  rw [Parser.stripLeadingBom, Reading.skipLeadingBom, Prog.modify_apply]
  by_cases hstrip : cfg.stripBom = true
  swap
  · rw [if_neg hstrip, if_neg fun hboth => hstrip hboth.1]
    exact Prog.simulates_ok (Step.refl h)
  rw [if_pos hstrip, Parser.skipLeadingBom, Prog.bind_get, h.view]
  by_cases hbom : startsWithUtf8Bom (r.body w.tail) = true
  · have hlength : 3 ≤ r.rest.length := by
      have htake := congrArg List.length (beq_iff_eq.mp hbom)
      have hbody := Reading.length_body w.tail r
      rw [List.length_take] at htake
      simp only [List.length_cons, List.length_nil] at htake
      omega
    rw [if_pos ⟨hstart, hbom⟩, if_pos ⟨hstrip, hbom⟩]
    exact Prog.simulates_ok (h.step_drop hlength)
  · rw [if_neg fun hboth => hbom hboth.2, if_neg fun hboth => hbom hboth.2]
    exact Prog.simulates_ok (Step.refl h)

/-- A parse of the part follows the reading of it. -/
theorem matches_parse (h : Tracks w 0 p r) (hstart : p.mCurr = p.mBegin)
    (hpadded : p.mAssumePadded = true) :
    Matches w (Parser.parse platform cfg p) (Reading.readText Reading.skipWhitespace platform cfg w.tail r)
      fun _ p' value r' => ValueStep platform cfg w 0 p p' value r' := by
  have hfuel : r.rest.length ≤ p.buffer.length := by
    have := h.curr
    rw [h.length_buffer]
    omega
  rw [Parser.parse, Reading.readText, Prog.bind_get, Prog.bind_get, hpadded, if_neg (by decide)]
  refine Prog.simulates_bind (matches_stripLeadingBom h hstart) fun _ p₀ _ r₀ hstep₀ => ?_
  refine Prog.simulates_bind (matches_parseValue hfuel hstep₀.tracks) fun _ p₁ value r₁ hvalue => ?_
  refine matches_failIfRecorded hvalue.tracks ?_
  refine Prog.simulates_bind (matches_skipWhitespace hvalue.tracks) fun _ p₂ _ r₂ hstep₂ => ?_
  refine matches_failIfRecorded hstep₂.tracks ?_
  rw [Prog.bind_get, Prog.bind_get, hstep₂.tracks.atEnd]
  cases r₂.atEnd w.tail with
  | true =>
      refine Prog.simulates_ok ⟨hstep₂.tracks, (hstep₀.kept.trans hvalue.kept).trans hstep₂.kept, ?_⟩
      rw [hstep₂.out]
      exact hvalue.out.kept hstep₂.kept
  | false => exact matches_failHere hstep₂.tracks _

/-! ### `parse_copy` -/

/-- The window of a whole input. -/
def Window.whole (json : Bytes) : Window := ⟨0, json.length, [], by decide⟩

theorem tracks_whole (json : Bytes) :
    Tracks (Window.whole json) 0
      { buffer := padded json, mBegin := 0, mCurr := 0, mEnd := json.length } { rest := json } where
  unread := rfl
  curr := Nat.zero_add _
  last := rfl
  start := rfl
  depth := rfl
  error := rfl
  behind := List.drop_left
  inside := fun _ => List.drop_length

/-- `parse_copy` fails where the reading of its input does, with the error of that failure, and
otherwise returns the value of the tree that is read. -/
theorem parseCopy_spec {json : Bytes} (hfits : paddedFits json.length = true) :
    (∃ value r, Reading.readText Reading.skipWhitespace platform cfg 0 { rest := json } = .ok (value, r) ∧
      ∃ document, parseCopy platform cfg json = .ok document ∧
        document.tree = value.toJson (tokenNumber platform cfg)) ∨
    ∃ failure r, Reading.readText Reading.skipWhitespace platform cfg 0 { rest := json } = .error r ∧
      r.failure = some failure ∧
      parseCopy platform cfg json = .error (failure.error (Window.whole json)) := by
  have hmatches : Matches (Window.whole json) _
      (Reading.readText Reading.skipWhitespace platform cfg 0 { rest := json }) _ :=
    matches_parse (tracks_whole json) rfl rfl
  have hends : Reading.Reads { rest := json }
      (Reading.readText Reading.skipWhitespace platform cfg 0 { rest := json }) :=
    Reading.reads_readText
  rw [parseCopy, hfits, if_neg (by decide)]
  cases hread : Reading.readText Reading.skipWhitespace platform cfg 0 { rest := json } with
  | stuck => exact absurd hread hends.ne_stuck
  | ok result =>
      obtain ⟨value, r⟩ := result
      rw [hread] at hmatches
      obtain ⟨_, p, hparse, hvalue⟩ := hmatches
      rw [hparse]
      exact .inl ⟨value, r, rfl, _, rfl, hvalue.out.1⟩
  | error r =>
      obtain ⟨failure, hfailure⟩ := Option.isSome_iff_exists.mp (hends.error hread)
      rw [hread] at hmatches
      obtain hfalse | ⟨p, hparse, hfailed⟩ := hmatches
      · exact hfalse.elim
      · rw [hparse]
        refine .inr ⟨failure, r, rfl, hfailure, ?_⟩
        change Res.error (p.mError.getD _) = _
        rw [hfailed, hfailure]
        rfl

/-- A successful `parse_copy` reads the whole input. -/
theorem parseCopy_eq_ok {json : Bytes} (hfits : paddedFits json.length = true) {tree : Json Bytes} :
    (∃ document, parseCopy platform cfg json = .ok document ∧ document.tree = tree) ↔
      ∃ value r, Reading.readText Reading.skipWhitespace platform cfg 0 { rest := json } = .ok (value, r) ∧
        value.toJson (tokenNumber platform cfg) = tree := by
  obtain ⟨value, r, hread, document, hparse, htree⟩ | ⟨failure, r, hread, _, hparse⟩ :=
    @parseCopy_spec platform cfg json hfits
  · constructor
    · rintro ⟨document', hparse', rfl⟩
      obtain rfl := Res.ok.inj (hparse.symm.trans hparse')
      exact ⟨value, r, hread, htree.symm⟩
    · rintro ⟨value', r', hread', rfl⟩
      obtain ⟨rfl, rfl⟩ := Prod.mk.inj (Res.ok.inj (hread.symm.trans hread'))
      exact ⟨document, hparse, htree⟩
  · constructor
    · rintro ⟨document', hparse', -⟩
      rw [hparse] at hparse'
      cases hparse'
    · rintro ⟨value', r', hread', -⟩
      rw [hread] at hread'
      cases hread'

theorem paddedFits_of_parseCopy {json : Bytes} {document : Document}
    (h : parseCopy platform cfg json = .ok document) :
    paddedFits json.length = true := by
  rw [parseCopy] at h
  by_contra hfits
  rw [Bool.not_eq_true] at hfits
  rw [hfits, if_pos (by decide)] at h
  cases h

end PjhJson
