import PjhJson.EscapeText
import PjhJson.RefineText
import PjhJson.StringGrammar

/-! The string and key decoders follow the reading of strings. `Decoding` is the invariant of the
in-place loops: the bytes from the start of the string to `dst` are what has been decoded so far, and
`dst` has not passed the cursor. -/

namespace PjhJson

open Grammar Scanner

variable {platform : Platform} {cfg : Config} {w : Window} {depth : Nat} {p : Parser} {r : Reading}

/-! ### The UTF-8 gate -/

namespace Utf8Checker

/-- The positions in the checker are at most `limit`. -/
def Within (limit : Nat) (ck : Utf8Checker) : Prop := ck.err ≤ limit ∧ ck.lead ≤ limit

theorem within_init (limit : Nat) : ({} : Utf8Checker).Within limit := ⟨Nat.zero_le _, Nat.zero_le _⟩

variable {limit pos : Nat} {ck : Utf8Checker}

theorem Within.mono {limit' : Nat} (h : ck.Within limit) (hle : limit ≤ limit') :
    ck.Within limit' := ⟨Nat.le_trans h.1 hle, Nat.le_trans h.2 hle⟩

theorem Within.set (h : ck.Within limit) (code : ErrorCode) (hpos : pos ≤ limit) :
    (ck.set code pos).Within limit := by
  rw [Utf8Checker.set]
  split
  · exact h
  · exact ⟨hpos, h.2⟩

theorem Within.feed (h : ck.Within limit) (b : UInt8) (hpos : pos ≤ limit) :
    (ck.feed b pos).Within limit := by
  have hbegin : ∀ need lo hi code, (ck.begin need lo hi code pos).Within limit :=
    fun _ _ _ _ => ⟨h.1, hpos⟩
  rw [Utf8Checker.feed]
  split
  · exact h
  split
  · rw [feedLead]
    split_ifs
    · exact h
    all_goals first | exact hbegin _ _ _ _ | exact h.set _ hpos
  · rw [feedContinuation]
    split_ifs
    · exact h
    · exact h.set _ hpos
    · exact h.set _ h.2
    · exact h
    · exact h.set _ hpos
    · exact h

theorem Within.finish (h : ck.Within limit) : ck.finish.Within limit := by
  rw [Utf8Checker.finish]
  split
  · exact h.set _ h.2
  · exact h

theorem Within.feedRange {content : Bytes} (h : ck.Within limit)
    (hpos : pos + content.length ≤ limit) : (ck.feedRange content pos).Within limit := by
  induction content generalizing ck pos with
  | nil => exact h
  | cons b content ih =>
      rw [List.length_cons] at hpos
      rw [Utf8Checker.feedRange]
      split
      · exact h
      · exact ih (h.feed b (by omega)) (by omega)

end Utf8Checker

theorem matches_checkUtf8 {start left : Nat} {ck : Utf8Checker} {α β : Type}
    {next : Unit → Prog Parser α} {next' : Unit → Prog Reading β}
    {done : α → Parser → β → Reading → Prop} (h : Tracks w depth p r) (hck : ck.Within left)
    (hstart : start + left = w.size) (hnext : Matches w (next () p) (next' () r) done) :
    Matches w ((Parser.checkUtf8 start ck >>= next) p) ((Reading.checkUtf8 left ck >>= next') r)
      done := by
  rw [Parser.checkUtf8, Reading.checkUtf8]
  have herr := hck.1
  by_cases hfailed : ck.failed = true
  · rw [if_pos hfailed, if_pos hfailed]
    have hfail : Matches w ((Parser.fail ck.code (start + ck.err) : Prog Parser Unit) p)
        ((Reading.fail ck.code (left - ck.err) : Prog Reading Unit) r) fun _ _ _ _ => False :=
      matches_fail h ck.code (by omega)
    exact Prog.simulates_bind hfail fun _ _ _ _ hfalse => hfalse.elim
  · rw [if_neg hfailed, if_neg hfailed]
    exact hnext

/-! ### Decoding in place -/

/-- The loop invariant of the decoders, for a string whose content starts at `start` in a parser that
was in state `p₀`. -/
structure Decoding (w : Window) (depth : Nat) (p₀ : Parser) (start : Nat) (p : Parser) (r : Reading)
    (dst : Nat) (decoded : Bytes) : Prop where
  tracks : Tracks w depth p r
  start_le : start ≤ dst
  dst_le : dst ≤ p.mCurr
  content : Memory.slice p.buffer start (dst - start) = decoded
  memory : p.buffer.take start = p₀.buffer.take start
  last : p.mEnd = p₀.mEnd
  out : p.out = p₀.out
  inside : w.tail ≤ r.rest.length

namespace Decoding

variable {p₀ : Parser} {start dst : Nat} {decoded : Bytes}

theorem init (h : Tracks w depth p r) (hinside : w.tail ≤ r.rest.length) :
    Decoding w depth p p.mCurr p r p.mCurr [] :=
  ⟨h, Nat.le_refl _, Nat.le_refl _, by simp [Memory.slice], rfl, rfl, rfl, hinside⟩

/-- Writing behind the cursor after it has moved over what was decoded. -/
theorem write (h : Decoding w depth p₀ start p r dst decoded) {count : Nat} {written : Bytes}
    (hcount : count + w.tail ≤ r.rest.length) (hfit : dst + written.length ≤ p.mCurr + count) :
    Decoding w depth p₀ start
      { p with buffer := Memory.overlay p.buffer dst written, mCurr := p.mCurr + count }
      { r with rest := r.rest.drop count } (dst + written.length) (decoded ++ written) := by
  have hbuffer := h.tracks.length_buffer
  have hcurr := h.tracks.curr
  have hdst := h.dst_le
  have hstart := h.start_le
  have hlast := h.tracks.last
  have hdrop := @Tracks.drop _ _ _ _ h.tracks count (by omega)
  refine ⟨⟨?_, hdrop.curr, hlast, h.tracks.start, h.tracks.depth, h.tracks.error, ?_, hdrop.inside⟩,
    by omega, hfit, ?_, ?_, h.last, h.out, by rw [List.length_drop]; omega⟩
  · simp only
    rw [Memory.drop_overlay hfit (by omega)]
    exact hdrop.unread
  · simp only
    rw [Memory.drop_overlay (by omega) (by omega)]
    exact h.tracks.behind
  · rw [Memory.slice_overlay written hstart (by omega), h.content]
  · rw [Memory.take_overlay written hstart (by omega), h.memory]

/-- Moving over plain text, while nothing has been decoded yet. -/
theorem skip (h : Decoding w depth p₀ start p r p.mCurr decoded) {count : Nat}
    (hcount : count + w.tail ≤ r.rest.length) :
    Decoding w depth p₀ start { p with mCurr := p.mCurr + count }
      { r with rest := r.rest.drop count } (p.mCurr + count) (decoded ++ r.rest.take count) := by
  have hstart := h.start_le
  have hlength : (p.buffer.drop start).take (p.mCurr - start) = decoded := h.content
  refine ⟨h.tracks.drop (by omega), by omega, Nat.le_refl _, ?_, h.memory, h.last, h.out,
    by rw [List.length_drop]; omega⟩
  rw [Memory.slice, show p.mCurr + count - start = (p.mCurr - start) + count by omega,
    List.take_add, hlength, List.drop_drop, show start + (p.mCurr - start) = p.mCurr by omega,
    h.tracks.unread, padded, List.take_append_of_le_length (by omega)]

/-- The closing quote ends the string. -/
theorem close (h : Decoding w depth p₀ start p r dst decoded) (hstart : p₀.mCurr ≤ start)
    {count : Nat} (hcount : count ≤ r.rest.length) :
    Step w depth p₀ { p with mCurr := p.mCurr + count } { r with rest := r.rest.drop count } ∧
      HoldsText { p with mCurr := p.mCurr + count } ⟨start, dst - start⟩ decoded := by
  have hle := h.start_le
  have hdst := h.dst_le
  have hcurr := h.tracks.curr
  have hlast := h.tracks.last
  have hinside := h.inside
  refine ⟨⟨h.tracks.drop hcount, ⟨by simp only; omega, h.last, ?_⟩, h.out⟩, h.content, ?_⟩
  · have hcut := congrArg (List.take p₀.mCurr) h.memory
    rwa [List.take_take, List.take_take, Nat.min_eq_left hstart] at hcut
  · simp only [View.Below, Parser.passed]
    omega

end Decoding

/-- Decoding one escape, where the two decoders agree on what they find. -/
theorem matches_decodeEscape {p₀ : Parser} {start dst : Nat} {decoded : Bytes}
    {textL : Parser → Bytes} {textR : Reading → Bytes}
    {decoderL decoderR : Bytes → Res EscapeError (Bytes × Bytes)} {more : Bytes}
    (h : Decoding w depth p₀ start p r dst decoded) (htext : textL p = textR r ++ more)
    (hlength : (textR r).length ≤ r.rest.length)
    (hdecode : decoderL (textL p) = appendEscape more (decoderR (textR r)))
    (hshrink : ∀ written rest, decoderR (textR r) = .ok (written, rest) →
      written.length + rest.length ≤ (textR r).length ∧
        (textR r).length - rest.length + w.tail ≤ r.rest.length) :
    Matches w (Parser.decodeEscape textL decoderL dst p) (Reading.decodeEscape textR decoderR r)
      fun dst' p' written r' => dst' = dst + written.length ∧
        Decoding w depth p₀ start p' r' dst' (decoded ++ written) := by
  have hcurr := h.tracks.curr
  have hdst := h.dst_le
  rw [Parser.decodeEscape, Reading.decodeEscape, Prog.bind_get, Prog.bind_get, hdecode]
  cases hresult : decoderR (textR r) with
  | stuck => trivial
  | error failure =>
      obtain ⟨code, anchor⟩ := failure
      cases anchor with
      | none => exact matches_failContext h.tracks code []
      | some anchor =>
          refine matches_fail h.tracks code ?_
          rw [htext, List.length_append, List.length_append]
          omega
  | ok result =>
      obtain ⟨written, rest⟩ := result
      obtain ⟨hle, hinside⟩ := hshrink written rest hresult
      have hcount : (textL p).length - (rest ++ more).length = (textR r).length - rest.length := by
        rw [htext, List.length_append, List.length_append]
        omega
      have hbuffer := h.tracks.length_buffer
      have hstore : Parser.store dst written p =
          .ok ((), { p with buffer := Memory.overlay p.buffer dst written }) := by
        rw [Parser.store, if_pos (by omega)]
      simp only [appendEscape, hcount]
      rw [Prog.bind_of_ok hstore]
      exact Prog.simulates_ok ⟨rfl, h.write hinside (by omega)⟩

/-- Storing one plain byte and moving over it. -/
theorem matches_storeByte {p₀ : Parser} {start dst : Nat} {decoded : Bytes} {α β : Type}
    {next : Unit → Prog Parser α} {next' : Unit → Prog Reading β}
    {done : α → Parser → β → Reading → Prop}
    (h : Decoding w depth p₀ start p r dst decoded) (c : UInt8) (hinside : 1 + w.tail ≤ r.rest.length)
    (hnext : ∀ p' r', Decoding w depth p₀ start p' r' (dst + 1) (decoded ++ [c]) →
      r' = { r with rest := r.rest.drop 1 } → Matches w (next () p') (next' () r') done) :
    Matches w ((Parser.store dst [c] >>= fun _ => Parser.advance 1 >>= next) p)
      ((Reading.advance 1 >>= next') r) done := by
  have hcurr := h.tracks.curr
  have hdst := h.dst_le
  have hbuffer := h.tracks.length_buffer
  have hstore : Parser.store dst [c] p =
      .ok ((), { p with buffer := Memory.overlay p.buffer dst [c] }) := by
    rw [Parser.store, if_pos (by rw [List.length_singleton]; omega)]
  rw [Prog.bind_of_ok hstore]
  have hwritten : dst + [c].length ≤ p.mCurr + 1 := by rw [List.length_singleton]; omega
  exact hnext _ _ (h.write hinside hwritten) rfl

/-! ### Strings -/

/-- What the string parsers and their readings agree on. -/
def StringStep (w : Window) (depth : Nat) (p p' : Parser) (view : View) (text : Bytes)
    (r' : Reading) : Prop := Step w depth p p' r' ∧ HoldsText p' view text

theorem isStringStop_eq : Reading.isStringStop = Parser.isStringStop := rfl

theorem plain_of_not_stop {c : UInt8} (h : (!Parser.isStringStop c) = true) : 0x20 ≤ c := by
  rw [Parser.isStringStop, Bool.not_eq_true', Bool.or_eq_false_iff, decide_eq_false_iff_not] at h
  exact UInt8.not_lt.mp h.2

/-- An escape is spelled without control bytes. -/
theorem plain_readEscape {text tail written rest : Bytes} (htext : text = ascii '\\' :: tail)
    (h : Reading.readEscape text = .ok (written, rest)) :
    ∃ spelling, text = spelling ++ rest ∧ ∀ c ∈ spelling, 0x20 ≤ c := by
  subst htext
  obtain ⟨spelling, hcharacter, rfl⟩ := readEscape_iff.mp h
  exact ⟨ascii '\\' :: spelling, rfl, hcharacter.plain⟩

theorem matches_decodeLoop {p₀ : Parser} {start left : Nat} (hleft : start + left = w.size)
    (hp₀ : p₀.mCurr ≤ start) {fuel fuel' : Nat} (hfuel : fuel' ≤ fuel) {dst : Nat} {decoded : Bytes}
    {ck : Utf8Checker} (h : Decoding w depth p₀ start p r dst decoded) (hck : ck.Within left) :
    Matches w (Parser.decodeLoop cfg start fuel dst ck p)
      (Reading.decodeLoop cfg left fuel' decoded ck r)
      fun view p' text r' => StringStep w depth p₀ p' view text r' := by
  induction fuel' generalizing fuel dst decoded ck p r with
  | zero => trivial
  | succ fuel' ih =>
      obtain ⟨fuel, rfl⟩ : ∃ f, fuel = f + 1 := ⟨fuel - 1, by omega⟩
      have hcurr := h.tracks.curr
      have hstart := Nat.le_trans h.start_le h.dst_le
      rw [Parser.decodeLoop, Reading.decodeLoop]
      refine matches_peek h.tracks ?_
      by_cases hquote : r.here = ascii '"'
      · -- the closing quote
        obtain ⟨rest, hrest⟩ := Tracks.here_cons (r := r) (by rw [hquote]; decide)
        rw [if_pos hquote, if_pos hquote]
        have hck' : (if cfg.strictUtf8 then ck.finish else ck).Within left := by
          split
          · exact hck.finish
          · exact hck
        refine matches_checkUtf8 h.tracks hck' hleft ?_
        have hcount : 1 ≤ r.rest.length := by rw [hrest, List.length_cons]; omega
        exact Prog.simulates_ok (h.close hp₀ hcount)
      rw [if_neg hquote, if_neg hquote, Prog.bind_get, Prog.bind_get]
      have hoffset : p.mCurr - start = left - r.rest.length := by omega
      rw [hoffset]
      have hck' : (if cfg.strictUtf8 then ck.feed r.here (left - r.rest.length) else ck).Within
          left := by
        split
        · exact hck.feed _ (Nat.sub_le _ _)
        · exact hck
      refine matches_checkUtf8 h.tracks hck' hleft ?_
      by_cases hescape : r.here = ascii '\\'
      · obtain ⟨rest, hrest⟩ := Tracks.here_cons (r := r) (by rw [hescape]; decide)
        rw [if_pos hescape, if_pos hescape]
        have hzeros : List.replicate kPaddingWidth (0 : UInt8) ≠ [] ∧
            ∀ c ∈ List.replicate kPaddingWidth (0 : UInt8), c = 0 :=
          ⟨by decide, fun c hc => List.eq_of_mem_replicate hc⟩
        have hdecode : handleEscape (p.buffer.drop p.mCurr) =
            appendEscape (List.replicate kPaddingWidth 0) (Reading.readEscape r.rest) := by
          rw [h.tracks.unread, padded, hrest]
          exact handleEscape_append hzeros _ _
        have hshrink : ∀ written rest, Reading.readEscape r.rest = .ok (written, rest) →
            written.length + rest.length ≤ r.rest.length ∧
              r.rest.length - rest.length + w.tail ≤ r.rest.length := by
          intro written rest heq
          have hlength := length_readEscape heq
          refine ⟨hlength.1, ?_⟩
          obtain ⟨spelling, hspelling, hplain⟩ := plain_readEscape (hescape ▸ hrest) heq
          have := h.tracks.tail_le_of_plain h.inside hspelling hplain
          omega
        refine Prog.simulates_bind (matches_decodeEscape h h.tracks.unread (Nat.le_refl _) hdecode
          hshrink) ?_
        rintro dst' p' written r' ⟨rfl, hdecoding⟩
        exact ih (Nat.le_of_succ_le_succ hfuel) hdecoding hck'
      rw [if_neg hescape, if_neg hescape]
      by_cases hcontrol : r.here < 0x20
      · rw [if_pos hcontrol, if_pos hcontrol]
        exact matches_failHere h.tracks _
      · obtain ⟨rest, hrest⟩ := Tracks.here_cons (r := r) (by
          intro hzero
          rw [hzero] at hcontrol
          exact hcontrol (by decide))
        rw [if_neg hcontrol, if_neg hcontrol]
        have hplain : ∀ c ∈ [r.here], 0x20 ≤ c := by simpa using UInt8.not_lt.mp hcontrol
        have hinside := h.tracks.tail_le_of_plain h.inside hrest hplain
        refine matches_storeByte h r.here (by rw [hrest, List.length_cons]; omega) ?_
        intro p' r' hdecoding _
        exact ih (Nat.le_of_succ_le_succ hfuel) hdecoding hck'

theorem matches_parseStringBody (h : Tracks w depth p r) (hinside : w.tail ≤ r.rest.length) :
    Matches w (Parser.parseStringBody platform cfg p) (Reading.readStringBody cfg w.tail r)
      fun view p' text r' => StringStep w depth p p' view text r' := by
  have hcurr := h.curr
  have hscan := @scanTo_eq platform _ _ _ _ Parser.isStringStop (by decide) h
  obtain ⟨plain, hplain⟩ : ∃ plain, plain = r.rest.takeWhile fun c => !Parser.isStringStop c :=
    ⟨_, rfl⟩
  have hle : plain.length ≤ r.rest.length := hplain ▸ length_takeWhile_le _ _
  have htake : r.rest.take plain.length = plain := by
    rw [hplain]
    exact (List.prefix_iff_eq_take.mp (List.takeWhile_prefix _)).symm
  have hinside' : plain.length + w.tail ≤ r.rest.length := by
    have hrest : r.rest = plain ++ r.rest.drop plain.length := by
      conv_lhs => rw [← List.take_append_drop plain.length r.rest, htake]
    have hclass : ∀ c ∈ plain, 0x20 ≤ c := fun c hc =>
      plain_of_not_stop (List.mem_takeWhile_imp (p := fun c => !Parser.isStringStop c) (hplain ▸ hc))
    have := h.tail_le_of_plain hinside hrest hclass
    rw [List.length_drop] at this
    omega
  have hdecoding := (Decoding.init h hinside).skip hinside'
  rw [htake, List.nil_append] at hdecoding
  rw [Parser.parseStringBody, Reading.readStringBody, Prog.bind_get, Prog.bind_get,
    Prog.bind_of_ok hscan, Prog.bind_get]
  simp only [← hplain, isStringStop_eq, hdecoding.content]
  rw [Reading.advance, Prog.bind_modify]
  have hleft : p.mCurr + r.rest.length = w.size := h.curr
  refine matches_peek hdecoding.tracks ?_
  split
  · -- a string without escapes
    rename_i hquote
    obtain ⟨rest, hrest⟩ := Tracks.here_cons (by rw [hquote]; decide)
    have hck : (if cfg.strictUtf8 then checkUtf8Strict plain else {}).Within r.rest.length := by
      split
      · exact ((Utf8Checker.within_init _).feedRange (by omega)).finish
      · exact Utf8Checker.within_init _
    refine matches_checkUtf8 hdecoding.tracks hck hleft ?_
    have hcount := congrArg List.length hrest
    rw [List.length_cons] at hcount
    exact Prog.simulates_ok (hdecoding.close (Nat.le_refl _) (by omega))
  split
  · have hck : (if cfg.strictUtf8 then ({} : Utf8Checker).feedRange plain 0 else {}).Within
        r.rest.length := by
      split
      · exact (Utf8Checker.within_init _).feedRange (by omega)
      · exact Utf8Checker.within_init _
    refine matches_checkUtf8 hdecoding.tracks hck hleft ?_
    have hbuffer := h.length_buffer
    exact matches_decodeLoop hleft (Nat.le_refl _) (by simp only [kPaddingWidth] at hbuffer; omega)
      hdecoding hck
  · rw [hdecoding.tracks.atEnd, Prog.bind_get]
    split
    · exact matches_failHere hdecoding.tracks _
    · exact matches_failHere hdecoding.tracks _

theorem Tracks.lt_of_atEnd (hend : r.atEnd w.tail = false) : w.tail < r.rest.length := by
  rw [Reading.atEnd, decide_eq_false_iff_not] at hend
  omega

theorem Tracks.ne_nil_of_atEnd (hend : r.atEnd w.tail = false) : r.rest ≠ [] :=
  List.ne_nil_of_length_pos (Nat.zero_lt_of_lt (Tracks.lt_of_atEnd hend))

theorem matches_stringLoopJson5 {quote : UInt8} {p₀ : Parser} {start left : Nat}
    (hleft : start + left = w.size) (hp₀ : p₀.mCurr ≤ start) {fuel fuel' : Nat}
    (hfuel : fuel' ≤ fuel) {dst : Option Nat} {decoded : Bytes} {ck : Utf8Checker}
    (h : Decoding w depth p₀ start p r (dst.getD p.mCurr) decoded) (hck : ck.Within left) :
    Matches w (Parser.stringLoopJson5 cfg quote start fuel dst ck p)
      (Reading.stringLoopJson5 cfg w.tail quote left fuel' decoded ck r)
      fun view p' text r' => StringStep w depth p₀ p' view text r' := by
  induction fuel' generalizing fuel dst decoded ck p r with
  | zero => trivial
  | succ fuel' ih =>
      obtain ⟨fuel, rfl⟩ : ∃ f, fuel = f + 1 := ⟨fuel - 1, by omega⟩
      have hfuel' := Nat.le_of_succ_le_succ hfuel
      have hcurr := h.tracks.curr
      have hstart := Nat.le_trans h.start_le h.dst_le
      rw [Parser.stringLoopJson5, Reading.stringLoopJson5, Prog.bind_get, Prog.bind_get,
        h.tracks.atEnd]
      by_cases hend : r.atEnd w.tail = true
      · rw [if_pos hend, if_pos hend]
        exact matches_failHere h.tracks _
      have hne := Tracks.ne_nil_of_atEnd (Bool.not_eq_true _ ▸ hend)
      have hlt := Tracks.lt_of_atEnd (Bool.not_eq_true _ ▸ hend)
      have hcount : 1 ≤ r.rest.length := List.length_pos_iff.mpr hne
      rw [if_neg hend, if_neg hend]
      refine matches_peek h.tracks ?_
      by_cases hquote : r.here = quote
      · rw [if_pos hquote, if_pos hquote]
        have hck' : (if cfg.strictUtf8 then ck.finish else ck).Within left := by
          split
          · exact hck.finish
          · exact hck
        exact matches_checkUtf8 h.tracks hck' hleft (Prog.simulates_ok (h.close hp₀ hcount))
      rw [if_neg hquote, if_neg hquote]
      have hoffset : p.mCurr - start = left - r.rest.length := by omega
      rw [hoffset]
      have hck' : (if cfg.strictUtf8 then ck.feed r.here (left - r.rest.length) else ck).Within
          left := by
        split
        · exact hck.feed _ (Nat.sub_le _ _)
        · exact hck
      refine matches_checkUtf8 h.tracks hck' hleft ?_
      by_cases hescape : r.here = ascii '\\'
      · rw [if_pos hescape, if_pos hescape]
        have hview : p.view = r.body w.tail ++ [] := by rw [h.tracks.view, List.append_nil]
        have hdecode : handleEscapeJson5Bounded p.view =
            appendEscape [] (handleEscapeJson5Bounded (r.body w.tail)) := by
          rw [h.tracks.view]
          cases handleEscapeJson5Bounded (r.body w.tail) with
          | ok result => simp [appendEscape]
          | error failure => simp [appendEscape]
          | stuck => rfl
        have hbody := Reading.length_body w.tail r
        refine Prog.simulates_bind (matches_decodeEscape h hview (Reading.length_body_le _ _) hdecode
          fun written rest heq => ⟨(length_handleEscapeJson5Bounded heq).1, by omega⟩) ?_
        rintro dst' p' written r' ⟨rfl, hdecoding⟩
        change Decoding _ _ _ _ _ _ (Option.getD (some _) p'.mCurr) _ at hdecoding
        exact ih hfuel' hdecoding hck'
      rw [if_neg hescape, if_neg hescape]
      by_cases hterminator : isJson5LineTerminatorAscii r.here = true
      · rw [if_pos hterminator, if_pos hterminator]
        exact matches_failHere h.tracks _
      rw [if_neg hterminator, if_neg hterminator]
      have htake : r.rest.take 1 = [r.here] := by
        obtain ⟨c, rest, hrest⟩ := List.exists_cons_of_ne_nil hne
        rw [Reading.here, hrest]
        rfl
      cases dst with
      | none =>
          have hskip := @Decoding.skip _ _ _ _ _ _ _ h 1 (by omega)
          rw [htake] at hskip
          change Decoding _ _ _ _ _ _ (Option.getD none (_ + _)) _ at hskip
          exact ih hfuel' hskip hck'
      | some dst =>
          refine matches_storeByte h r.here (by omega) fun p' r' hdecoding hr' => ?_
          change Decoding _ _ _ _ _ _ (Option.getD (some _) p'.mCurr) _ at hdecoding
          exact ih hfuel' hdecoding hck'

theorem matches_parseStringJson5 (quote : UInt8) (h : Tracks w depth p r) (hne : r.rest ≠ []) :
    Matches w (Parser.parseStringJson5 cfg quote p) (Reading.readStringJson5 cfg w.tail quote r)
      fun view p' text r' => StringStep w depth p p' view text r' := by
  rw [Parser.parseStringJson5, Reading.readStringJson5]
  refine matches_advance h (List.length_pos_iff.mpr hne) fun p' r' hstep hp' hr' => ?_
  have hcurr := hstep.tracks.curr
  have hbuffer := hstep.tracks.length_buffer
  simp only [kPaddingWidth] at hbuffer
  rw [Prog.bind_get, Prog.bind_get]
  by_cases hinside : r'.rest.length < w.tail
  · -- a quote behind the part: the loop ends at once
    have hend : r'.atEnd w.tail = true := decide_eq_true (Nat.le_of_lt hinside)
    obtain ⟨fuel, hfuel⟩ : ∃ fuel, p'.buffer.length = fuel + 1 := ⟨p'.buffer.length - 1, by omega⟩
    rw [hfuel, Parser.stringLoopJson5, Reading.stringLoopJson5, Prog.bind_get, Prog.bind_get,
      hstep.tracks.atEnd, if_pos hend, if_pos hend]
    exact matches_failHere hstep.tracks _
  rw [Nat.not_lt] at hinside
  have hinit : Decoding w depth p' p'.mCurr p' _ (Option.getD none p'.mCurr) [] :=
    Decoding.init hstep.tracks hinside
  refine Prog.simulates_mono (matches_stringLoopJson5 hcurr (Nat.le_refl _) (by omega) hinit
    (Utf8Checker.within_init _)) ?_
  rintro view p'' text r'' ⟨hstep', htext⟩
  exact ⟨hstep.trans hstep', htext⟩

theorem matches_parseString (h : Tracks w depth p r) :
    Matches w (Parser.parseString platform cfg p) (Reading.readString cfg w.tail r)
      fun view p' text r' => StringStep w depth p p' view text r' := by
  rw [Parser.parseString, Reading.readString, Prog.bind_get, Prog.bind_get, h.atEnd]
  by_cases hend : r.atEnd w.tail = true
  · rw [if_pos hend, if_pos hend]
    exact matches_failHere h _
  have hlt := Tracks.lt_of_atEnd (Bool.not_eq_true _ ▸ hend)
  rw [if_neg hend, if_neg hend]
  refine matches_peek h ?_
  by_cases hquote : r.here ≠ ascii '"'
  · rw [if_pos hquote, if_pos hquote]
    exact matches_failHere h _
  rw [if_neg hquote, if_neg hquote]
  by_cases hjson5 : cfg.json5 = true
  · rw [if_pos hjson5, if_pos hjson5]
    exact matches_parseStringJson5 _ h (List.ne_nil_of_length_pos (Nat.zero_lt_of_lt hlt))
  rw [if_neg hjson5, if_neg hjson5]
  refine matches_advance h (by omega) fun p' r' hstep _ hr' => ?_
  have hinside : w.tail ≤ r'.rest.length := by rw [hr', List.length_drop]; omega
  refine Prog.simulates_mono (matches_parseStringBody hstep.tracks hinside) ?_
  rintro view p'' text r'' ⟨hstep', htext⟩
  exact ⟨hstep.trans hstep', htext⟩

/-! ### Identifier keys -/

/-- The two ways of finding the next character of an identifier agree. -/
theorem identifierUnit_eq (text : Bytes) :
    Reading.identifierUnit text = (Parser.identifierUnit text).map fun (cp, rest, escaped) =>
      (cp, if escaped then encodeUtf8 cp else some (between text rest), rest) := by
  rw [Reading.identifierUnit, Parser.identifierUnit]
  split
  · cases decodeIdentifierEscape text <;> rfl
  · cases hdecode : Unicode.decodeUtf8 text with
    | none => rfl
    | some result =>
        obtain ⟨cp, length⟩ := result
        have hlength := (length_decodeUtf8 hdecode).2
        have hbetween : between text (text.drop length) = text.take length := by
          rw [between, List.length_drop, Nat.sub_sub_self hlength]
        simp [hbetween]

/-- What the next character of an identifier is decoded to is no longer than its spelling. -/
theorem length_identifierUnit {text rest written : Bytes} {cp : Nat}
    (h : Reading.identifierUnit text = some (cp, some written, rest)) :
    written.length + rest.length ≤ text.length ∧ rest.length < text.length := by
  rw [Reading.identifierUnit] at h
  split at h
  · rw [Option.map_eq_some_iff] at h
    obtain ⟨⟨cp', rest'⟩, hdecode, heq⟩ := h
    have hlength := length_decodeIdentifierEscape hdecode
    obtain ⟨rfl, hwritten, rfl⟩ : cp' = cp ∧ encodeUtf8 cp' = some written ∧ rest' = rest := by
      simpa using heq
    have := length_encodeUtf8 hwritten
    omega
  · rw [Option.map_eq_some_iff] at h
    obtain ⟨⟨cp', length⟩, hdecode, heq⟩ := h
    have hlength := length_decodeUtf8 hdecode
    obtain ⟨rfl, rfl, rfl⟩ : cp' = cp ∧ text.take length = written ∧ text.drop length = rest := by
      simpa using heq
    rw [List.length_take, List.length_drop]
    omega

theorem length_view_overlay {p : Parser} {dst : Nat} {written : Bytes}
    (hfit : dst + written.length ≤ p.buffer.length) :
    ({ p with buffer := Memory.overlay p.buffer dst written } : Parser).view.length =
      p.view.length := by
  simp only [Parser.view, List.length_drop, List.length_take, Memory.length_overlay hfit]

/-- Storing a character of an identifier and moving behind its spelling. -/
theorem matches_storeUnit {p₀ : Parser} {start dst : Nat} {decoded written rest : Bytes}
    {α β : Type} {next : Unit → Prog Parser α} {next' : Unit → Prog Reading β}
    {done : α → Parser → β → Reading → Prop}
    (h : Decoding w depth p₀ start p r dst decoded)
    (hlength : written.length + rest.length ≤ (r.body w.tail).length)
    (hnext : ∀ p' r', Decoding w depth p₀ start p' r' (dst + written.length) (decoded ++ written) →
      Matches w (next () p') (next' () r') done) :
    Matches w ((Parser.store dst written >>= fun _ => Parser.advanceTo rest >>= next) p)
      ((Reading.advanceTo w.tail rest >>= next') r) done := by
  have hcurr := h.tracks.curr
  have hdst := h.dst_le
  have hbuffer := h.tracks.length_buffer
  have hinside := h.inside
  have hbody := Reading.length_body w.tail r
  have hfit : dst + written.length ≤ p.buffer.length := by omega
  have hstore : Parser.store dst written p =
      .ok ((), { p with buffer := Memory.overlay p.buffer dst written }) := by
    rw [Parser.store, if_pos (by omega)]
  rw [Prog.bind_of_ok hstore, Parser.advanceTo, Reading.advanceTo, Prog.bind_modify,
    Prog.bind_modify, length_view_overlay hfit, h.tracks.view]
  exact hnext _ _ (h.write (by omega) (by omega))

theorem matches_identifierLoop {p₀ : Parser} {start : Nat} {fuel fuel' : Nat}
    (hfuel : fuel' ≤ fuel) {first : Bool} {dst : Option Nat} {decoded : Bytes}
    (h : Decoding w depth p₀ start p r (dst.getD p.mCurr) decoded) :
    Matches w (Parser.identifierLoop fuel first dst p)
      (Reading.identifierLoop w.tail fuel' first decoded r)
      fun last p' text r' => Decoding w depth p₀ start p' r' last text := by
  induction fuel' generalizing fuel first dst decoded p r with
  | zero => trivial
  | succ fuel' ih =>
      obtain ⟨fuel, rfl⟩ : ∃ f, fuel = f + 1 := ⟨fuel - 1, by omega⟩
      have hfuel' := Nat.le_of_succ_le_succ hfuel
      have hbody := Reading.length_body_le w.tail r
      rw [Parser.identifierLoop, Reading.identifierLoop, Prog.bind_get, Prog.bind_get,
        h.tracks.view]
      have hunit := identifierUnit_eq (r.body w.tail)
      cases hp : Parser.identifierUnit (r.body w.tail) with
      | none =>
          rw [hp] at hunit
          rw [hunit]
          exact Prog.simulates_ok h
      | some result =>
          obtain ⟨cp, rest, escaped⟩ := result
          rw [hp, Option.map_some] at hunit
          rw [hunit]
          simp only
          cases (if first then Unicode.isIdentifierStart cp else Unicode.isIdentifierContinue cp) with
          | false => exact Prog.simulates_ok h
          | true =>
              simp only [Bool.not_true, Bool.false_eq_true, if_false]
              cases escaped with
              | true =>
                  simp only [if_true] at hunit ⊢
                  cases hencode : encodeUtf8 cp with
                  | none => exact matches_failContext h.tracks _ _
                  | some written =>
                      rw [hencode] at hunit
                      refine matches_storeUnit h (length_identifierUnit hunit).1 fun p' r' hdec => ?_
                      change Decoding _ _ _ _ _ _ (Option.getD (some _) p'.mCurr) _ at hdec
                      exact ih hfuel' hdec
              | false =>
                  simp only [Bool.false_eq_true, if_false] at hunit ⊢
                  have hlength := length_identifierUnit hunit
                  cases dst with
                  | none =>
                      have hinside := h.inside
                      have hlength' := Reading.length_body w.tail r
                      have hle : (r.body w.tail).length - rest.length + w.tail ≤ r.rest.length := by
                        omega
                      have hskip := Decoding.skip h hle
                      have htake : r.rest.take ((r.body w.tail).length - rest.length) =
                          between (r.body w.tail) rest := by
                        rw [between, Reading.body, List.take_take, Nat.min_eq_left]
                        rw [List.length_take]
                        omega
                      rw [htake] at hskip
                      simp only [Parser.advanceTo, Reading.advanceTo, Prog.bind_modify, h.tracks.view]
                      change Decoding _ _ _ _ _ _ (Option.getD none (_ + _)) _ at hskip
                      exact ih hfuel' hskip
                  | some dst =>
                      simp only
                      refine matches_storeUnit h hlength.1 fun p' r' hdec => ?_
                      change Decoding _ _ _ _ _ _ (Option.getD (some _) p'.mCurr) _ at hdec
                      exact ih hfuel' hdec

theorem matches_parseIdentifierKey (h : Tracks w depth p r) (hinside : w.tail ≤ r.rest.length) :
    Matches w (Parser.parseIdentifierKey p) (Reading.readIdentifierKey w.tail r)
      fun view p' text r' => StringStep w depth p p' view text r' := by
  have hcurr := h.curr
  have hbuffer := h.length_buffer
  simp only [kPaddingWidth] at hbuffer
  rw [Parser.parseIdentifierKey, Reading.readIdentifierKey, Prog.bind_get, Prog.bind_get,
    Prog.bind_get]
  have hinit : Decoding w depth p p.mCurr p r (Option.getD none p.mCurr) [] :=
    Decoding.init h hinside
  refine Prog.simulates_bind (matches_identifierLoop (by omega) hinit) fun last p' text r' hdec => ?_
  have hcurr' := hdec.tracks.curr
  rw [Prog.bind_get, Prog.bind_get]
  by_cases hsame : p'.mCurr = p.mCurr
  · rw [if_pos hsame, if_pos (by omega)]
    exact matches_failHere hdec.tracks _
  · rw [if_neg hsame, if_neg (by omega)]
    obtain ⟨hstep, htext⟩ := hdec.close (Nat.le_refl _) (Nat.zero_le _)
    exact Prog.simulates_ok ⟨hstep, htext⟩

end PjhJson
