import PjhJson.NumberToken
import PjhJson.RefineState

/-! The token parsers follow the reading of tokens: the SIMD scans find what a scan byte by byte
finds, because the padding is wider than a batch, and the in-place decoders write behind the bytes
that are still to be read. -/

namespace PjhJson

open Grammar Scanner

variable {platform : Platform} {cfg : Config} {w : Window} {depth : Nat} {p : Parser} {r : Reading}

/-! ### Scans and whitespace -/

/-- A scan for a class that NUL belongs to stops inside the content or right behind it. -/
theorem scanTo_eq (hit : UInt8 → Bool) (hnul : hit 0 = true) (h : Tracks w depth p r) :
    Parser.scanTo platform hit p =
      .ok ((), { p with mCurr := p.mCurr + (r.rest.takeWhile fun c => !hit c).length }) := by
  obtain ⟨plain, rest, hrest, hplain, hstop⟩ := exists_run (fun c => !hit c) r.rest
  have htake : (r.rest.takeWhile fun c => !hit c) = plain := by
    rw [hrest]
    exact takeWhile_run hplain hstop
  obtain ⟨cell, more, hcell, hhit, hroom⟩ : ∃ cell more, padded rest = cell :: more ∧
      hit cell = true ∧ kPaddingWidth ≤ more.length + 1 := by
    cases rest with
    | nil => exact ⟨0, List.replicate 127 0, rfl, hnul, by simp [kPaddingWidth]⟩
    | cons c rest =>
        have hc := stops_cons.mp hstop
        exact ⟨c, padded rest, rfl, by simpa using hc, by simp [padded]; omega⟩
  have hmemory : p.buffer.drop p.mCurr = plain ++ cell :: more := by
    rw [h.unread, hrest, padded, List.append_assoc, ← padded, hcell]
  have hfuel : plain.length < p.buffer.length := by
    have := congrArg List.length hmemory
    simp only [List.length_drop, List.length_append, List.length_cons] at this
    omega
  have hwidth := platform.batch_le
  have hscan := Memory.blockScan_eq platform.batch_pos
    (fun c hc => by simpa using hplain c hc) hhit hmemory
    (by simp only [kPaddingWidth] at hroom; omega) hfuel
  rw [Parser.scanTo, Prog.bind_get, hscan, htake]
  rfl

theorem length_takeWhile_le (hit : UInt8 → Bool) (text : Bytes) :
    (text.takeWhile hit).length ≤ text.length := (List.takeWhile_sublist hit).length_le

theorem matches_skipTrivia (h : Tracks w depth p r) :
    Matches w (Parser.skipJson5Trivia p) (Reading.skipTriviaHere w.tail r)
      fun _ p' _ r' => Step w depth p p' r' := by
  rw [Parser.skipJson5Trivia, Reading.skipTriviaHere, Prog.bind_get, Prog.bind_get, h.view]
  cases skipTrivia (r.body w.tail) with
  | none => trivial
  | some result =>
      obtain ⟨rest, unterminated⟩ := result
      refine matches_advanceTo h fun p' r' hstep hp' _ => ?_
      cases unterminated with
      | false => exact Prog.simulates_ok hstep
      | true =>
          have hend : p.mEnd = w.size - w.tail := by
            have := h.last
            omega
          have herror : (⟨.unexpectedEndOfInput, .parse, p.mEnd - p'.mBegin, true, []⟩ : Error) =
              Failure.error w { code := .unexpectedEndOfInput, left := some w.tail } := by
            rw [hstep.tracks.start, hend]
            rfl
          exact Prog.simulates_ok (hstep.trans (hstep.tracks.record herror))

theorem matches_skipWhitespace (h : Tracks w depth p r) :
    Matches w (Parser.skipWhitespace platform cfg p) (Reading.skipWhitespace cfg w.tail r)
      fun _ p' _ r' => Step w depth p p' r' := by
  rw [Parser.skipWhitespace, Reading.skipWhitespace]
  by_cases hjson5 : cfg.json5 = true
  · rw [if_pos hjson5, if_pos hjson5]
    exact matches_skipTrivia h
  rw [if_neg hjson5, if_neg hjson5, Prog.bind_of_ok h.peek]
  have hdrop : r.rest.dropWhile isWhitespace =
      r.rest.drop (r.rest.takeWhile isWhitespace).length := by
    conv_rhs => arg 2; rw [← List.takeWhile_append_dropWhile (p := isWhitespace) (l := r.rest)]
    rw [List.drop_left]
  by_cases hhere : r.here ≤ 0x20
  · rw [if_pos hhere, scanTo_eq (fun b => !isWhitespace b) (by decide) h]
    simp only [Bool.not_not, Prog.modify_apply, hdrop]
    exact Prog.simulates_ok (h.step_drop (length_takeWhile_le _ _))
  · -- the byte is above the space and cannot be whitespace
    have hnone : r.rest.takeWhile isWhitespace = [] := by
      cases hrest : r.rest with
      | nil => rfl
      | cons c rest =>
          rw [Reading.here, hrest, List.headD_cons] at hhere
          have hc : isWhitespace c = false := by
            by_contra hws
            rw [Bool.not_eq_false] at hws
            simp only [isWhitespace, Bool.or_eq_true, beq_iff_eq] at hws
            rcases hws with ((rfl | rfl) | rfl) | rfl <;> exact hhere (by decide)
          rw [List.takeWhile_cons, hc]
          rfl
    rw [if_neg hhere, Prog.modify_apply, hdrop, hnone]
    exact Prog.simulates_ok (Step.refl h)

/-! ### Literals and numbers -/

/-- A literal is matched in the padded memory exactly when the content has it. -/
theorem take_padded {rest lit : Bytes} (hlit : 0 ∉ lit) (hlength : lit.length ≤ kPaddingWidth) :
    (padded rest).take lit.length = lit ↔ rest.take lit.length = lit := by
  by_cases hle : lit.length ≤ rest.length
  · rw [padded, List.take_append_of_le_length hle]
  · constructor
    · intro h
      refine absurd ?_ hlit
      rw [← h, padded, List.take_append, List.mem_append]
      right
      rw [List.take_replicate, List.mem_replicate]
      exact ⟨by omega, rfl⟩
    · intro h
      have := congrArg List.length h
      rw [List.length_take] at this
      omega

theorem Tracks.load (h : Tracks w depth p r) {length : Nat} (hlength : length ≤ kPaddingWidth) :
    Parser.load length p = .ok ((padded r.rest).take length, p) := by
  have hbuffer := h.length_buffer
  have hcurr := h.curr
  rw [Parser.load, if_pos (by omega), Memory.slice, h.unread]

/-- The value that a literal is read as. -/
def literalValue : Ast → Json View
  | .boolean value => .boolean value
  | _ => .null

theorem matchLiteralHere_eq (h : Tracks w depth p r) :
    Parser.matchLiteralHere p = match Reading.literalHere r with
      | some (value, length) => .ok ((literalValue value, length), p)
      | none => (Parser.failHere .invalidLiteral : Prog Parser (Json View × Nat)) p := by
  have hlit : ∀ lit : Bytes, 0 ∉ lit → lit.length ≤ kPaddingWidth → ∀ n, n = lit.length →
      ((padded r.rest).take n = lit ↔ r.rest.take n = lit) := by
    rintro lit hnul hlength n rfl
    exact take_padded hnul hlength
  have htrue := hlit kTrue (by decide) (by decide) 4 rfl
  have hnull := hlit kNull (by decide) (by decide) 4 rfl
  have hfalse := hlit kFalse (by decide) (by decide) 5 rfl
  rw [Parser.matchLiteralHere, Prog.bind_of_ok (h.load (by decide)), Reading.literalHere]
  simp only [htrue, hnull]
  by_cases h1 : r.rest.take 4 = kTrue
  · rw [if_pos h1, if_pos h1]
    rfl
  rw [if_neg h1, if_neg h1]
  by_cases h2 : r.rest.take 4 = kNull
  · rw [if_pos h2, if_pos h2]
    rfl
  rw [if_neg h2, if_neg h2, Prog.bind_of_ok (h.load (by decide)), List.take_take,
    show min 5 8 = 5 from rfl]
  by_cases h3 : r.rest.take 5 = kFalse
  · rw [if_pos h3, if_pos (hfalse.mpr h3)]
    rfl
  · rw [if_neg h3, if_neg fun hcon => h3 (hfalse.mp hcon)]

theorem literalHere_spec {value : Ast} {length : Nat}
    (h : Reading.literalHere r = some (value, length)) :
    length ≤ r.rest.length ∧ (literalValue value).All (fun _ => False) ∧
      ∀ (read : View → Bytes) (numberOf : Bytes → Number),
        (literalValue value).map read = value.toJson numberOf := by
  have hlength : ∀ (n : Nat) (lit : Bytes), r.rest.take n = lit → n = lit.length →
      n ≤ r.rest.length := by
    intro n lit htake hn
    have := congrArg List.length htake
    rw [List.length_take] at this
    omega
  rw [Reading.literalHere] at h
  split_ifs at h with h1 h2 h3
  · obtain ⟨rfl, rfl⟩ := Prod.mk.inj (Option.some.inj h)
    exact ⟨hlength _ _ h1 rfl, trivial, fun _ _ => rfl⟩
  · obtain ⟨rfl, rfl⟩ := Prod.mk.inj (Option.some.inj h)
    exact ⟨hlength _ _ h2 rfl, trivial, fun _ _ => rfl⟩
  · obtain ⟨rfl, rfl⟩ := Prod.mk.inj (Option.some.inj h)
    exact ⟨hlength _ _ h3 rfl, trivial, fun _ _ => rfl⟩

theorem isAfterLiteral_eq (c : UInt8) : Reading.isAfterLiteral c = Parser.kValidAfterLiteral c := by
  rw [Bool.eq_iff_iff]
  simp only [Reading.isAfterLiteral, Parser.kValidAfterLiteral, isWhitespace, ascii,
    Bool.or_eq_true, beq_iff_eq]
  change (((((c = 0 ∨ ((c = 32 ∨ c = 9) ∨ c = 10) ∨ c = 13) ∨ c = 44) ∨ c = 58) ∨ c = 93) ∨
    c = 125) ↔ _
  tauto

theorem matches_parseLiteral (h : Tracks w depth p r) :
    Matches w (Parser.parseLiteral cfg p) (Reading.readLiteral cfg r)
      fun _ p' value r' => ValueStep platform cfg w depth p p' value r' := by
  rw [Parser.parseLiteral, Reading.readLiteral, Prog.bind_get]
  cases hliteral : Reading.literalHere r with
  | none =>
      rw [Prog.bind_apply, matchLiteralHere_eq h, hliteral]
      have hfail : Matches w ((Parser.failHere .invalidLiteral : Prog Parser (Json View × Nat)) p)
          ((Reading.failHere .invalidLiteral : Prog Reading Ast) r) fun _ _ _ _ => False :=
        matches_failHere h .invalidLiteral
      obtain hfalse | ⟨p', hp', hfailed⟩ := hfail
      · exact hfalse.elim
      · exact .inr ⟨p', by rw [hp']; rfl, hfailed⟩
  | some result =>
      obtain ⟨value, length⟩ := result
      obtain ⟨hle, hall, hmap⟩ := literalHere_spec hliteral
      have hmatch : Parser.matchLiteralHere p = .ok ((literalValue value, length), p) := by
        rw [matchLiteralHere_eq h, hliteral]
      rw [Prog.bind_of_ok hmatch]
      refine matches_advance h hle fun p' r' hstep _ _ => ?_
      have hout : ValueStep platform cfg w depth p { p' with out := literalValue value } value r' :=
        ⟨hstep.tracks.with_out _, hstep.kept.with_out _,
          ⟨hmap _ _, hall.mono fun _ hfalse => hfalse.elim⟩⟩
      rw [Parser.setOut, Prog.bind_modify]
      cases hjson5 : cfg.json5 with
      | true => exact Prog.simulates_ok hout
      | false =>
          refine matches_peek (p := { p' with out := literalValue value }) hout.tracks ?_
          rw [Bool.false_or, isAfterLiteral_eq]
          cases Parser.kValidAfterLiteral r'.here with
          | true => exact Prog.simulates_ok hout
          | false => exact matches_failHere hout.tracks _

theorem matches_parseNumber (h : Tracks w depth p r) :
    Matches w (Parser.parseNumber platform cfg p) (Reading.readNumber platform cfg w.tail r)
      fun _ p' value r' => ValueStep platform cfg w depth p p' value r' := by
  rw [Parser.parseNumber, Reading.readNumber, Prog.bind_get, Prog.bind_get, h.view]
  cases hparse : parseNumberToken platform cfg (r.body w.tail) with
  | error failure =>
      refine matches_fail h _ ?_
      have hcurr := h.curr
      have hbody := Reading.length_body_le w.tail r
      omega
  | ok result =>
      obtain ⟨number, rest⟩ := result
      refine matches_advanceTo h fun p' r' hstep _ _ => Prog.simulates_ok ?_
      refine ⟨hstep.tracks.with_out _, hstep.kept.with_out _, ?_⟩
      rw [HoldsJson, Ast.toJson, tokenNumber_between platform hparse]
      cases number with
      | integer value => exact ⟨rfl, trivial⟩
      | double value => exact ⟨rfl, trivial⟩

end PjhJson
