import PjhJson.OutFrame
import PjhJson.StreamQuotes
import PjhJson.StreamRuns

/-! The stream reader and the parser read the same texts: for a text the parser accepts, the events of a
run are those of its value and the run ends cleanly; for any other the reader reports what the parser
reports. -/

namespace PjhJson

open Grammar Reading

variable {platform : Platform} {cfg : Config} {p : Pull}

/-! ### A value -/

theorem skipWs_get {β : Type} (p : Pull) (next : Pull → Prog Pull β) :
    (Pull.skipWs >>= fun _ => Prog.get >>= next) p =
      next { p with rest := p.rest.dropWhile isWhitespace } { p with rest := p.rest.dropWhile isWhitespace } := rfl

theorem peek_cons {β : Type} (p : Pull) (c : UInt8) (text : Bytes) (next : UInt8 → Prog Pull β) :
    (Pull.peek >>= next) { p with rest := c :: text } = next c { p with rest := c :: text } := rfl

/-- What stands where a value was expected. -/
def unexpectedAt (atRoot : Bool) : ErrorCode := if atRoot then .unexpectedValueCharacter else .unexpectedCharacter

theorem streams_readValueAt (hjson5 : cfg.json5 = false) (hduplicates : cfg.strictDuplicateKeys = false)
    (hp : Inside p) {depth : Nat} (hdepth : p.stack.length = depth) {c : UInt8} {text : Bytes}
    (hrest : p.rest.dropWhile isWhitespace = c :: text) {element : Nat → Prog Reading Ast}
    (helement : Followed platform cfg (depth + 1) (element (depth + 1))) (atRoot : Bool) :
    Streams platform cfg
      (readValueAt skipWhitespace platform cfg 0 depth element (unexpectedAt atRoot) c { rest := c :: text })
      (Pull.expectValue platform cfg atRoot p) (ValueDone platform cfg p) := by
  have hq : Inside { p with rest := c :: text } := hp.with_rest (c :: text)
  have hdone : ∀ value rest events last,
      ValueDone platform cfg { p with rest := c :: text } value rest events last →
        ValueDone platform cfg p value rest events last := fun _ _ _ _ h => h
  rw [Pull.expectValue, skipWs_get, hrest, if_neg (List.cons_ne_nil _ _), peek_cons, readValueAt]
  by_cases hobject : c = ascii '{'
  · subst hobject
    rw [if_pos rfl, if_pos rfl]
    exact streams_mono (streams_readObject hjson5 hduplicates hq hdepth rfl helement) hdone
  rw [if_neg hobject, if_neg hobject]
  by_cases harray : c = ascii '['
  · subst harray
    rw [if_pos rfl, if_pos rfl]
    exact streams_mono (streams_readArray hjson5 hq hdepth rfl helement) hdone
  rw [if_neg harray, if_neg harray]
  by_cases hstring : c = ascii '"'
  · subst hstring
    rw [if_pos rfl, if_pos rfl]
    refine streams_bind (streams_stringToken hjson5 hp) ?_
    rintro value rest events last ⟨rfl, rfl⟩
    exact streams_scalar rfl
  rw [if_neg hstring, if_neg hstring]
  by_cases hliteral : c = ascii 't' ∨ c = ascii 'f' ∨ c = ascii 'n'
  · rw [if_pos hliteral, if_pos hliteral]
    exact streams_mono (streams_literal hjson5 hq hliteral rfl) hdone
  rw [if_neg hliteral, if_neg hliteral]
  by_cases hnumber : c = ascii '-' ∨ isDigit c = true
  · rw [if_pos hnumber, if_pos hnumber]
    exact streams_mono (streams_number hjson5 hq rfl) hdone
  have hquote : ¬(cfg.json5 = true ∧ c = ascii '\'') := by simp [hjson5]
  have hsign : ¬(cfg.json5 = true ∧ (c = ascii '+' ∨ c = ascii '.' ∨ c = ascii 'I' ∨ c = ascii 'N')) := by
    simp [hjson5]
  rw [if_neg hnumber, if_neg hnumber, if_neg hquote, if_neg hsign]
  exact streams_failHere hq rfl _

/-- The text ends where a value should begin. -/
theorem expectValue_atEnd (hp : Inside p) (hrest : p.rest.dropWhile isWhitespace = []) (atRoot : Bool) :
    Pull.expectValue platform cfg atRoot p =
      .error { p with
        rest := []
        failure := some
          { code := if atRoot then .unexpectedEndOfInput else .unexpectedCharacter, left := some 0 } } := by
  rw [Pull.expectValue, skipWs_get, hrest, if_pos rfl, Pull.failHere, Prog.bind_get,
    fail_of_running (hp.with_rest []).running]
  rfl

theorem readValueAt_nul (hjson5 : cfg.json5 = false) {depth : Nat} {element : Nat → Prog Reading Ast}
    (unexpected : ErrorCode) :
    readValueAt skipWhitespace platform cfg 0 depth element unexpected 0 = failHere unexpected := by
  have hdigit : ¬((0 : UInt8) = ascii '-' ∨ isDigit 0 = true) := by decide
  have hsign : ¬(cfg.json5 = true ∧
      ((0 : UInt8) = ascii '+' ∨ (0 : UInt8) = ascii '.' ∨ (0 : UInt8) = ascii 'I' ∨ (0 : UInt8) = ascii 'N')) := by
    simp [hjson5]
  rw [readValueAt, if_neg (by decide), if_neg (by decide), if_neg (by decide), if_neg (by decide), if_neg hdigit,
    if_neg (by simp [hjson5]), if_neg hsign]

theorem followed_readElement (hjson5 : cfg.json5 = false) (hduplicates : cfg.strictDuplicateKeys = false)
    (fuel depth : Nat) : Followed platform cfg depth (readElement skipWhitespace platform cfg 0 fuel depth) := by
  induction fuel generalizing depth with
  | zero => exact fun _ _ _ => trivial
  | succ fuel ih =>
      intro p hp hdepth
      rw [readElement, skipWhitespace_rfc hjson5, bind_peek]
      cases hrest : p.rest.dropWhile isWhitespace with
      | nil =>
          rw [expectValue_atEnd hp hrest]
          have hnul : here { rest := [] } = 0 := rfl
          rw [hnul, readValueAt_nul hjson5]
          exact streams_failed (hp.with_rest []) _ _ _
      | cons c text => exact streams_readValueAt hjson5 hduplicates hp hdepth hrest (ih (depth + 1)) false

/-! ### The text -/

theorem streams_readValue (hjson5 : cfg.json5 = false) (hduplicates : cfg.strictDuplicateKeys = false)
    (hp : Inside p) (hstack : p.stack = []) (fuel : Nat) :
    Streams platform cfg (readValue skipWhitespace platform cfg 0 fuel { rest := p.rest })
      (Pull.expectValue platform cfg true p)
      (ValueDone platform cfg p) := by
  rw [readValue, skipWhitespace_rfc hjson5, bind_peek, Prog.bind_get]
  cases hrest : p.rest.dropWhile isWhitespace with
  | nil =>
      have hend : here { rest := [] } = 0 ∧ atEnd 0 { rest := [] } = true := ⟨rfl, rfl⟩
      rw [expectValue_atEnd hp hrest, if_pos hend]
      exact streams_failed (hp.with_rest []) _ _ _
  | cons c text =>
      have hend : ¬(here { rest := c :: text } = 0 ∧ atEnd 0 { rest := c :: text } = true) := by simp [atEnd]
      have hdepth : p.stack.length = 0 := by rw [hstack, List.length_nil]
      rw [if_neg hend]
      exact streams_readValueAt hjson5 hduplicates hp hdepth hrest (followed_readElement hjson5 hduplicates fuel 1) true

/-- Behind the value of the text. -/
theorem next_afterRoot {q : Pull} (hfailure : q.failure = none) (hfinished : q.finished = false)
    (hroot : q.rootDone = true) (hbegun : q.started = true) :
    Pull.next platform cfg .singleRoot q =
      if q.rest.dropWhile isWhitespace = [] then
        .error { q with rest := q.rest.dropWhile isWhitespace, finished := true }
      else
        .error { q with
          rest := q.rest.dropWhile isWhitespace
          failure := some
            { code := .extraCharactersAfterValue, left := some (q.rest.dropWhile isWhitespace).length } } := by
  have hgoes : ¬(q.failure.isSome || q.finished) = true := by
    rw [hfailure, hfinished]
    exact Bool.false_ne_true
  have hgoes' : Pull.halted { q with rest := q.rest.dropWhile isWhitespace } = false := by
    rw [Pull.halted, hfailure, hfinished]
    rfl
  rw [next_started hbegun, Pull.nextLoop, Prog.bind_get, if_neg hgoes, if_pos hroot, Prog.bind_apply,
    Pull.afterRoot, Prog.bind_get]
  simp only
  rw [skipWs_get]
  split
  · rfl
  · rw [Pull.failHere, Prog.bind_get, fail_of_running hgoes']
    rfl

theorem streams_afterRoot (hp : Inside p) (hstack : p.stack = []) {value : Ast} {rest : Bytes} {out : JsonEvent} :
    Streams platform cfg
      ((Prog.get >>= fun r => if r.atEnd 0 then pure value else failHere .extraCharactersAfterValue)
        { rest := rest.dropWhile isWhitespace })
      (Pull.next platform cfg .singleRoot (Pull.complete { p with rest, out }))
      fun value' _ events last => value' = value ∧ events = [] ∧ ∃ q, last = .error q ∧ q.finished = true ∧
        q.failure = none := by
  have hcomplete : Pull.complete { p with rest, out } = { p with rest, out, rootDone := true } := by
    rw [Pull.complete]
    simp only [hstack]
  rw [hcomplete, next_afterRoot (q := { p with rest, out, rootDone := true }) hp.failure hp.finished rfl hp.begun,
    Prog.bind_get]
  cases hrest : rest.dropWhile isWhitespace with
  | nil =>
      have hend : atEnd 0 { rest := [] } = true := rfl
      rw [if_pos hend, if_pos rfl]
      exact streams_ok ⟨rfl, rfl, _, rfl, rfl, hp.failure⟩
  | cons c more =>
      have hend : ¬atEnd 0 { rest := c :: more } = true := by simp [atEnd]
      rw [if_neg hend, if_neg (List.cons_ne_nil _ _)]
      exact ⟨[], _, .refl _, hp.finished, _, _, rfl, rfl, .inl rfl⟩

theorem nextLoop_root (hp : Inside p) (hstack : p.stack = []) {fuel : Nat} :
    Pull.nextLoop platform cfg .singleRoot (fuel + 1) p = Pull.expectValue platform cfg true p := by
  rw [Pull.nextLoop, Prog.bind_get, if_neg hp.not_stopped, hp.root, if_neg Bool.false_ne_true]
  simp only [hstack]
  rfl

theorem failIfRecorded_clear {β : Type} (rest : Bytes) (next : Unit → Prog Reading β) :
    (failIfRecorded >>= next) { rest } = next () { rest } := rfl

theorem next_start (input : Bytes) : Pull.next platform cfg .singleRoot { rest := input } =
    Pull.expectValue platform cfg true { rest := dropBom cfg input, started := true } := by
  have hp : Inside { rest := dropBom cfg input, started := true } := ⟨rfl, rfl, rfl, rfl⟩
  rw [Pull.next, Pull.skipStartBom, Prog.bind_modify, if_neg Bool.false_ne_true, ← dropBom_eq]
  exact nextLoop_root hp rfl

theorem streams_readText (hjson5 : cfg.json5 = false) (hduplicates : cfg.strictDuplicateKeys = false)
    (input : Bytes) :
    Streams platform cfg (readText skipWhitespace platform cfg 0 { rest := input })
      (Pull.next platform cfg .singleRoot { rest := input })
      fun value _ events last => events = value.events (tokenNumber platform cfg) ∧
        ∃ q, last = .error q ∧ q.finished = true ∧ q.failure = none := by
  have hp : Inside { rest := dropBom cfg input, started := true } := ⟨rfl, rfl, rfl, rfl⟩
  rw [readText, Prog.bind_get, Prog.bind_of_ok (skipLeadingBom_whole cfg input), next_start]
  refine streams_bind (streams_readValue hjson5 hduplicates hp rfl input.length) ?_
  rintro value rest events last ⟨rfl, out, rfl⟩
  rw [failIfRecorded_clear, skipWhitespace_rfc hjson5, failIfRecorded_clear]
  refine streams_mono (streams_afterRoot hp rfl) ?_
  rintro _ _ _ last ⟨rfl, rfl, hlast⟩
  exact ⟨List.append_nil _, hlast⟩

/-! ### Runs -/

namespace Json

mutual

/-- The value that the members of a text stand for: of those that share a key the last one counts. -/
def merged : Json Bytes → Json Bytes
  | null => .null
  | boolean value => .boolean value
  | integer value => .integer value
  | double value => .double value
  | string value => .string value
  | array elements => .array (mergedElements elements)
  | object entries => .object (lastWins (mergedEntries entries))

def mergedElements : List (Json Bytes) → List (Json Bytes)
  | [] => []
  | value :: rest => value.merged :: mergedElements rest

def mergedEntries : List (Bytes × Json Bytes) → List (Bytes × Json Bytes)
  | [] => []
  | (key, value) :: rest => (key, value.merged) :: mergedEntries rest

end

theorem mergedElements_eq (elements : List (Json Bytes)) : mergedElements elements = elements.map merged := by
  induction elements with
  | nil => rfl
  | cons value rest ih => rw [mergedElements, ih, List.map_cons]

theorem mergedEntries_eq (entries : List (Bytes × Json Bytes)) :
    mergedEntries entries = entries.map fun entry => (entry.1, entry.2.merged) := by
  induction entries with
  | nil => rfl
  | cons entry rest ih => rw [mergedEntries, ih, List.map_cons]

end Json

theorem Ast.merged_spelled (numberOf : Bytes → Number) (value : Ast) :
    (value.spelled numberOf).merged = value.toJson numberOf := by
  induction value using Ast.induct with
  | null => rfl
  | boolean value => rfl
  | number token =>
      rw [Ast.spelled, Ast.toJson]
      cases numberOf token <;> rfl
  | string value => rfl
  | array elements ih =>
      rw [Ast.spelled, Json.merged, Json.mergedElements_eq, Ast.spelledElements_eq, List.map_map, Ast.toJson_array]
      congr 1
      exact List.map_congr_left ih
  | object members ih =>
      rw [Ast.spelled, Json.merged, Json.mergedEntries_eq, Ast.spelledMembers_eq, List.map_map, Ast.toJson_object]
      congr 2
      exact List.map_congr_left fun member hmem => congrArg (Prod.mk member.1) (ih member hmem)

/-- Where the events of the machine end, so does the run of the reader. -/
theorem pulls_leadsTo {input : Bytes} {events : List JsonEvent} {q : Pull}
    (h : Prog.LeadsTo (Pull.next platform cfg .singleRoot) Pull.out
      (Pull.next platform cfg .singleRoot { rest := input }) events (.error q)) (chunkSize : Nat) :
    ∃ s, StreamReader.pulls platform cfg .singleRoot input chunkSize (events.length + 1) =
        some (events.map some ++ [none], s) ∧ Synced ⟨cfg, .singleRoot, input⟩ s q := by
  have hends : Pull.pulls platform cfg .singleRoot input (events.length + 1) = some (events.map some ++ [none], q) :=
    Prog.calls_ends h
  obtain ⟨log, s, p', hrun, hmodel, hsynced⟩ :=
    pulls_synced platform cfg .singleRoot input chunkSize (events.length + 1)
  obtain ⟨rfl, rfl⟩ := Prod.mk.inj (Option.some.inj (hmodel.symm.trans hends))
  exact ⟨s, hrun, hsynced⟩

/-- For a text the parser accepts, the events are those of the value of the grammar that it is the text of,
member for member, and the run ends cleanly. For any other text the run ends with the error of the parser, but for
what a string hides: in a text whose last string is not closed the missing quote comes first and, in the strict mode,
so does a bad encoding in front of a control byte. -/
theorem pulls_parseCopy (hjson5 : cfg.json5 = false) (hduplicates : cfg.strictDuplicateKeys = false)
    {input : Bytes} (hfits : paddedFits input.length = true) (chunkSize : Nat) :
    ∃ (events : List JsonEvent) (s : StreamReader),
      StreamReader.pulls platform cfg .singleRoot input chunkSize (events.length + 1) =
          some (events.map some ++ [none], s) ∧
        ((∃ (value : Ast) (document : Document), parseCopy platform cfg input = .ok document ∧
            Rfc.Text (dropBom cfg input) value ∧ IsTree platform cfg input value ∧
            document.tree = (value.spelled (tokenNumber platform cfg)).merged ∧
            events = (value.spelled (tokenNumber platform cfg)).events ∧
            s.mFinished = true ∧ s.mError = none) ∨
          ∃ error found : Error, parseCopy platform cfg input = .error error ∧ s.mFinished = false ∧
            s.mError = some (.kernel found) ∧
            (found = error ∨
              Unclosed input ∧
                found = { code := .unterminatedString, position := input.length, positioned := true } ∨
              cfg.strictUtf8 = true ∧ error.code = .unescapedControl ∧ error.positioned = true ∧
                found.code ∈ utf8Codes ∧ found.positioned = true ∧ found.position ≤ error.position)) := by
  have hstreams := @streams_readText platform cfg hjson5 hduplicates input
  rcases @parseCopy_spec platform cfg input hfits with
    ⟨value, r, hread, document, hparse, htree⟩ | ⟨failure, r, hread, hfailure, hparse⟩
  · rw [hread] at hstreams
    obtain ⟨-, events, last, hleads, rfl, q, rfl, hfinished, hclear⟩ := hstreams
    obtain ⟨s, hrun, hsynced⟩ := pulls_leadsTo hleads chunkSize
    have hcfg : cfg.unique false = cfg := by rw [Config.unique, ← hduplicates]
    refine ⟨_, s, hrun, .inl ⟨value, document, hparse, text_of_readText hjson5 hread,
      ⟨hfits, r, by rw [hcfg]; exact hread⟩, ?_, rfl, hsynced.finished.trans hfinished, ?_⟩⟩
    · rw [htree, Ast.merged_spelled]
    · rw [hsynced.error, hclear, Option.map_none]
  · rw [hread] at hstreams
    obtain ⟨events, q, hleads, hfinished, failure', found, hfailure', hfound, hsame⟩ := hstreams
    obtain ⟨s, hrun, hsynced⟩ := pulls_leadsTo hleads chunkSize
    obtain rfl : failure' = failure := Option.some.inj (hfailure'.symm.trans hfailure)
    refine ⟨events, s, hrun, .inr ⟨_, found.error (Window.whole input), hparse,
      hsynced.finished.trans hfinished, ?_, ?_⟩⟩
    · rw [hsynced.error, hfound, Option.map_some]
    · rcases hsame with rfl | rfl | ⟨hstrict, hcode, left, left', rfl, hpositioned, hle⟩
      · exact .inl rfl
      · exact .inr (.inl ⟨unclosed_of_pulls hleads hfound, rfl⟩)
      · refine .inr (.inr ⟨hstrict, rfl, rfl, hcode, ?_, ?_⟩)
        · rw [hpositioned]
          rfl
        · rw [hpositioned]
          exact Nat.sub_le_sub_left hle _

theorem pulls_parseCopy_half : ∃ (events : List JsonEvent) (s : StreamReader),
    StreamReader.pulls halfPlatform {} .singleRoot (asciiBytes "[0.5,12]") 3 (events.length + 1) =
        some (events.map some ++ [none], s) ∧
      (s.mFinished = true ↔ ∃ document, parseCopy halfPlatform {} (asciiBytes "[0.5,12]") = .ok document) := by
  obtain ⟨events, s, hrun, ⟨_, document, hparse, -, -, -, -, hfinished, -⟩ | ⟨error, -, hparse, hfinished, -⟩⟩ :=
    @pulls_parseCopy halfPlatform {} rfl rfl (asciiBytes "[0.5,12]") (by decide) 3
  · exact ⟨events, s, hrun, iff_of_true hfinished ⟨document, hparse⟩⟩
  · refine ⟨events, s, hrun, iff_of_false (by rw [hfinished]; decide) ?_⟩
    rintro ⟨document, hdocument⟩
    rw [hparse] at hdocument
    cases hdocument

end PjhJson
