import PjhJson.RefineEntry

/-! `parse_jsonl` reads its input line by line. `Reading.readLines` does so without the shared buffer
and its offsets, and the loop over the lines follows it: what one line decodes in place lies inside
that line, so that the lines behind it are read as they were written and the values before it keep
their strings. -/

namespace PjhJson

namespace Reading

/-! ### Lines -/

/-- The line without a `\r` at its end. -/
def withoutReturn (line : Bytes) : Bytes :=
  if line.getLast? = some 0x0D then line.dropLast else line

/-- The line at the front of a text, without the `\n` that ends it and a `\r` before that. -/
def lineOf (text : Bytes) : Bytes := withoutReturn (text.takeWhile (· != 0x0A))

/-- The lines behind the first. -/
def linesAfter (text : Bytes) : Bytes := (text.dropWhile (· != 0x0A)).tail

/-- What ends the line at the front of a text. -/
def lineEnd (text : Bytes) : Bytes :=
  (if (text.takeWhile (· != 0x0A)).getLast? = some 0x0D then [0x0D] else []) ++
    (text.dropWhile (· != 0x0A)).take 1

theorem withoutReturn_append (line : Bytes) :
    line = withoutReturn line ++ if line.getLast? = some 0x0D then [0x0D] else [] := by
  unfold withoutReturn
  split
  · rename_i hlast
    obtain ⟨front, rfl⟩ := List.getLast?_eq_some_iff.mp hlast
    rw [List.dropLast_concat]
  · rw [List.append_nil]

theorem length_withoutReturn (line : Bytes) :
    (withoutReturn line).length =
      if line.getLast? = some 0x0D then line.length - 1 else line.length := by
  unfold withoutReturn
  split
  · exact List.length_dropLast
  · rfl

/-- A text is its first line, the end of that line and the lines behind it. -/
theorem text_eq (text : Bytes) : text = lineOf text ++ (lineEnd text ++ linesAfter text) := by
  have hsplit := List.takeWhile_append_dropWhile (p := (· != (0x0A : UInt8))) (l := text)
  have hrest := List.take_append_drop 1 (text.dropWhile (· != (0x0A : UInt8)))
  rw [List.drop_one] at hrest
  calc
    text = text.takeWhile (· != 0x0A) ++ text.dropWhile (· != 0x0A) := hsplit.symm
    _ = lineOf text ++ (lineEnd text ++ linesAfter text) := by
      conv_lhs => rw [withoutReturn_append (text.takeWhile _), ← hrest]
      rw [lineOf, lineEnd, linesAfter, List.append_assoc, List.append_assoc]

theorem length_lineOf_le (text : Bytes) : (lineOf text).length ≤ text.length := by
  have hlength := congrArg List.length (text_eq text)
  rw [List.length_append] at hlength
  omega

theorem drop_lineOf (text : Bytes) :
    text.drop (lineOf text).length = lineEnd text ++ linesAfter text := by
  have hdrop := congrArg (List.drop (lineOf text).length) (text_eq text)
  rwa [List.drop_left] at hdrop

theorem take_lineOf (text : Bytes) : text.take (lineOf text).length = lineOf text := by
  have htake := congrArg (List.take (lineOf text).length) (text_eq text)
  rwa [List.take_left] at htake

/-- Behind a line lies nothing or a control byte. -/
theorem sealed_lineOf (text : Bytes) : (text.drop (lineOf text).length).headD 0 < 0x20 := by
  rw [drop_lineOf, lineEnd]
  split
  · exact (by decide : (0x0D : UInt8) < 0x20)
  · have hstop := Scanner.stops_dropWhile (· != (0x0A : UInt8)) text
    cases hrest : text.dropWhile (· != 0x0A) with
    | nil => rw [linesAfter, hrest]; decide
    | cons c rest =>
        have hc : c = 0x0A := by simpa using hstop c (by rw [hrest]; rfl)
        rw [hc]
        exact (by decide : (0x0A : UInt8) < 0x20)

theorem length_linesAfter {text : Bytes} (h : text ≠ []) : (linesAfter text).length < text.length := by
  have hle := (List.dropWhile_suffix (p := (· != (0x0A : UInt8))) (l := text)).length_le
  have hpos := List.length_pos_iff.mpr h
  rw [linesAfter, List.length_tail]
  omega

/-! ### Reading by lines -/

variable (platform : Platform) (cfg : Config)

/-- A byte order mark belongs to the file, not to a line. -/
def lineConfig : Config := { cfg with stripBom := false }

/-- Reading the first line of a text as a value; the lines behind it are in sight. -/
def readLine (text : Bytes) : Res Reading (Ast × Reading) :=
  readText skipWhitespace platform (lineConfig cfg) (text.drop (lineOf text).length).length { rest := text }

/-- The lines of a text, in the order of their offsets: the window of the first one starts at
`start`. -/
def lineWindow (start : Nat) (text : Bytes) : Window :=
  ⟨start, start + text.length, text.drop (lineOf text).length, sealed_lineOf text⟩

/-- The error of a failure in the first line; its position counts from the start of the line. -/
def lineError (text : Bytes) (r : Reading) : Error :=
  (r.failure.map (Failure.error (lineWindow 0 text))).getD { code := .none }

/-- The values of the lines that are not blank, up to the first line that fails. -/
def readLines : Nat → Bytes → Res Error (List Ast)
  | 0, _ => .stuck
  | fuel + 1, text =>
    if text = [] then .ok []
    else if isBlankLine cfg (lineOf text) then readLines fuel (linesAfter text)
    else
      match readLine platform cfg text with
      | .ok (value, _) => readLines fuel (linesAfter text) >>= fun values => .ok (value :: values)
      | .error r => .error (lineError text r)
      | .stuck => .stuck

/-- A JSON Lines text, without the byte order mark at its start. -/
def readJsonLines (input : Bytes) : Res Error (List Ast) :=
  readLines platform cfg (input.length + 1)
    (input.drop (if cfg.stripBom && startsWithUtf8Bom input then 3 else 0))

variable {platform : Platform} {cfg : Config}

theorem reads_readLine (text : Bytes) : Reads { rest := text } (readLine platform cfg text) :=
  reads_readText

/-- Reading by lines ends: every round leaves fewer bytes. -/
theorem readLines_ne_stuck {fuel : Nat} {text : Bytes} (hfuel : text.length < fuel) :
    readLines platform cfg fuel text ≠ .stuck := by
  induction fuel generalizing text with
  | zero => omega
  | succ fuel ih =>
      unfold readLines
      split
      · intro h; cases h
      rename_i hne
      have hnext := length_linesAfter hne
      have hrest : readLines platform cfg fuel (linesAfter text) ≠ .stuck := ih (by omega)
      split
      · exact hrest
      cases hline : readLine platform cfg text with
      | stuck => exact absurd hline (reads_readLine text).ne_stuck
      | error r => intro h; cases h
      | ok result =>
          rw [Ne, Res.bind_eq_stuck, not_or]
          exact ⟨hrest, fun ⟨_, _, h⟩ => by cases h⟩

end Reading

/-! ### The loop over the lines -/

open Reading

variable {platform : Platform} {cfg : Config}

theorem error_lineWindow (start : Nat) (text : Bytes) (failure : Failure) :
    failure.error (lineWindow start text) = failure.error (lineWindow 0 text) := by
  unfold Failure.error lineWindow
  congr 1
  cases failure.left with
  | none => rfl
  | some left => simp only; omega

/-- The buffer in front of a text that is still to be read: its length is that of the padded input,
and the text lies at `i`. -/
structure AtLine (n i : Nat) (buffer text : Bytes) : Prop where
  unread : buffer.drop i = padded text
  offset : i + text.length = n

/-- The values of the lines before `limit`, with their strings in the buffer. -/
def HoldsLines (platform : Platform) (cfg : Config) (buffer : Bytes) (limit : Nat)
    (arr : List (Json View)) (values : List Ast) : Prop :=
  List.Forall₂ (fun json value =>
    json.map (View.read buffer) = Ast.toJson (tokenNumber platform cfg) value ∧
      json.All (View.Below limit)) arr values

namespace AtLine

variable {n i : Nat} {buffer text : Bytes}

theorem take_eq (h : AtLine n i buffer text) : (buffer.take n).drop i = text := by
  rw [List.drop_take, h.unread, padded, ← h.offset, Nat.add_sub_cancel_left, List.take_left]

theorem lineAt_eq (h : AtLine n i buffer text) :
    lineAt buffer i n = (i + (text.takeWhile (· != 0x0A)).length, (lineOf text).length) := by
  rw [lineAt, h.take_eq, lineOf, length_withoutReturn]

theorem slice_eq (h : AtLine n i buffer text) :
    Memory.slice buffer i (lineOf text).length = lineOf text := by
  rw [Memory.slice, h.unread, padded,
    List.take_append_of_le_length (length_lineOf_le text), take_lineOf]

/-- The next round starts at the lines behind the first. -/
theorem next_eq (h : AtLine n i buffer text) :
    (if i + (text.takeWhile (· != 0x0A)).length < n then i + (text.takeWhile (· != 0x0A)).length + 1
      else n) = i + ((lineOf text).length + (lineEnd text).length) ∧
      i + ((lineOf text).length + (lineEnd text).length) + (linesAfter text).length = n := by
  have hoffset := h.offset
  have hall := congrArg List.length (text_eq text)
  have hline := congrArg List.length (withoutReturn_append (text.takeWhile (· != 0x0A)))
  rw [← lineOf] at hline
  have hend : (lineEnd text).length = (if (text.takeWhile (· != 0x0A)).getLast? = some 0x0D then
      [(0x0D : UInt8)] else []).length + min 1 (text.dropWhile (· != 0x0A)).length := by
    rw [lineEnd, List.length_append, List.length_take]
  have hafter : (linesAfter text).length = (text.dropWhile (· != 0x0A)).length - 1 := by
    rw [linesAfter, List.length_tail]
  rw [List.length_append] at hall hline
  rw [List.length_append] at hall
  split <;> omega

/-- What lies behind the line in a buffer is read from the next line on. -/
theorem next (h : AtLine n i buffer text) {buffer' : Bytes}
    (hbehind : buffer'.drop (i + (lineOf text).length) = padded (text.drop (lineOf text).length)) :
    AtLine n (i + ((lineOf text).length + (lineEnd text).length)) buffer' (linesAfter text) := by
  refine ⟨?_, h.next_eq.2⟩
  rw [← Nat.add_assoc, ← List.drop_drop, hbehind, drop_lineOf, padded, List.append_assoc,
    List.drop_left, padded]

theorem behind (h : AtLine n i buffer text) :
    buffer.drop (i + (lineOf text).length) = padded (text.drop (lineOf text).length) := by
  rw [← List.drop_drop, h.unread, padded,
    List.drop_append_of_le_length (length_lineOf_le text), padded]

/-- The parser of a line is where the reading of the line is. -/
theorem tracks (h : AtLine n i buffer text) :
    Tracks (lineWindow i text) 0
      { buffer, mBegin := i, mCurr := i, mEnd := i + (lineOf text).length } { rest := text } where
  unread := h.unread
  curr := rfl
  last := by
    have := length_lineOf_le text
    simp only [Window.tail, lineWindow, List.length_drop]
    omega
  start := rfl
  depth := rfl
  error := rfl
  behind := h.behind
  inside := fun _ => by
    have := length_lineOf_le text
    simp only [Window.tail, lineWindow, List.length_drop]
    congr 1
    omega

end AtLine

theorem HoldsLines.mono {buffer buffer' : Bytes} {limit limit' : Nat} {arr : List (Json View)}
    {values : List Ast} (h : HoldsLines platform cfg buffer limit arr values)
    (hmemory : buffer'.take limit = buffer.take limit) (hle : limit ≤ limit') :
    HoldsLines platform cfg buffer' limit' arr values := by
  refine h.imp fun json value ⟨hmap, hall⟩ => ⟨?_, hall.mono fun _ => View.Below.mono hle⟩
  rw [← hmap]
  exact Json.map_congr (hall.mono fun _ hbelow => Memory.slice_congr hmemory hbelow)

theorem HoldsLines.tree {buffer : Bytes} {limit : Nat} {arr : List (Json View)} {values : List Ast}
    (h : HoldsLines platform cfg buffer limit arr values) :
    Document.tree { buffer, root := .array arr } =
      .array (values.map (Ast.toJson (tokenNumber platform cfg))) := by
  rw [Document.tree, Json.map_array]
  congr 1
  induction h with
  | nil => rfl
  | cons hjson _ ih => rw [List.map_cons, List.map_cons, hjson.1, ih]

/-- What `jsonlLoop` makes of what is read from the lines. -/
def LoopFollows (platform : Platform) (cfg : Config) (values : List Ast)
    (read : Res Error (List Ast)) (run : Res Error Document) : Prop :=
  match read with
  | .ok more => ∃ document, run = .ok document ∧
      document.tree = .array ((values ++ more).map (Ast.toJson (tokenNumber platform cfg)))
  | .error error => run = .error error
  | .stuck => True

/-- The loop over the lines follows the reading by lines. -/
theorem jsonlLoop_follows {n fuel i : Nat} {buffer text : Bytes} {arr : List (Json View)}
    {values : List Ast} (h : AtLine n i buffer text)
    (harr : HoldsLines platform cfg buffer i arr values) :
    LoopFollows platform cfg values (readLines platform cfg fuel text)
      (jsonlLoop platform cfg n fuel i buffer arr) := by
  induction fuel generalizing i buffer text arr values with
  | zero => trivial
  | succ fuel ih =>
      have hoffset := h.offset
      rw [readLines, jsonlLoop]
      by_cases hnil : text = []
      · have hend : ¬i < n := by rw [hnil, List.length_nil] at hoffset; omega
        rw [if_pos hnil, if_neg hend]
        exact ⟨_, rfl, by rw [harr.tree, List.append_nil]⟩
      have hpos := List.length_pos_iff.mpr hnil
      rw [if_neg hnil, if_pos (by omega : i < n), h.lineAt_eq]
      simp only
      rw [h.next_eq.1, h.slice_eq]
      split
      · -- a blank line
        exact ih (h.next h.behind) (harr.mono rfl (Nat.le_add_right _ _))
      have hmatches : Matches (lineWindow i text) _ (readLine platform cfg text) _ :=
        @matches_parse platform (lineConfig cfg) _ _ _ h.tracks rfl rfl
      have hends := @reads_readLine platform cfg text
      cases hread : readLine platform cfg text with
      | stuck => trivial
      | error r =>
          obtain ⟨failure, hfailure⟩ := Option.isSome_iff_exists.mp (hends.error hread)
          rw [hread] at hmatches
          obtain hfalse | ⟨p, hparse, hfailed⟩ := hmatches
          · exact hfalse.elim
          change Parser.parse platform { cfg with stripBom := false } _ = _ at hparse
          rw [hparse]
          change Res.error (p.mError.getD _) = Res.error (lineError text r)
          rw [hfailed, lineError, hfailure, Option.map_some, Option.map_some, error_lineWindow]
      | ok result =>
          obtain ⟨value, r⟩ := result
          rw [hread] at hmatches
          obtain ⟨_, p, hparse, hvalue⟩ := hmatches
          change Parser.parse platform { cfg with stripBom := false } _ = _ at hparse
          rw [hparse]
          have hlast : p.mEnd = i + (lineOf text).length := hvalue.kept.last
          have hbehind := hvalue.tracks.behind
          rw [hlast] at hbehind
          have hmemory : p.buffer.take i = buffer.take i := hvalue.kept.memory
          have hpassed : p.passed ≤ i + ((lineOf text).length + (lineEnd text).length) := by
            rw [Parser.passed, hlast]
            omega
          have harr' : HoldsLines platform cfg p.buffer
              (i + ((lineOf text).length + (lineEnd text).length)) (arr ++ [p.out])
              (values ++ [value]) :=
            List.rel_append (harr.mono hmemory (Nat.le_add_right _ _))
              (.cons ⟨hvalue.out.1, hvalue.out.2.mono fun _ => View.Below.mono hpassed⟩ .nil)
          have hrest := ih (h.next hbehind) harr'
          simp only
          cases hmore : readLines platform cfg fuel (linesAfter text) with
          | stuck => trivial
          | error error =>
              rw [hmore] at hrest
              exact hrest
          | ok more =>
              rw [hmore] at hrest
              obtain ⟨document, hrun, htree⟩ := hrest
              refine ⟨document, hrun, ?_⟩
              rw [htree, List.append_assoc, List.singleton_append]

/-- `parse_jsonl` fails where reading the lines of its input does, with that error, and otherwise
returns the array of the values that are read. -/
theorem parseJsonl_spec {input : Bytes} (hfits : paddedFits input.length = true) :
    (∃ values, readJsonLines platform cfg input = .ok values ∧
      ∃ document, parseJsonl platform cfg input = .ok document ∧
        document.tree = .array (values.map (Ast.toJson (tokenNumber platform cfg)))) ∨
    ∃ error, readJsonLines platform cfg input = .error error ∧
      parseJsonl platform cfg input = .error error := by
  obtain ⟨start, hstart⟩ : ∃ start, start = if cfg.stripBom && startsWithUtf8Bom input then 3 else 0 :=
    ⟨_, rfl⟩
  have hle : start ≤ input.length := by
    rw [hstart]
    split
    · rename_i hbom
      rw [Bool.and_eq_true] at hbom
      have htake := congrArg List.length (beq_iff_eq.mp hbom.2)
      rw [List.length_take] at htake
      simp only [List.length_cons, List.length_nil] at htake
      omega
    · exact Nat.zero_le _
  have hline : AtLine input.length start (padded input) (input.drop start) :=
    ⟨by rw [padded, List.drop_append_of_le_length hle, padded], by rw [List.length_drop]; omega⟩
  have hfuel : (input.drop start).length < input.length + 1 := by
    rw [List.length_drop]
    omega
  have hne : readLines platform cfg _ _ ≠ .stuck := readLines_ne_stuck hfuel
  have hfollows := @jsonlLoop_follows platform cfg _ (input.length + 1) _ _ _ _ _ hline .nil
  rw [parseJsonl, hfits, if_neg (by decide), readJsonLines, ← hstart]
  cases hread : readLines platform cfg (input.length + 1) (input.drop start) with
  | stuck => exact absurd hread hne
  | error error =>
      rw [hread] at hfollows
      exact .inr ⟨error, rfl, hfollows⟩
  | ok values =>
      rw [hread] at hfollows
      obtain ⟨document, hrun, htree⟩ := hfollows
      exact .inl ⟨values, rfl, document, hrun, htree⟩

/-! ### Memory safety -/

theorem length_padded (content : Bytes) :
    (padded content).length = content.length + kPaddingWidth := by
  rw [padded, List.length_append, List.length_replicate]

/-- A position counts the bytes from the start of the window, and there are at most `size`. -/
theorem Failure.position_error_le (w : Window) (failure : Failure) :
    (failure.error w).position ≤ w.size := by
  unfold Failure.error
  cases failure.left with
  | none => exact Nat.zero_le _
  | some left => simp only; omega

theorem parseCopy_ne_stuck (content : Bytes) : parseCopy platform cfg content ≠ .stuck := by
  intro hstuck
  cases hfits : paddedFits content.length with
  | false =>
      rw [parseCopy, hfits, if_pos (by decide)] at hstuck
      cases hstuck
  | true =>
      obtain ⟨_, _, _, _, hparse, _⟩ | ⟨_, _, _, _, hparse⟩ := @parseCopy_spec platform cfg _ hfits
      all_goals
        rw [hparse] at hstuck
        cases hstuck

theorem parseJsonl_ne_stuck (content : Bytes) : parseJsonl platform cfg content ≠ .stuck := by
  intro hstuck
  cases hfits : paddedFits content.length with
  | false =>
      rw [parseJsonl, hfits, if_pos (by decide)] at hstuck
      cases hstuck
  | true =>
      obtain ⟨_, _, _, hparse, _⟩ | ⟨_, _, hparse⟩ := @parseJsonl_spec platform cfg _ hfits
      all_goals
        rw [hparse] at hstuck
        cases hstuck

/-- A positioned error of `parse_copy` points into the content or right behind it. -/
theorem parseCopy_position_le {content : Bytes} {error : Error}
    (h : parseCopy platform cfg content = .error error) (hpositioned : error.positioned = true) :
    error.position ≤ content.length := by
  cases hfits : paddedFits content.length with
  | false =>
      rw [parseCopy, hfits, if_pos (by decide)] at h
      obtain rfl := Res.error.inj h
      cases hpositioned
  | true =>
      obtain ⟨_, _, _, _, hparse, _⟩ | ⟨failure, _, _, _, hparse⟩ :=
        @parseCopy_spec platform cfg _ hfits
      · rw [hparse] at h
        cases h
      · obtain rfl := Res.error.inj (hparse.symm.trans h)
        exact failure.position_error_le (Window.whole content)

/-- The parsers stay in their memory. The buffer is the content and `kPaddingWidth` NUL bytes, a read
behind its end or a write behind the content would leave the run without an outcome, and every run of
both entry points has one, for every batch width of the platform and every configuration. -/
theorem parse_inMemory (platform : Platform) (cfg : Config) (content : Bytes) :
    (padded content).length = content.length + 128 ∧
      parseCopy platform cfg content ≠ .stuck ∧ parseJsonl platform cfg content ≠ .stuck ∧
      ∀ error, parseCopy platform cfg content = .error error → error.positioned = true →
        error.position ≤ content.length :=
  ⟨length_padded content, parseCopy_ne_stuck content, parseJsonl_ne_stuck content,
    fun _ => parseCopy_position_le⟩

end PjhJson
