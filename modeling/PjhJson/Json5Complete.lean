import PjhJson.Json5Sound

/-! Every layout of the tokens of a value is read as that value: by induction on the derivation, with
the trivia in front of each token skipped and nothing of the token taken for trivia. -/

namespace PjhJson.Json5

open Grammar Prog Reading Scanner

variable {platform : Platform} {cfg : Config}

/-! ### Tokens -/

theorem skipWhitespace_trivia (hjson5 : cfg.json5 = true) {ws rest : Bytes} (hws : Trivia ws)
    (hrest : TokenStart rest) (failure : Option Failure) :
    skipWhitespace cfg 0 ⟨ws ++ rest, failure⟩ = .ok ((), ⟨rest, failure⟩) := by
  rw [skipWhitespace, if_pos hjson5, skipTriviaHere, Prog.bind_get, body_zero,
    skipTrivia_trivia hws hrest]
  simp only
  rw [advanceTo, Prog.bind_modify, body_zero, if_neg Bool.false_ne_true, List.length_append,
    Nat.add_sub_cancel, List.drop_left]
  rfl

/-- The trivia in front of a token are skipped. -/
theorem skip_token (hjson5 : cfg.json5 = true) {token : Token} (hopens : Opens token)
    {more : List Token} {text rest : Bytes} (h : Lays (token :: more) text rest)
    (failure : Option Failure) :
    ∃ text', skipWhitespace cfg 0 ⟨text, failure⟩ = .ok ((), ⟨token.text ++ text', failure⟩) ∧
      Lays more text' rest ∧ (token.text ++ text').length ≤ text.length := by
  cases h with
  | cons _ _ ws text' rest hws h =>
      refine ⟨text', skipWhitespace_trivia hjson5 hws (hopens.start text') failure, h, ?_⟩
      rw [@List.length_append _ ws]
      omega

theorem Lays.length_cons {token : Token} {more : List Token} {text rest : Bytes}
    (h : Lays (token :: more) text rest) : rest.length + token.text.length ≤ text.length := by
  cases h with
  | cons _ _ ws text' rest hws h =>
      have hle := h.length_le
      rw [List.length_append, List.length_append]
      omega

theorem Lays.length_lt {tokens : List Token} {text rest : Bytes} (h : Lays tokens text rest)
    (hleading : Leading tokens) : rest.length < text.length := by
  obtain ⟨first, more, rfl, hleads⟩ := hleading
  have hcons := h.length_cons
  have hpos := List.length_pos_of_ne_nil hleads.text
  omega

theorem lays_nil {text rest : Bytes} (h : Lays [] text rest) : text = rest := by
  cases h
  rfl

/-- A byte of a token that leads closes nothing. -/
theorem atByte_leads {token : Token} (h : Leads token) {c : UInt8}
    (hc : c = ascii ']' ∨ c = ascii '\x7d') (text : Bytes) (failure : Option Failure) :
    atByte 0 c ⟨token.text ++ text, failure⟩ = .ok (false, ⟨token.text ++ text, failure⟩) := by
  obtain ⟨b, rest, hb⟩ := List.exists_cons_of_ne_nil h.text
  have hne : b ≠ c := by
    obtain ⟨hbracket, hbrace⟩ := h.closes b (by rw [hb]; rfl)
    rcases hc with rfl | rfl
    · exact hbracket
    · exact hbrace
  rw [hb, List.cons_append, atByte_cons, beq_eq_false_iff_ne.mpr hne]

theorem closes_of_ended {tokens : List Token} {value : Ast} (hvalue : Value platform cfg tokens value)
    {rest : Bytes} (hended : Ended rest) : Closes platform value rest := by
  rintro token rfl
  cases hvalue with
  | number _ htoken =>
      obtain ⟨number, hnumber⟩ := htoken
      exact ⟨number, parseNumberJson5_append hnumber hended.1⟩

/-- The value of these tokens is read wherever they may stand. -/
def Completes (platform : Platform) (cfg : Config) (tokens : List Token) (value : Ast) : Prop :=
  ∀ {fuel depth : Nat} {unexpected : ErrorCode} {first : Token} {more : List Token}
    {text rest : Bytes} {failure : Option Failure}, tokens = first :: more → Lays more text rest →
    (first.text ++ text).length ≤ fuel + rest.length → Nests cfg depth value →
    Closes platform value rest →
    readValueAt skipWhitespace platform cfg 0 depth (readElement skipWhitespace platform cfg 0 fuel) unexpected
        (here ⟨first.text ++ text, failure⟩) ⟨first.text ++ text, failure⟩ =
      .ok (value, ⟨rest, failure⟩)

/-- A value of one token. -/
theorem completes_token {token : Token} {value : Ast}
    (h : ∀ {fuel depth : Nat} {unexpected : ErrorCode} {rest : Bytes} {failure : Option Failure},
      Closes platform value rest →
        readValueAt skipWhitespace platform cfg 0 depth (readElement skipWhitespace platform cfg 0 fuel) unexpected
        (here ⟨token.text ++ rest, failure⟩) ⟨token.text ++ rest, failure⟩ =
          .ok (value, ⟨rest, failure⟩)) : Completes platform cfg [token] value := by
  intro fuel depth unexpected first more text rest failure htokens hlays _ _ hcloses
  obtain ⟨rfl, rfl⟩ := List.cons.inj htokens
  obtain rfl := lays_nil hlays
  exact h hcloses

theorem completes_word (hjson5 : cfg.json5 = true) {word : Bytes} {value : Ast} {c : UInt8}
    (hc : c = ascii 't' ∨ c = ascii 'f' ∨ c = ascii 'n') (hword : word.head? = some c)
    (hliteral : ∀ rest failure, literalHere ⟨word ++ rest, failure⟩ = some (value, word.length)) :
    Completes platform cfg [.word word] value := by
  refine completes_token fun {fuel depth unexpected rest failure} _ => ?_
  have hhere : here ⟨word ++ rest, failure⟩ = c := by
    cases word with
    | nil => cases hword
    | cons b word => exact Option.some.inj hword
  have hne : ∀ b, ¬(b = ascii 't' ∨ b = ascii 'f' ∨ b = ascii 'n') → c ≠ b := by
    rintro b hb rfl
    exact hb hc
  have hread : readLiteral cfg ⟨word ++ rest, failure⟩ = .ok (value, ⟨rest, failure⟩) := by
    rw [readLiteral, Prog.bind_get, hliteral]
    simp only
    rw [advance, Prog.bind_modify, bind_peek, hjson5, Bool.true_or, if_pos rfl, List.drop_left]
    rfl
  show readValueAt skipWhitespace platform cfg 0 depth _ unexpected (here ⟨word ++ rest, failure⟩) _ = _
  rw [hhere, readValueAt, if_neg (hne _ (by decide)), if_neg (hne _ (by decide)),
    if_neg (hne _ (by decide)), if_pos hc]
  exact hread

theorem readNumber_json5 (hjson5 : cfg.json5 = true) {token rest : Bytes} {number : Number}
    (h : parseNumberJson5 platform (token ++ rest) = .ok (number, rest)) (failure : Option Failure) :
    readNumber platform cfg 0 ⟨token ++ rest, failure⟩ =
      .ok (.number token, ⟨rest, failure⟩) := by
  have hparse : parseNumberToken platform cfg (token ++ rest) = .ok (number, rest) := by
    rw [parseNumberToken, if_pos hjson5]
    exact h
  rw [readNumber, Prog.bind_get, body_zero]
  simp only [hparse]
  rw [advanceTo, Prog.bind_modify, body_zero, between_append, List.length_append, Nat.add_sub_cancel,
    List.drop_left]
  rfl

theorem completes_number (hjson5 : cfg.json5 = true) {token : Bytes}
    (htoken : NumberToken platform token) : Completes platform cfg [.number token] (.number token) := by
  refine completes_token fun {fuel depth unexpected rest failure} hcloses => ?_
  obtain ⟨number, hnumber⟩ := hcloses token rfl
  obtain ⟨c, more, hc, hstart⟩ := numberToken_start htoken
  have hhere : here ⟨token ++ rest, failure⟩ = c := by
    rw [hc]
    rfl
  have hne : ∀ b, isNumberStart b = false → c ≠ b := by
    rintro b hb rfl
    exact Bool.false_ne_true (hb.symm.trans hstart)
  have hread := @readNumber_json5 platform cfg hjson5 _ _ _ hnumber failure
  show readValueAt skipWhitespace platform cfg 0 depth _ unexpected (here ⟨token ++ rest, failure⟩)
    ⟨token ++ rest, failure⟩ = _
  rw [hhere, readValueAt, if_neg (hne _ (by decide)), if_neg (hne _ (by decide)),
    if_neg (hne _ (by decide)), if_neg]
  · split
    · exact hread
    rename_i hminus
    rw [if_neg fun h => hne _ (by decide) h.2, if_pos]
    · exact hread
    · rw [not_or] at hminus
      simp only [isNumberStart, Bool.or_eq_true, beq_iff_eq] at hstart
      exact ⟨hjson5, by tauto⟩
  · rintro (h | h | h)
    · exact hne _ (by decide) h
    · exact hne _ (by decide) h
    · exact hne _ (by decide) h

theorem completes_string (hjson5 : cfg.json5 = true) {quote : UInt8} {content value : Bytes}
    (hstring : StringToken cfg quote content value) :
    Completes platform cfg [.string quote content] (.string value) := by
  refine completes_token fun {fuel depth unexpected rest failure} _ => ?_
  rw [string_text]
  have hread := readStringJson5_append hstring rest failure
  rw [here, List.headD_cons, readValueAt]
  rcases hstring.1 with rfl | rfl
  · rw [if_neg (by decide), if_neg (by decide), if_pos rfl, Prog.bind_of_ok
      ((readString_json5 hjson5 rfl).trans hread)]
    rfl
  · rw [if_neg (by decide), if_neg (by decide), if_neg (by decide), if_neg (by decide),
      if_neg (by decide), if_pos ⟨hjson5, rfl⟩, Prog.bind_of_ok hread]
    rfl

/-! ### Elements -/

theorem readElement_lays (hjson5 : cfg.json5 = true) {tokens : List Token} {value : Ast}
    (hvalue : Value platform cfg tokens value) (hcompletes : Completes platform cfg tokens value)
    {text rest : Bytes} (hlays : Lays tokens text rest) {fuel depth : Nat}
    (hfuel : text.length < fuel + rest.length) (hnests : Nests cfg depth value) (hended : Ended rest)
    (failure : Option Failure) :
    readElement skipWhitespace platform cfg 0 fuel depth ⟨text, failure⟩ = .ok (value, ⟨rest, failure⟩) := by
  have hle := hlays.length_le
  obtain ⟨fuel, rfl⟩ : ∃ f, fuel = f + 1 := ⟨fuel - 1, by omega⟩
  obtain ⟨first, more, rfl, hleads⟩ := hvalue.leading
  obtain ⟨text', hskip, hmore, hlength⟩ := skip_token hjson5 hleads.toOpens hlays failure
  rw [readElement, Prog.bind_of_ok hskip, bind_peek]
  exact hcompletes rfl hmore (by omega) hnests (closes_of_ended hvalue hended)

/-- After a comma: the container goes on, or it is closed. -/
theorem closedAfterComma_lays (hjson5 : cfg.json5 = true) {token : Token} (hleads : Leads token)
    {c : UInt8} (hc : c = ascii ']' ∨ c = ascii '}') {more : List Token} {text rest : Bytes}
    (h : Lays (token :: more) text rest) (failure : Option Failure) :
    ∃ text', closedAfterComma skipWhitespace cfg 0 c ⟨text, failure⟩ =
        .ok (false, ⟨token.text ++ text', failure⟩) ∧ Lays more text' rest ∧
      (token.text ++ text').length ≤ text.length := by
  obtain ⟨text', hskip, hmore, hlength⟩ := skip_token hjson5 hleads.toOpens h failure
  refine ⟨text', ?_, hmore, hlength⟩
  rw [closedAfterComma, if_pos hjson5, Prog.bind_of_ok hskip]
  exact atByte_leads hleads hc text' failure

theorem closedAfterComma_close (hjson5 : cfg.json5 = true) {c : UInt8} {text rest : Bytes}
    {failure failure' : Option Failure}
    (hskip : skipWhitespace cfg 0 ⟨text, failure⟩ = .ok ((), ⟨c :: rest, failure'⟩)) :
    closedAfterComma skipWhitespace cfg 0 c ⟨text, failure⟩ = .ok (true, ⟨c :: rest, failure'⟩) := by
  rw [closedAfterComma, if_pos hjson5, Prog.bind_of_ok hskip, atByte_cons, beq_self_eq_true]

/-- The closing bracket stands behind trivia. -/
theorem skip_close (hjson5 : cfg.json5 = true) {c : UInt8} (hc : isTokenByte c = true)
    {text rest : Bytes} (h : Lays [.punctuator c] text rest) (failure : Option Failure) :
    skipWhitespace cfg 0 ⟨text, failure⟩ = .ok ((), ⟨c :: rest, failure⟩) ∧
      rest.length < text.length := by
  obtain ⟨text', hskip, hmore, hlength⟩ := skip_token hjson5 (opens_punctuator hc) h failure
  obtain rfl := lays_nil hmore
  exact ⟨hskip, hlength⟩

/-- The elements are read, and the bracket behind them. What is in front of the bracket is skipped,
whatever failure this records. -/
def CompletesElements (platform : Platform) (cfg : Config) (tokens : List Token)
    (values : List Ast) : Prop :=
  ∀ {fuel depth count : Nat} {elements : List Ast} {text middle rest : Bytes}
    {failure failure' : Option Failure}, Lays tokens text middle → Ended middle →
    skipWhitespace cfg 0 ⟨middle, failure⟩ = .ok ((), ⟨ascii ']' :: rest, failure'⟩) →
    text.length < fuel + middle.length → text.length < count + middle.length →
    (∀ value ∈ values, Nests cfg depth value) →
    elementsLoop skipWhitespace cfg 0 (readElement skipWhitespace platform cfg 0 fuel depth)
      count elements ⟨text, failure⟩ =
      .ok (elements ++ values, ⟨rest, failure'⟩)

/-- One element, up to the trivia behind it. -/
theorem readElement_then (hjson5 : cfg.json5 = true) {tokens : List Token} {value : Ast}
    (hvalue : Value platform cfg tokens value) (hcompletes : Completes platform cfg tokens value)
    {c : UInt8} (htoken : isTokenByte c = true) (hfollows : Follows c) {more : List Token}
    {text rest : Bytes}
    (hlays : Lays (tokens ++ .punctuator c :: more) text rest) {fuel depth : Nat}
    (hfuel : text.length ≤ fuel + rest.length) (hnests : Nests cfg depth value)
    (failure : Option Failure) :
    ∃ r₁ behind, readElement skipWhitespace platform cfg 0 fuel depth ⟨text, failure⟩ = .ok (value, r₁) ∧
      skipWhitespace cfg 0 r₁ = .ok ((), ⟨c :: behind, failure⟩) ∧ Lays more behind rest ∧
      behind.length + 1 < text.length := by
  obtain ⟨middle, hfirst, hsecond⟩ := hlays.split
  have hmiddle : rest.length + 1 ≤ middle.length := hsecond.length_cons
  obtain ⟨behind, hskip, hmore, hlength⟩ :=
    skip_token hjson5 (opens_punctuator htoken) hsecond failure
  have hlength : behind.length + 1 ≤ middle.length := hlength
  have hbegins := hfirst.length_lt hvalue.leading
  exact ⟨_, behind, readElement_lays hjson5 hvalue hcompletes hfirst (by omega) hnests
    (ended_lays hfollows hsecond) failure, hskip, hmore, by omega⟩

theorem completesElements_last (hjson5 : cfg.json5 = true) {tokens comma : List Token} {value : Ast}
    (hvalue : Value platform cfg tokens value) (hcompletes : Completes platform cfg tokens value)
    (hcomma : TrailingComma comma) :
    CompletesElements platform cfg (tokens ++ comma) [value] := by
  intro fuel depth count elements text middle rest failure failure' hlays hended hclose hfuel hcount hnests
  have hnests := List.forall_mem_singleton.mp hnests
  have hle := hlays.length_le
  obtain ⟨count, rfl⟩ : ∃ n, count = n + 1 := ⟨count - 1, by omega⟩
  rcases hcomma with rfl | rfl
  · rw [List.append_nil] at hlays
    have helement := readElement_lays hjson5 hvalue hcompletes hlays hfuel hnests hended failure
    rw [elementsLoop, Prog.bind_of_ok helement, Prog.bind_of_ok hclose, peek_cons, if_pos rfl,
      Prog.bind_of_ok (advance_cons _ _ _)]
    rfl
  · obtain ⟨r₁, behind, helement, hskip, hmore, hlength⟩ := readElement_then hjson5 hvalue hcompletes
      (by decide) (.inl rfl) hlays (Nat.le_of_lt hfuel) hnests failure
    obtain rfl := lays_nil hmore
    have hclosed := closedAfterComma_close hjson5 hclose
    rw [elementsLoop, Prog.bind_of_ok helement, Prog.bind_of_ok hskip, peek_cons, if_neg (by decide),
      if_pos rfl, Prog.bind_of_ok (advance_cons _ _ _), Prog.bind_of_ok hclosed, if_pos rfl,
      Prog.bind_of_ok (advance_cons _ _ _)]
    rfl

theorem completesElements_more (hjson5 : cfg.json5 = true) {tokens rest : List Token} {value : Ast}
    {values : List Ast} (hvalue : Value platform cfg tokens value)
    (hcompletes : Completes platform cfg tokens value) (hvalues : Elements platform cfg rest values)
    (hrest : CompletesElements platform cfg rest values) :
    CompletesElements platform cfg (tokens ++ .punctuator (ascii ',') :: rest) (value :: values) := by
  intro fuel depth count elements text middle behind failure failure' hlays hended hclose hfuel hcount
    hnests
  rw [List.forall_mem_cons] at hnests
  obtain ⟨r₁, after, helement, hskip, hmore, hlength⟩ := readElement_then hjson5 hvalue hcompletes
    (by decide) (.inl rfl) hlays (Nat.le_of_lt hfuel) hnests.1 failure
  have hle := hmore.length_le
  obtain ⟨count, rfl⟩ : ∃ n, count = n + 1 := ⟨count - 1, by omega⟩
  obtain ⟨first, others, rfl, hleads⟩ := hvalues.leading
  obtain ⟨text', hclosed, hothers, hshort⟩ :=
    closedAfterComma_lays hjson5 hleads (.inl rfl) hmore failure
  have hagain : Lays (first :: others) (first.text ++ text') middle :=
    .cons first _ [] text' middle .nil hothers
  rw [elementsLoop, Prog.bind_of_ok helement, Prog.bind_of_ok hskip, peek_cons, if_neg (by decide),
    if_pos rfl, Prog.bind_of_ok (advance_cons _ _ _), Prog.bind_of_ok hclosed,
    if_neg Bool.false_ne_true, hrest hagain hended hclose (by omega) (by omega) hnests.2,
    List.append_assoc, List.singleton_append]

/-- Reading an array that fits, up to its first element. -/
theorem readArray_open {depth : Nat} (hdepth : DepthFits cfg (depth + 1))
    (element : Nat → Prog Reading Ast) {text behind : Bytes} {failure : Option Failure}
    (hskip : skipWhitespace cfg 0 ⟨text, failure⟩ = .ok ((), ⟨behind, failure⟩)) :
    readArray skipWhitespace cfg 0 depth element ⟨ascii '[' :: text, failure⟩ =
      (atByte 0 (ascii ']') >>= fun empty => if empty then do
          advance 1
          pure (.array [])
        else do
          let elements ← elementsLoop skipWhitespace cfg 0 (element (depth + 1)) (text.length + 1) []
          pure (.array elements)) ⟨behind, failure⟩ := by
  rw [readArray, Prog.bind_get, Prog.bind_of_ok (checkDepth_fits hdepth _),
    Prog.bind_of_ok (advance_cons _ _ _), Prog.bind_of_ok hskip]
  rfl

/-- The bracket that closes a container, in front of which `text` goes on with `middle`. -/
theorem skip_last (hjson5 : cfg.json5 = true) {tokens : List Token} {c : UInt8}
    (hc : isTokenByte c = true) (hfollows : Follows c) {text rest : Bytes}
    (h : Lays (tokens ++ [.punctuator c]) text rest) (failure : Option Failure) :
    ∃ middle, Lays tokens text middle ∧ Ended middle ∧ rest.length < middle.length ∧
      skipWhitespace cfg 0 ⟨middle, failure⟩ = .ok ((), ⟨c :: rest, failure⟩) := by
  obtain ⟨middle, hfirst, hlast⟩ := h.split
  obtain ⟨hskip, hlength⟩ := skip_close hjson5 hc hlast failure
  exact ⟨middle, hfirst, ended_lays hfollows hlast, hlength, hskip⟩

theorem reads_emptyArray {depth : Nat} {element : Nat → Prog Reading Ast} {unexpected : ErrorCode}
    {text rest : Bytes} {failure failure' : Option Failure} (hnests : Nests cfg depth (.array []))
    (hclose : skipWhitespace cfg 0 ⟨text, failure⟩ = .ok ((), ⟨ascii ']' :: rest, failure'⟩)) :
    readValueAt skipWhitespace platform cfg 0 depth element unexpected (ascii '[') ⟨ascii '[' :: text, failure⟩ =
      .ok (.array [], ⟨rest, failure'⟩) := by
  rw [readValueAt_array, readArray, Prog.bind_get,
    Prog.bind_of_ok (checkDepth_fits (nests_array.mp hnests).1 _), Prog.bind_of_ok (advance_cons _ _ _),
    Prog.bind_of_ok hclose, Prog.bind_of_ok (atByte_cons _ _ _ _), beq_self_eq_true, if_pos rfl,
    Prog.bind_of_ok (advance_cons _ _ _)]
  rfl

theorem reads_array (hjson5 : cfg.json5 = true) {tokens : List Token} {elements : List Ast}
    (helements : Elements platform cfg tokens elements)
    (hcompletes : CompletesElements platform cfg tokens elements) {fuel depth : Nat}
    {unexpected : ErrorCode} {text middle rest : Bytes} {failure failure' : Option Failure}
    (hlays : Lays tokens text middle) (hended : Ended middle)
    (hclose : skipWhitespace cfg 0 ⟨middle, failure⟩ = .ok ((), ⟨ascii ']' :: rest, failure'⟩))
    (hfuel : text.length < fuel + middle.length) (hnests : Nests cfg depth (.array elements)) :
    readValueAt skipWhitespace platform cfg 0 depth
      (readElement skipWhitespace platform cfg 0 fuel) unexpected (ascii '[')
        ⟨ascii '[' :: text, failure⟩ = .ok (.array elements, ⟨rest, failure'⟩) := by
  obtain ⟨hdepth, hall⟩ := nests_array.mp hnests
  obtain ⟨first, others, rfl, hleads⟩ := helements.leading
  obtain ⟨text', hskip, hothers, hlength⟩ := skip_token hjson5 hleads.toOpens hlays failure
  have hagain : Lays (first :: others) (first.text ++ text') middle :=
    .cons first _ [] text' middle .nil hothers
  have hloop := @hcompletes fuel (depth + 1) (text.length + 1) [] _ middle rest failure failure' hagain
    hended hclose (by omega) (by omega) hall
  rw [readValueAt_array, readArray_open hdepth _ hskip,
    Prog.bind_of_ok (atByte_leads hleads (.inl rfl) text' failure), if_neg Bool.false_ne_true,
    Prog.bind_of_ok hloop]
  rfl

theorem completes_emptyArray (hjson5 : cfg.json5 = true) :
    Completes platform cfg [.punctuator (ascii '['), .punctuator (ascii ']')] (.array []) := by
  intro fuel depth unexpected first more text rest failure htokens hlays _ hnests _
  obtain ⟨rfl, rfl⟩ := List.cons.inj htokens
  exact reads_emptyArray hnests (skip_close hjson5 (by decide) hlays failure).1

theorem completes_array (hjson5 : cfg.json5 = true) {tokens : List Token} {elements : List Ast}
    (helements : Elements platform cfg tokens elements)
    (hcompletes : CompletesElements platform cfg tokens elements) :
    Completes platform cfg (.punctuator (ascii '[') :: (tokens ++ [.punctuator (ascii ']')]))
      (.array elements) := by
  intro fuel depth unexpected first more text rest failure htokens hlays hfuel hnests _
  obtain ⟨rfl, rfl⟩ := List.cons.inj htokens
  have hfuel : text.length + 1 ≤ fuel + rest.length := hfuel
  obtain ⟨middle, hfirst, hended, hlength, hclose⟩ :=
    skip_last hjson5 (by decide) (.inr (.inr (.inl rfl))) hlays failure
  exact reads_array hjson5 helements hcompletes hfirst hended hclose
    (show text.length < fuel + middle.length by omega) hnests

/-! ### Members -/

theorem readKey_append (hjson5 : cfg.json5 = true) {name : Token} {key rest : Bytes}
    (hname : MemberName cfg name key) (hrest : NameEnds rest) (failure : Option Failure) :
    readKey cfg 0 ⟨name.text ++ rest, failure⟩ = .ok (key, ⟨rest, failure⟩) := by
  have hend : atEnd 0 ⟨name.text ++ rest, failure⟩ = false := by
    obtain ⟨c, more, hc⟩ := List.exists_cons_of_ne_nil hname.leads.text
    rw [hc]
    simp [atEnd]
  rw [readKey, Prog.bind_get, if_pos ⟨hjson5, hend⟩]
  cases hname with
  | name spelling chars hname =>
      have hhere : ∀ c, c ≤ 0x7F → c ≠ ascii '\\' → Grammar.isIdentifierContinue c = false →
          here ⟨(Token.name spelling).text ++ rest, failure⟩ ≠ c := by
        rintro c hle hne hpart hhere
        obtain ⟨b, more, hb⟩ := List.exists_cons_of_ne_nil hname.leads.text
        rw [hb] at hhere
        obtain rfl : b = c := hhere
        have hspelling : spelling = b :: more := hb
        rcases hname.head (by rw [hspelling]; rfl) with rfl | hcontinue
        · exact hne rfl
        · exact Bool.false_ne_true (hpart.symm.trans (hcontinue hle))
      rw [if_neg (hhere _ (by decide) (by decide) (by decide)),
        if_pos (hhere _ (by decide) (by decide) (by decide))]
      exact readIdentifierKey_append hname hrest failure
  | string quote content value hstring =>
      have hread := readStringJson5_append hstring rest failure
      rw [string_text, here, List.headD_cons]
      rcases hstring.1 with rfl | rfl
      · rw [if_neg (by decide), if_neg (by decide), readString_json5 hjson5 rfl]
        exact hread
      · rw [if_pos rfl]
        exact hread

/-- One member. -/
theorem readMember_lays (hjson5 : cfg.json5 = true) (hlenient : cfg.strictDuplicateKeys = false)
    {name : Token} {key : Bytes} (hname : MemberName cfg name key) {tokens : List Token} {value : Ast}
    (hvalue : Value platform cfg tokens value) (hcompletes : Completes platform cfg tokens value)
    {text rest : Bytes} (hlays : Lays (name :: .punctuator (ascii ':') :: tokens) text rest)
    {fuel depth : Nat} (hfuel : text.length < fuel + rest.length) (hnests : Nests cfg depth value)
    (hended : Ended rest) (members : List (Bytes × Ast)) (failure : Option Failure) :
    readMember skipWhitespace cfg 0 (readElement skipWhitespace platform cfg 0 fuel depth) members ⟨text, failure⟩ =
      .ok ((key, value), ⟨rest, failure⟩) := by
  obtain ⟨text₁, hfirst, hcolon, hlength₁⟩ := skip_token hjson5 hname.leads.toOpens hlays failure
  have hkey := readKey_append hjson5 hname (ended_lays (.inr (.inl rfl)) hcolon).2 failure
  have hduplicate : ∀ r, checkDuplicateKey cfg members key r = .ok ((), r) := by
    intro r
    rw [checkDuplicateKey, hlenient, if_neg (by simp)]
    rfl
  obtain ⟨text₂, hsecond, htokens, hlength₂⟩ :=
    skip_token hjson5 (opens_punctuator (by decide)) hcolon failure
  have hshort : text₂.length + 1 ≤ text₁.length := hlength₂
  rw [List.length_append] at hlength₁
  have helement := readElement_lays hjson5 hvalue hcompletes htokens
    (show text₂.length < fuel + rest.length by omega) hnests hended failure
  rw [readMember, Prog.bind_of_ok hfirst, Prog.bind_of_ok hkey, Prog.bind_of_ok (hduplicate _),
    Prog.bind_of_ok hsecond]
  show (peek >>= _) ⟨ascii ':' :: text₂, failure⟩ = _
  rw [peek_cons, if_neg (by decide), Prog.bind_of_ok (advance_cons _ _ _), Prog.bind_of_ok helement]
  rfl

/-- One member, up to the trivia behind it. -/
theorem readMember_then (hjson5 : cfg.json5 = true) (hlenient : cfg.strictDuplicateKeys = false)
    {name : Token} {key : Bytes} (hname : MemberName cfg name key) {tokens : List Token} {value : Ast}
    (hvalue : Value platform cfg tokens value) (hcompletes : Completes platform cfg tokens value)
    {c : UInt8} (hc : c = ascii ',' ∨ c = ascii '}') {more : List Token} {text rest : Bytes}
    (hlays : Lays (name :: .punctuator (ascii ':') :: (tokens ++ .punctuator c :: more)) text rest)
    {fuel depth : Nat} (hfuel : text.length ≤ fuel + rest.length) (hnests : Nests cfg depth value)
    (members : List (Bytes × Ast)) (failure : Option Failure) :
    ∃ r₁ behind, readMember skipWhitespace cfg 0
      (readElement skipWhitespace platform cfg 0 fuel depth) members ⟨text, failure⟩ =
        .ok ((key, value), r₁) ∧
      skipWhitespace cfg 0 r₁ = .ok ((), ⟨c :: behind, failure⟩) ∧ Lays more behind rest ∧
      behind.length + 1 < text.length := by
  have hpunctuator : isTokenByte c = true ∧ Follows c := by
    rcases hc with rfl | rfl
    · exact ⟨by decide, .inl rfl⟩
    · exact ⟨by decide, .inr (.inr (.inr rfl))⟩
  rw [← List.cons_append, ← List.cons_append] at hlays
  obtain ⟨middle, hmember, hsecond⟩ := hlays.split
  have hmiddle : rest.length + 1 ≤ middle.length := hsecond.length_cons
  obtain ⟨behind, hskip, hmore, hlength⟩ :=
    skip_token hjson5 (opens_punctuator hpunctuator.1) hsecond failure
  have hlength : behind.length + 1 ≤ middle.length := hlength
  have hbegins := hmember.length_lt (leading_cons hname.leads)
  exact ⟨_, behind, readMember_lays hjson5 hlenient hname hvalue hcompletes hmember (by omega) hnests
    (ended_lays hpunctuator.2 hsecond) members failure, hskip, hmore, by omega⟩

/-- The members are read, and the brace behind them. -/
def CompletesMembers (platform : Platform) (cfg : Config) (tokens : List Token)
    (more : List (Bytes × Ast)) : Prop :=
  ∀ {fuel depth count : Nat} {members : List (Bytes × Ast)} {text middle rest : Bytes}
    {failure failure' : Option Failure}, Lays tokens text middle → Ended middle →
    skipWhitespace cfg 0 ⟨middle, failure⟩ = .ok ((), ⟨ascii '}' :: rest, failure'⟩) →
    text.length < fuel + middle.length → text.length < count + middle.length →
    (∀ member ∈ more, Nests cfg depth member.2) →
    membersLoop skipWhitespace cfg 0 (readElement skipWhitespace platform cfg 0 fuel depth) count
      members ⟨text, failure⟩ =
      .ok (members ++ more, ⟨rest, failure'⟩)

theorem completesMembers_last (hjson5 : cfg.json5 = true) (hlenient : cfg.strictDuplicateKeys = false)
    {name : Token} {key : Bytes} (hname : MemberName cfg name key) {tokens comma : List Token}
    {value : Ast} (hvalue : Value platform cfg tokens value)
    (hcompletes : Completes platform cfg tokens value) (hcomma : TrailingComma comma) :
    CompletesMembers platform cfg (name :: .punctuator (ascii ':') :: (tokens ++ comma))
      [(key, value)] := by
  intro fuel depth count members text middle rest failure failure' hlays hended hclose hfuel hcount
    hnests
  have hnests := List.forall_mem_singleton.mp hnests
  have hle := hlays.length_le
  obtain ⟨count, rfl⟩ : ∃ n, count = n + 1 := ⟨count - 1, by omega⟩
  rcases hcomma with rfl | rfl
  · rw [List.append_nil] at hlays
    have hmember := readMember_lays hjson5 hlenient hname hvalue hcompletes hlays hfuel hnests hended
      members failure
    rw [membersLoop, Prog.bind_of_ok hmember, Prog.bind_of_ok hclose, Prog.bind_get,
      if_neg (by simp [atEnd]), here, List.headD_cons, if_pos rfl, Prog.bind_of_ok (advance_cons _ _ _)]
    rfl
  · obtain ⟨r₁, behind, hmember, hskip, hmore, hlength⟩ := readMember_then hjson5 hlenient hname
      hvalue hcompletes (.inl rfl) hlays (Nat.le_of_lt hfuel) hnests members failure
    obtain rfl := lays_nil hmore
    have hclosed := closedAfterComma_close hjson5 hclose
    rw [membersLoop, Prog.bind_of_ok hmember, Prog.bind_of_ok hskip, Prog.bind_get,
      if_neg (by simp [atEnd]), here, List.headD_cons, if_neg (by decide), if_pos rfl,
      Prog.bind_of_ok (advance_cons _ _ _), Prog.bind_of_ok hclosed, if_pos rfl,
      Prog.bind_of_ok (advance_cons _ _ _)]
    rfl

theorem completesMembers_more (hjson5 : cfg.json5 = true) (hlenient : cfg.strictDuplicateKeys = false)
    {name : Token} {key : Bytes} (hname : MemberName cfg name key) {tokens rest : List Token}
    {value : Ast} {more : List (Bytes × Ast)} (hvalue : Value platform cfg tokens value)
    (hcompletes : Completes platform cfg tokens value) (hmembers : Members platform cfg rest more)
    (hrest : CompletesMembers platform cfg rest more) :
    CompletesMembers platform cfg
      (name :: .punctuator (ascii ':') :: (tokens ++ .punctuator (ascii ',') :: rest))
      ((key, value) :: more) := by
  intro fuel depth count members text middle behind failure failure' hlays hended hclose hfuel hcount
    hnests
  rw [List.forall_mem_cons] at hnests
  obtain ⟨r₁, after, hmember, hskip, hmore, hlength⟩ := readMember_then hjson5 hlenient hname
    hvalue hcompletes (.inl rfl) hlays (Nat.le_of_lt hfuel) hnests.1 members failure
  have hle := hmore.length_le
  obtain ⟨count, rfl⟩ : ∃ n, count = n + 1 := ⟨count - 1, by omega⟩
  obtain ⟨first, others, rfl, hleads⟩ := hmembers.leading
  obtain ⟨text', hclosed, hothers, hshort⟩ :=
    closedAfterComma_lays hjson5 hleads (.inr rfl) hmore failure
  have hagain : Lays (first :: others) (first.text ++ text') middle :=
    .cons first _ [] text' middle .nil hothers
  rw [membersLoop, Prog.bind_of_ok hmember, Prog.bind_of_ok hskip, Prog.bind_get,
    if_neg (by simp [atEnd]), here, List.headD_cons, if_neg (by decide), if_pos rfl,
    Prog.bind_of_ok (advance_cons _ _ _), Prog.bind_of_ok hclosed, if_neg Bool.false_ne_true,
    hrest hagain hended hclose (by omega) (by omega) hnests.2, List.append_assoc,
    List.singleton_append]

/-- Reading an object that fits, up to its first member. -/
theorem readObject_open {depth : Nat} (hdepth : DepthFits cfg (depth + 1))
    (element : Nat → Prog Reading Ast) {text behind : Bytes} {failure : Option Failure}
    (hskip : skipWhitespace cfg 0 ⟨text, failure⟩ = .ok ((), ⟨behind, failure⟩)) :
    readObject skipWhitespace cfg 0 depth element ⟨ascii '{' :: text, failure⟩ =
      (if here ⟨behind, failure⟩ = ascii '}' then do
          advance 1
          pure (Ast.object [])
        else do
          let members ← membersLoop skipWhitespace cfg 0 (element (depth + 1)) (text.length + 1) []
          pure (Ast.object members)) ⟨behind, failure⟩ := by
  rw [readObject, Prog.bind_get, Prog.bind_of_ok (checkDepth_fits hdepth _),
    Prog.bind_of_ok (advance_cons _ _ _), Prog.bind_of_ok hskip, bind_peek]
  rfl

theorem reads_emptyObject {depth : Nat} {element : Nat → Prog Reading Ast} {unexpected : ErrorCode}
    {text rest : Bytes} {failure failure' : Option Failure} (hnests : Nests cfg depth (.object []))
    (hclose : skipWhitespace cfg 0 ⟨text, failure⟩ = .ok ((), ⟨ascii '}' :: rest, failure'⟩)) :
    readValueAt skipWhitespace platform cfg 0 depth element unexpected (ascii '{') ⟨ascii '{' :: text, failure⟩ =
      .ok (.object [], ⟨rest, failure'⟩) := by
  rw [readValueAt_object, readObject, Prog.bind_get,
    Prog.bind_of_ok (checkDepth_fits (nests_object.mp hnests).1 _), Prog.bind_of_ok (advance_cons _ _ _),
    Prog.bind_of_ok hclose, peek_cons, if_pos rfl, Prog.bind_of_ok (advance_cons _ _ _)]
  rfl

theorem reads_object (hjson5 : cfg.json5 = true) {tokens : List Token} {members : List (Bytes × Ast)}
    (hmembers : Members platform cfg tokens members)
    (hcompletes : CompletesMembers platform cfg tokens members) {fuel depth : Nat}
    {unexpected : ErrorCode} {text middle rest : Bytes} {failure failure' : Option Failure}
    (hlays : Lays tokens text middle) (hended : Ended middle)
    (hclose : skipWhitespace cfg 0 ⟨middle, failure⟩ = .ok ((), ⟨ascii '}' :: rest, failure'⟩))
    (hfuel : text.length < fuel + middle.length) (hnests : Nests cfg depth (.object members)) :
    readValueAt skipWhitespace platform cfg 0 depth
      (readElement skipWhitespace platform cfg 0 fuel) unexpected (ascii '{')
        ⟨ascii '{' :: text, failure⟩ = .ok (.object members, ⟨rest, failure'⟩) := by
  obtain ⟨hdepth, hall⟩ := nests_object.mp hnests
  obtain ⟨first, others, rfl, hleads⟩ := hmembers.leading
  obtain ⟨text', hskip, hothers, hlength⟩ := skip_token hjson5 hleads.toOpens hlays failure
  have hagain : Lays (first :: others) (first.text ++ text') middle :=
    .cons first _ [] text' middle .nil hothers
  have hloop := @hcompletes fuel (depth + 1) (text.length + 1) [] _ middle rest failure failure' hagain
    hended hclose (by omega) (by omega) hall
  have hhere : here ⟨first.text ++ text', failure⟩ ≠ ascii '}' := by
    obtain ⟨b, rest, hb⟩ := List.exists_cons_of_ne_nil hleads.text
    rw [hb]
    exact (hleads.closes b (by rw [hb]; rfl)).2
  rw [readValueAt_object, readObject_open hdepth _ hskip, if_neg hhere, Prog.bind_of_ok hloop]
  rfl

theorem completes_emptyObject (hjson5 : cfg.json5 = true) :
    Completes platform cfg [.punctuator (ascii '{'), .punctuator (ascii '}')] (.object []) := by
  intro fuel depth unexpected first more text rest failure htokens hlays _ hnests _
  obtain ⟨rfl, rfl⟩ := List.cons.inj htokens
  exact reads_emptyObject hnests (skip_close hjson5 (by decide) hlays failure).1

theorem completes_object (hjson5 : cfg.json5 = true) {tokens : List Token}
    {members : List (Bytes × Ast)} (hmembers : Members platform cfg tokens members)
    (hcompletes : CompletesMembers platform cfg tokens members) :
    Completes platform cfg (.punctuator (ascii '{') :: (tokens ++ [.punctuator (ascii '}')]))
      (.object members) := by
  intro fuel depth unexpected first more text rest failure htokens hlays hfuel hnests _
  obtain ⟨rfl, rfl⟩ := List.cons.inj htokens
  have hfuel : text.length + 1 ≤ fuel + rest.length := hfuel
  obtain ⟨middle, hfirst, hended, hlength, hclose⟩ :=
    skip_last hjson5 (by decide) (.inr (.inr (.inr rfl))) hlays failure
  exact reads_object hjson5 hmembers hcompletes hfirst hended hclose
    (show text.length < fuel + middle.length by omega) hnests

/-! ### Values and texts -/

/-- Every value of the grammar is read. -/
theorem completes_value (hjson5 : cfg.json5 = true) (hlenient : cfg.strictDuplicateKeys = false)
    {tokens : List Token} {value : Ast} (h : Value platform cfg tokens value) :
    Completes platform cfg tokens value :=
  @Value.rec platform cfg (fun tokens value _ => Completes platform cfg tokens value)
    (fun tokens values _ => CompletesElements platform cfg tokens values)
    (fun tokens members _ => CompletesMembers platform cfg tokens members)
    (completes_word hjson5 (.inr (.inr rfl)) rfl fun _ _ => rfl)
    (completes_word hjson5 (.inl rfl) rfl fun _ _ => rfl)
    (completes_word hjson5 (.inr (.inl rfl)) rfl fun _ _ => rfl)
    (fun _ htoken => completes_number hjson5 htoken)
    (fun _ _ _ hstring => completes_string hjson5 hstring)
    (completes_emptyArray hjson5)
    (fun _ _ helements hcompletes => completes_array hjson5 helements hcompletes)
    (completes_emptyObject hjson5)
    (fun _ _ hmembers hcompletes => completes_object hjson5 hmembers hcompletes)
    (fun _ _ _ hvalue hcomma hcompletes => completesElements_last hjson5 hvalue hcompletes hcomma)
    (fun _ _ _ _ hvalue hvalues hcompletes hrest =>
      completesElements_more hjson5 hvalue hcompletes hvalues hrest)
    (fun _ _ _ _ _ hname hvalue hcomma hcompletes =>
      completesMembers_last hjson5 hlenient hname hvalue hcompletes hcomma)
    (fun _ _ _ _ _ _ hname hvalue hmembers hcompletes hrest =>
      completesMembers_more hjson5 hlenient hname hvalue hcompletes hmembers hrest)
    tokens value h

theorem completes_elements (hjson5 : cfg.json5 = true) (hlenient : cfg.strictDuplicateKeys = false)
    {tokens : List Token} {values : List Ast} :
    Elements platform cfg tokens values → CompletesElements platform cfg tokens values := by
  intro h
  cases h with
  | last _ _ _ hvalue hcomma =>
      exact completesElements_last hjson5 hvalue (completes_value hjson5 hlenient hvalue) hcomma
  | more _ _ _ _ hvalue hvalues =>
      exact completesElements_more hjson5 hvalue (completes_value hjson5 hlenient hvalue) hvalues
        (completes_elements hjson5 hlenient hvalues)

theorem completes_members (hjson5 : cfg.json5 = true) (hlenient : cfg.strictDuplicateKeys = false)
    {tokens : List Token} {members : List (Bytes × Ast)} :
    Members platform cfg tokens members → CompletesMembers platform cfg tokens members := by
  intro h
  cases h with
  | last _ _ _ _ _ hname hvalue hcomma =>
      exact completesMembers_last hjson5 hlenient hname hvalue (completes_value hjson5 hlenient hvalue) hcomma
  | more _ _ _ _ _ _ hname hvalue hmembers =>
      exact completesMembers_more hjson5 hlenient hname hvalue (completes_value hjson5 hlenient hvalue)
        hmembers (completes_members hjson5 hlenient hmembers)

/-! ### Texts -/

theorem skip_torn (hjson5 : cfg.json5 = true) {text : Bytes} {c : UInt8} (h : Torn text [c])
    (failure : Option Failure) :
    ∃ failure', skipWhitespace cfg 0 ⟨text, failure⟩ = .ok ((), ⟨[c], failure'⟩) := by
  obtain ⟨ws, body, hws, rfl, hbody, -⟩ := h
  have hdrop : (ws ++ ascii '/' :: ascii '*' :: (body ++ [c])).drop
      ((ws ++ ascii '/' :: ascii '*' :: (body ++ [c])).length - [c].length) = [c] := by
    rw [show ws ++ ascii '/' :: ascii '*' :: (body ++ [c]) =
      (ws ++ ascii '/' :: ascii '*' :: body) ++ [c] by simp, List.length_append, Nat.add_sub_cancel,
      List.drop_left]
  rw [skipWhitespace, if_pos hjson5, skipTriviaHere, Prog.bind_get, body_zero,
    skipTrivia_torn hws hbody]
  simp only
  rw [advanceTo, Prog.bind_modify, body_zero, hdrop, if_pos trivial, record, Prog.modify_apply]
  split
  · exact ⟨_, rfl⟩
  · exact ⟨_, rfl⟩

theorem ended_torn {text rest : Bytes} (h : Torn text rest) : Ended text := by
  obtain ⟨ws, body, hws, rfl, -⟩ := h
  exact ended_trivia hws (ended_cons (by decide) (by decide) (by decide) (by decide) _)

/-- A value that a comment without an end breaks off is read. -/
theorem readValue_torn (hjson5 : cfg.json5 = true) (hlenient : cfg.strictDuplicateKeys = false)
    {first : List Token} {last : Token} {value : Ast}
    (hvalue : Value platform cfg (first ++ [last]) value) {text rest : Bytes}
    (h : BreaksOff first last text rest) (hnests : Nests cfg 0 value) {fuel : Nat}
    (hfuel : text.length ≤ fuel) :
    ∃ failure, readValue skipWhitespace platform cfg 0 fuel { rest := text } = .ok (value, ⟨rest, failure⟩) := by
  obtain ⟨rfl, c, middle, hlast, hlays, htorn⟩ := h
  obtain ⟨failure, hclose⟩ := skip_torn hjson5 htorn none
  have hended := ended_torn htorn
  have hbracket : ∀ {b : UInt8}, last = .punctuator b → c = b := by
    rintro b rfl
    exact (List.cons.inj hlast).1.symm
  -- the reading of a container starts with its bracket
  have hopen : ∀ {b : UInt8} {tokens : List Token}, isTokenByte b = true →
      Lays (.punctuator b :: tokens) text middle → ∃ text', Lays tokens text' middle ∧
        text'.length < text.length ∧ readValue skipWhitespace platform cfg 0 fuel { rest := text } =
          readValueAt skipWhitespace platform cfg 0 0
            (readElement skipWhitespace platform cfg 0 fuel) .unexpectedValueCharacter b
            { rest := b :: text' } := by
    intro b tokens hb hlays
    obtain ⟨text', hskip, hmore, hlength⟩ := skip_token hjson5 (opens_punctuator hb) hlays none
    refine ⟨text', hmore, hlength, ?_⟩
    have hend : atEnd 0 { rest := b :: text' } = false := by simp [atEnd]
    show (skipWhitespace cfg 0 >>= _) _ = _
    rw [Prog.bind_of_ok hskip]
    show (peek >>= _) ({ rest := b :: text' } : Reading) = _
    rw [peek_cons, Prog.bind_get, hend, if_neg (by simp)]
  have hsplit : ∀ {tokens : List Token} {close : Token}, first ++ [last] = tokens ++ [close] →
      first = tokens ∧ last = close := fun h =>
    ⟨(List.append_inj' h rfl).1, (List.cons.inj (List.append_inj' h rfl).2).1⟩
  refine ⟨failure, ?_⟩
  generalize htokens : first ++ [last] = tokens at hvalue
  cases hvalue with
  | null =>
      obtain ⟨rfl, rfl⟩ := @hsplit [] _ htokens
      cases hlast
  | boolTrue =>
      obtain ⟨rfl, rfl⟩ := @hsplit [] _ htokens
      cases hlast
  | boolFalse =>
      obtain ⟨rfl, rfl⟩ := @hsplit [] _ htokens
      cases hlast
  | number token htoken =>
      obtain ⟨rfl, rfl⟩ := @hsplit [] _ htokens
      obtain rfl : token = [c] := hlast
      obtain rfl := lays_nil hlays
      have hpos : 0 < text.length := by
        obtain ⟨ws, body, -, rfl, -⟩ := htorn
        simp
      have hread := @completes_number platform cfg hjson5 _ htoken fuel 0 .unexpectedValueCharacter _ _
        [] [] failure rfl (.nil []) (show 1 ≤ fuel + 0 by omega) hnests
        (@closes_of_ended platform cfg _ _ (.number _ htoken) _ ended_nil)
      rw [readValue, Prog.bind_of_ok hclose, bind_peek, Prog.bind_get, if_neg (by simp [atEnd])]
      exact hread
  | string quote content value _ =>
      obtain ⟨rfl, rfl⟩ := @hsplit [] _ htokens
      simp [Token.text] at hlast
  | emptyArray =>
      obtain ⟨rfl, rfl⟩ := @hsplit [.punctuator (ascii '[')] _ htokens
      obtain rfl := hbracket rfl
      obtain ⟨text', hmore, -, hread⟩ := hopen (by decide) hlays
      obtain rfl := lays_nil hmore
      rw [hread]
      exact reads_emptyArray hnests hclose
  | array tokens elements helements =>
      obtain ⟨rfl, rfl⟩ := @hsplit (.punctuator (ascii '[') :: tokens) _ htokens
      obtain rfl := hbracket rfl
      obtain ⟨text', hmore, hlt, hread⟩ := hopen (by decide) hlays
      rw [hread]
      exact reads_array hjson5 helements (completes_elements hjson5 hlenient helements) hmore hended
        hclose (by omega) hnests
  | emptyObject =>
      obtain ⟨rfl, rfl⟩ := @hsplit [.punctuator (ascii '{')] _ htokens
      obtain rfl := hbracket rfl
      obtain ⟨text', hmore, -, hread⟩ := hopen (by decide) hlays
      obtain rfl := lays_nil hmore
      rw [hread]
      exact reads_emptyObject hnests hclose
  | object tokens members hmembers =>
      obtain ⟨rfl, rfl⟩ := @hsplit (.punctuator (ascii '{') :: tokens) _ htokens
      obtain rfl := hbracket rfl
      obtain ⟨text', hmore, hlt, hread⟩ := hopen (by decide) hlays
      rw [hread]
      exact reads_object hjson5 hmembers (completes_members hjson5 hlenient hmembers) hmore hended
        hclose (by omega) hnests

/-- A value is read up to what stands behind it. -/
theorem readValue_lays (hjson5 : cfg.json5 = true) (hlenient : cfg.strictDuplicateKeys = false)
    {tokens : List Token} {value : Ast} (hvalue : Value platform cfg tokens value) {text rest : Bytes}
    (hlays : Lays tokens text rest) (hnests : Nests cfg 0 value) (hcloses : Closes platform value rest)
    {fuel : Nat} (hfuel : text.length ≤ fuel) :
    readValue skipWhitespace platform cfg 0 fuel { rest := text } = .ok (value, { rest := rest }) := by
  obtain ⟨first, more, rfl, hleads⟩ := hvalue.leading
  obtain ⟨text', hskip, hmore, hlength⟩ := skip_token hjson5 hleads.toOpens hlays none
  have hend : atEnd 0 { rest := first.text ++ text' } = false := by
    obtain ⟨c, rest, hc⟩ := List.exists_cons_of_ne_nil hleads.text
    rw [hc]
    simp [atEnd]
  rw [readValue, Prog.bind_of_ok hskip, bind_peek, Prog.bind_get, hend, if_neg (by simp)]
  exact completes_value hjson5 hlenient hvalue rfl hmore (by omega) hnests hcloses

/-- So is a value that the tokens in the text, which may break off in a comment, are those of. -/
theorem readValue_reaches (hjson5 : cfg.json5 = true) (hlenient : cfg.strictDuplicateKeys = false)
    {tokens : List Token} {value : Ast} (hvalue : Value platform cfg tokens value) {text rest : Bytes}
    (hreaches : Reaches True tokens text rest) (hnests : Nests cfg 0 value)
    (hcloses : Closes platform value rest) {fuel : Nat} (hfuel : text.length ≤ fuel) :
    ∃ failure, readValue skipWhitespace platform cfg 0 fuel { rest := text } = .ok (value, ⟨rest, failure⟩) := by
  rcases hreaches.cases hvalue.text_ne_nil with hlays | ⟨first, last, rfl, hbreaks⟩
  · exact ⟨none, readValue_lays hjson5 hlenient hvalue hlays hnests hcloses hfuel⟩
  · exact readValue_torn hjson5 hlenient hvalue hbreaks hnests hfuel

/-- A document of the grammar is accepted. -/
theorem readText_of_document (hjson5 : cfg.json5 = true) (hlenient : cfg.strictDuplicateKeys = false)
    {tokens : List Token} {json : Bytes} {value : Ast} (hdocument : Document tokens json)
    (hvalue : Value platform cfg tokens value) (hnests : Nests cfg 0 value) :
    readText skipWhitespace platform cfg 0 { rest := json } = .ok (value, { rest := [] }) := by
  obtain ⟨last, hlays, hlast⟩ := hdocument
  obtain ⟨bom, text, hstart, rfl, hbom⟩ := skipLeadingBom_eq cfg json
  have htext : Lays tokens text last := by
    rcases hbom with rfl | rfl
    · exact hlays
    · exact lays_bom hvalue.leading.begins hlays
  have hread : readValue skipWhitespace platform cfg 0 (bom ++ text).length { rest := text } =
      .ok (value, { rest := last }) :=
    readValue_lays hjson5 hlenient hvalue htext hnests (closes_of_ended hvalue (ended_last hlast))
      (by rw [@List.length_append _ bom]; omega)
  have hrecorded : ∀ rest, failIfRecorded { rest := rest } = .ok ((), { rest := rest }) :=
    fun _ => rfl
  have hskip : skipWhitespace cfg 0 { rest := last } = .ok ((), { rest := [] }) := by
    rw [skipWhitespace, if_pos hjson5, skipTriviaHere, Prog.bind_get, body_zero, skipTrivia_last hlast]
    simp only
    rw [advanceTo, Prog.bind_modify, body_zero, if_neg Bool.false_ne_true, List.length_nil, Nat.sub_zero,
      List.drop_length]
    rfl
  rw [readText, Prog.bind_get, Prog.bind_of_ok hstart, Prog.bind_of_ok hread,
    Prog.bind_of_ok (hrecorded _), Prog.bind_of_ok hskip, Prog.bind_of_ok (hrecorded _), Prog.bind_get]
  rfl

/-- With distinct keys not asked for, JSON5 mode accepts the documents of the grammar that are within
the depth limit, and finds their trees. -/
theorem readText_json5_iff (hjson5 : cfg.json5 = true) (hlenient : cfg.strictDuplicateKeys = false)
    {json : Bytes} {value : Ast} :
    (∃ r, readText skipWhitespace platform cfg 0 { rest := json } = .ok (value, r)) ↔
      Nests cfg 0 value ∧ ∃ tokens, Document tokens json ∧ Value platform cfg tokens value :=
  ⟨fun ⟨_, h⟩ => document_of_readText hjson5 h,
    fun ⟨hnests, _, hdocument, hvalue⟩ =>
      ⟨_, readText_of_document hjson5 hlenient hdocument hvalue hnests⟩⟩

end PjhJson.Json5
