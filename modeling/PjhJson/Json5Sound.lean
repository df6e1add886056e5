import PjhJson.Json5Layout
import PjhJson.ReadingClear

/-! What the reading accepts in JSON5 mode is a list of tokens that are laid out with trivia between
them, and a value of the grammar. An unterminated comment is recorded and the reading goes on, so this
is said of readings that end with no failure recorded or of texts that may break off in a comment. -/

namespace PjhJson.Json5

open Grammar Prog Reading Scanner

variable {platform : Platform} {cfg : Config} {r : Reading}

/-! ### Steps -/

/-- A run in two parts. -/
theorem bind_ok {α β : Type} {program : Prog Reading α} {next : α → Prog Reading β} {b : β}
    {r' : Reading} (h : (program >>= next) r = .ok (b, r')) :
    ∃ a r₁, program r = .ok (a, r₁) ∧ next a r₁ = .ok (b, r') := by
  rw [Prog.bind_apply, Res.bind_eq_ok] at h
  obtain ⟨⟨a, r₁⟩, hfirst, hrest⟩ := h
  exact ⟨a, r₁, hfirst, hrest⟩

theorem failHere_ne_ok {α : Type} {code : ErrorCode} {a : α} {r' : Reading} :
    (failHere code : Prog Reading α) r ≠ .ok (a, r') := by
  intro h
  cases h

/-- The byte that a run goes over. -/
theorem advance_ok {c : UInt8} (hc : c ≠ 0) (hhere : r.here = c) {α : Type}
    {next : Unit → Prog Reading α} {a : α} {r' : Reading}
    (h : (advance 1 >>= next) r = .ok (a, r')) :
    ∃ rest, r.rest = c :: rest ∧ next () ⟨rest, r.failure⟩ = .ok (a, r') := by
  obtain ⟨rest, hrest⟩ := here_cons hc hhere
  rw [advance, Prog.bind_modify, hrest, List.drop_one, List.tail_cons] at h
  exact ⟨rest, hrest, h⟩

theorem recorded_ne_clear (failure : Failure) (r : Reading) :
    ¬Clear (if r.failure.isSome then r else { r with failure := some failure }) := by
  intro hclear
  split at hclear
  · rename_i hsome
    rw [Clear] at hclear
    rw [hclear] at hsome
    cases hsome
  · cases hclear

theorem rest_recorded (failure : Failure) (r : Reading) :
    (if r.failure.isSome then r else { r with failure := some failure }).rest = r.rest := by
  split <;> rfl

/-- No failure was recorded, unless a comment may be left open. -/
def Whole (torn : Prop) (r : Reading) : Prop := torn ∨ Clear r

theorem Whole.reflects {torn : Prop} {α : Type} {program : Prog Reading α}
    (hprogram : Reflects Clear program) {a : α} {r' : Reading} (h : program r = .ok (a, r'))
    (hwhole : Whole torn r') : Whole torn r := hwhole.imp_right (hprogram r a r' h)

/-- What lies between two cursors: an open comment too, if there may be one. -/
def Jumps (torn : Prop) (p rest : Bytes) : Prop := Skips p rest ∨ torn ∧ Torn p rest

theorem Jumps.reaches {torn : Prop} {tokens : List Token} {p text rest : Bytes}
    (h : Jumps torn p text) (hreaches : Reaches torn tokens text rest) (hbegins : Begins tokens) :
    Reaches torn tokens p rest := by
  rcases h with hskips | ⟨htorn, hopen⟩
  · exact hskips.reaches hreaches hbegins
  · exact hopen.reaches htorn hreaches hbegins

theorem Skipped.suffix {p rest : Bytes} {unterminated : Bool} (h : Skipped p rest unterminated) :
    rest <:+ p := by
  cases unterminated with
  | false =>
      rcases h with ⟨ws, -, rfl⟩ | ⟨rfl, -⟩
      · exact List.suffix_append ws rest
      · exact List.nil_suffix
  | true =>
      obtain ⟨ws, body, -, rfl, -⟩ := h
      exact ⟨ws ++ ascii '/' :: ascii '*' :: body, by simp⟩

theorem jumps_of_skipWhitespace (hjson5 : cfg.json5 = true) {torn : Prop} {result : Unit}
    {r' : Reading} (h : skipWhitespace cfg 0 r = .ok (result, r')) (hwhole : Whole torn r') :
    Jumps torn r.rest r'.rest ∧ Whole torn r := by
  refine ⟨?_, Whole.reflects clear_skipWhitespace h hwhole⟩
  rw [skipWhitespace, if_pos hjson5, skipTriviaHere, Prog.bind_get, body_zero] at h
  cases hskip : skipTrivia r.rest with
  | none => rw [hskip] at h; cases h
  | some found =>
      obtain ⟨rest, unterminated⟩ := found
      rw [hskip] at h
      simp only at h
      rw [advanceTo, Prog.bind_modify, body_zero] at h
      have hskipped := skipTrivia_skipped hskip
      obtain ⟨before, hbefore⟩ := hskipped.suffix
      have hdrop : r.rest.drop (r.rest.length - rest.length) = rest := by
        rw [← hbefore, List.length_append, Nat.add_sub_cancel, List.drop_left]
      cases unterminated with
      | true =>
          rw [if_pos rfl, record] at h
          cases h
          rcases hwhole with htorn | hclear
          · refine .inr ⟨htorn, ?_⟩
            rw [rest_recorded, hdrop]
            exact hskipped
          · exact absurd hclear (recorded_ne_clear _ _)
      | false =>
          rw [if_neg Bool.false_ne_true] at h
          cases h
          rw [hdrop]
          exact .inl hskipped

/-! ### Scalars -/

variable {torn : Prop}

/-- A number ends in front of this: the scanner goes no further. -/
def Closes (platform : Platform) (value : Ast) (rest : Bytes) : Prop :=
  ∀ token, value = .number token →
    ∃ number, parseNumberJson5 platform (token ++ rest) = .ok (number, rest)

/-- A value was read, within the depth limit. -/
structure Found (torn : Prop) (platform : Platform) (cfg : Config) (depth : Nat) (r : Reading)
    (value : Ast) (r' : Reading) : Prop where
  whole : Whole torn r
  nests : Nests cfg depth value
  closes : Closes platform value r'.rest
  tokens : ∃ tokens, Value platform cfg tokens value ∧ Reaches torn tokens r.rest r'.rest

theorem found_token {depth : Nat} {value : Ast} {token : Token} {r' : Reading} (hwhole : Whole torn r)
    (hdepth : DepthFits cfg depth) (hnesting : value.nesting = 0)
    (hcloses : Closes platform value r'.rest) (htoken : Value platform cfg [token] value)
    (hrest : r.rest = token.text ++ r'.rest) :
    Found torn platform cfg depth r value r' where
  whole := hwhole
  nests := by
    rw [Nests, hnesting]
    exact hdepth
  closes := hcloses
  tokens := ⟨[token], htoken, by rw [hrest]; exact reaches_token token r'.rest⟩

theorem found_literal {depth : Nat} (hdepth : DepthFits cfg depth) {value : Ast} {r' : Reading}
    (h : readLiteral cfg r = .ok (value, r')) (hwhole : Whole torn r') :
    Found torn platform cfg depth r value r' := by
  have hstart := Whole.reflects settles_readLiteral.reflects h hwhole
  have hsplit : ∀ {n : Nat} {word : Bytes}, r.rest.take n = word →
      r.rest = word ++ r.rest.drop n := fun h => by rw [← h, List.take_append_drop]
  rw [readLiteral, Prog.bind_get] at h
  cases hliteral : literalHere r with
  | none => rw [hliteral] at h; exact absurd h failHere_ne_ok
  | some found =>
      obtain ⟨value', length⟩ := found
      rw [hliteral] at h
      simp only at h
      rw [advance, Prog.bind_modify, bind_peek] at h
      split at h
      swap
      · exact absurd h failHere_ne_ok
      cases h
      rw [literalHere] at hliteral
      split_ifs at hliteral with htrue hnull hfalse
      · cases hliteral
        exact found_token hstart hdepth (by simp [Ast.nesting]) (fun _ h => by cases h) .boolTrue (hsplit htrue)
      · cases hliteral
        exact found_token hstart hdepth (by simp [Ast.nesting]) (fun _ h => by cases h) .null (hsplit hnull)
      · cases hliteral
        exact found_token hstart hdepth (by simp [Ast.nesting]) (fun _ h => by cases h) .boolFalse (hsplit hfalse)

theorem found_number (hjson5 : cfg.json5 = true) {depth : Nat} (hdepth : DepthFits cfg depth)
    {value : Ast} {r' : Reading} (h : readNumber platform cfg 0 r = .ok (value, r'))
    (hwhole : Whole torn r') : Found torn platform cfg depth r value r' := by
  have hstart := Whole.reflects settles_readNumber.reflects h hwhole
  rw [readNumber, Prog.bind_get, body_zero] at h
  cases hparse : parseNumberToken platform cfg r.rest with
  | error failure => rw [hparse] at h; cases h
  | ok result =>
      obtain ⟨number, rest⟩ := result
      rw [hparse] at h
      simp only at h
      rw [parseNumberToken, if_pos hjson5] at hparse
      obtain ⟨token, htoken, hrest⟩ := numberToken_of_parse hparse
      rw [advanceTo, Prog.bind_modify, body_zero, hrest, between_append] at h
      cases h
      have hdrop : (token ++ rest).drop ((token ++ rest).length - rest.length) = rest := by
        rw [List.length_append, Nat.add_sub_cancel, List.drop_left]
      refine found_token hstart hdepth (by simp [Ast.nesting]) ?_ (.number token htoken) ?_
      · rintro _ ⟨⟩
        simp only [hdrop]
        exact ⟨number, hrest ▸ hparse⟩
      · simp only [hdrop]
        exact hrest

theorem string_text (quote : UInt8) (content rest : Bytes) :
    (Token.string quote content).text ++ rest = quote :: (content ++ quote :: rest) := by
  simp [Token.text]

/-- A string in either kind of quotes. -/
theorem found_string {quote : UInt8} (hquote : Quote quote) (hhere : r.here = quote) {depth : Nat}
    (hdepth : DepthFits cfg depth) {value : Bytes} {r' : Reading}
    (h : readStringJson5 cfg 0 quote r = .ok (value, r')) (hwhole : Whole torn r') :
    Found torn platform cfg depth r (.string value) r' := by
  obtain ⟨content, hcontent, hrest⟩ := yields_readStringJson5 hquote hhere _ _ h
  have hstart := Whole.reflects (settles_readStringJson5 quote).reflects h hwhole
  refine found_token hstart hdepth (by simp [Ast.nesting]) (fun _ h => by cases h)
    (.string quote content value hcontent) ?_
  rw [hrest, string_text]

theorem readString_json5 (hjson5 : cfg.json5 = true) (hhere : r.here = ascii '"') :
    readString cfg 0 r = readStringJson5 cfg 0 (ascii '"') r := by
  rw [readString, Prog.bind_get, atEnd_of_here (by decide) hhere, if_neg Bool.false_ne_true,
    bind_peek, hhere, if_neg (fun h => h rfl), if_pos hjson5]

/-- A key of either kind. -/
theorem found_key (hjson5 : cfg.json5 = true) {key : Bytes} {r' : Reading}
    (h : readKey cfg 0 r = .ok (key, r')) (hwhole : Whole torn r') :
    Whole torn r ∧ ∃ token, MemberName cfg token key ∧ r.rest = token.text ++ r'.rest := by
  refine ⟨Whole.reflects settles_readKey.reflects h hwhole, ?_⟩
  have hquoted : ∀ quote, Quote quote → r.here = quote →
      readStringJson5 cfg 0 quote r = .ok (key, r') →
      ∃ token, MemberName cfg token key ∧ r.rest = token.text ++ r'.rest := by
    intro quote hquote hhere h
    obtain ⟨content, hcontent, hrest⟩ := yields_readStringJson5 hquote hhere _ _ h
    exact ⟨.string quote content, .string quote content key hcontent, by rw [hrest, string_text]⟩
  rw [readKey, Prog.bind_get] at h
  split at h
  · split at h
    · rename_i hhere
      exact hquoted _ (.inr rfl) hhere h
    split at h
    · obtain ⟨text, chars, hname, rfl, hrest⟩ := yields_readIdentifierKey _ _ h
      exact ⟨.name text, .name text chars hname, hrest⟩
    · rename_i hhere
      rw [readString_json5 hjson5 (not_not.mp hhere)] at h
      exact hquoted _ (.inl rfl) (not_not.mp hhere) h
  split at h
  · exact absurd h failHere_ne_ok
  · rename_i hhere
    rw [readString_json5 hjson5 (not_not.mp hhere)] at h
    exact hquoted _ (.inl rfl) (not_not.mp hhere) h

/-! ### Containers -/

/-- An element reader that finds values of the grammar only, behind trivia. -/
def Finds (torn : Prop) (platform : Platform) (cfg : Config) (depth : Nat)
    (element : Prog Reading Ast) : Prop :=
  ∀ {r : Reading} {value : Ast} {r' : Reading}, element r = .ok (value, r') → Whole torn r' →
    Found torn platform cfg depth r value r'

theorem checkDepth_ok {depth : Nat} {result : Unit} {r' : Reading}
    (h : checkDepth cfg depth r = .ok (result, r')) : r' = r ∧ DepthFits cfg (depth + 1) := by
  rw [checkDepth] at h
  split at h
  · exact absurd h failHere_ne_ok
  · rename_i hdepth
    cases h
    rw [DepthFits]
    exact ⟨rfl, by omega⟩

/-- A closing bracket, with the comma in front of it if there is one. -/
theorem closedAfterComma_ok (hjson5 : cfg.json5 = true) {c : UInt8} {closed : Bool} {r' : Reading}
    (h : closedAfterComma skipWhitespace cfg 0 c r = .ok (closed, r')) (hwhole : Whole torn r') :
    Whole torn r ∧ Jumps torn r.rest r'.rest ∧ (closed = true → r'.here = c) := by
  rw [closedAfterComma, if_pos hjson5] at h
  obtain ⟨_, r₁, hskip, hat⟩ := bind_ok h
  obtain rfl := state_of_atByte hat
  obtain ⟨hjumps, hstart⟩ := jumps_of_skipWhitespace hjson5 hskip hwhole
  refine ⟨hstart, hjumps, ?_⟩
  rintro rfl
  exact (here_of_atByte hat).2

theorem reaches_punctuator {c : UInt8} (hc : isTokenByte c = true) {p text rest : Bytes}
    (h : Jumps torn p text) (htext : text = c :: rest) : Reaches torn [.punctuator c] p rest := by
  refine h.reaches ?_ (begins_cons (opens_punctuator hc))
  rw [htext]
  exact reaches_token (.punctuator c) rest

theorem found_elements (hjson5 : cfg.json5 = true) {depth fuel : Nat} {element : Prog Reading Ast}
    (helement : Finds torn platform cfg depth element) {elements all : List Ast} {r' : Reading}
    (h : elementsLoop skipWhitespace cfg 0 element fuel elements r = .ok (all, r')) (hwhole : Whole torn r') :
    Whole torn r ∧ ∃ tokens values, all = elements ++ values ∧ Elements platform cfg tokens values ∧
      Reaches torn (tokens ++ [.punctuator (ascii ']')]) r.rest r'.rest ∧
      ∀ value ∈ values, Nests cfg depth value := by
  induction fuel generalizing elements r with
  | zero => cases h
  | succ fuel ih =>
      rw [elementsLoop] at h
      obtain ⟨value, r₁, hvalue, h⟩ := bind_ok h
      obtain ⟨_, r₂, hskip, h⟩ := bind_ok h
      rw [bind_peek] at h
      split at h
      · rename_i hclose
        obtain ⟨rest, hrest, h⟩ := advance_ok (by decide) hclose h
        cases h
        obtain ⟨hjumps, hwhole₁⟩ := jumps_of_skipWhitespace hjson5 hskip hwhole
        obtain ⟨hstart, hnests, -, tokens, htokens, hreaches⟩ := helement hvalue hwhole₁
        refine ⟨hstart, tokens ++ [], [value], rfl, .last tokens [] value htokens (.inl rfl), ?_, ?_⟩
        · rw [List.append_nil]
          exact hreaches.append (reaches_punctuator (by decide) hjumps hrest)
        · exact List.forall_mem_singleton.mpr hnests
      split at h
      swap
      · exact absurd h failHere_ne_ok
      rename_i hcomma
      obtain ⟨rest, hrest, h⟩ := advance_ok (by decide) hcomma h
      obtain ⟨closed, r₃, hclosed, h⟩ := bind_ok h
      split at h
      · rename_i hdone
        subst hdone
        have hwhole₃ : Whole torn r₃ := by
          rw [advance, Prog.bind_modify] at h
          cases h
          exact hwhole
        obtain ⟨hwhole₂, hjumps', hhere⟩ := closedAfterComma_ok hjson5 hclosed hwhole₃
        obtain ⟨rest', hrest', h⟩ := advance_ok (by decide) (hhere rfl) h
        cases h
        obtain ⟨hjumps, hwhole₁⟩ := jumps_of_skipWhitespace hjson5 hskip hwhole₂
        obtain ⟨hstart, hnests, -, tokens, htokens, hreaches⟩ := helement hvalue hwhole₁
        refine ⟨hstart, tokens ++ [.punctuator (ascii ',')], [value], rfl,
          .last tokens _ value htokens (.inr rfl), ?_, List.forall_mem_singleton.mpr hnests⟩
        rw [List.append_assoc]
        exact hreaches.append ((reaches_punctuator (by decide) hjumps hrest).append
          (reaches_punctuator (by decide) hjumps' hrest'))
      · obtain ⟨hwhole₃, tokens', values, rfl, hvalues, hreaches', hall⟩ := ih h
        obtain ⟨hwhole₂, hjumps', -⟩ := closedAfterComma_ok hjson5 hclosed hwhole₃
        obtain ⟨hjumps, hwhole₁⟩ := jumps_of_skipWhitespace hjson5 hskip hwhole₂
        obtain ⟨hstart, hnests, -, tokens, htokens, hreaches⟩ := helement hvalue hwhole₁
        refine ⟨hstart, tokens ++ .punctuator (ascii ',') :: tokens', value :: values, by simp,
          .more tokens tokens' value values htokens hvalues, ?_, ?_⟩
        · have hmore := hjumps'.reaches hreaches' (hvalues.leading.append _).begins
          have hall := hreaches.append ((reaches_punctuator (by decide) hjumps hrest).append hmore)
          simpa using hall
        · exact List.forall_mem_cons.mpr ⟨hnests, hall⟩

theorem found_array (hjson5 : cfg.json5 = true) {depth : Nat} {element : Nat → Prog Reading Ast}
    (helement : DepthFits cfg (depth + 1) → Finds torn platform cfg (depth + 1) (element (depth + 1)))
    (hopen : r.here = ascii '[') {value : Ast} {r' : Reading}
    (h : readArray skipWhitespace cfg 0 depth element r = .ok (value, r')) (hwhole : Whole torn r') :
    Found torn platform cfg depth r value r' := by
  rw [readArray, Prog.bind_get] at h
  obtain ⟨_, r₁, hcheck, h⟩ := bind_ok h
  obtain ⟨rfl, hdepth⟩ := checkDepth_ok hcheck
  obtain ⟨rest, hrest, h⟩ := advance_ok (by decide) hopen h
  obtain ⟨_, r₂, hskip, h⟩ := bind_ok h
  obtain ⟨empty, r₃, hat, hrun⟩ := bind_ok h
  obtain rfl := state_of_atByte hat
  have hstart : Reaches torn [.punctuator (ascii '[')] r₁.rest rest := by
    rw [hrest]
    exact reaches_token (.punctuator (ascii '[')) rest
  split at hrun
  · rename_i hdone
    subst hdone
    obtain ⟨rest', hrest', hrun⟩ := advance_ok (by decide) (here_of_atByte hat).2 hrun
    cases hrun
    obtain ⟨hjumps, hwhole₁⟩ := jumps_of_skipWhitespace hjson5 hskip hwhole
    refine ⟨hwhole₁, nests_array.mpr ⟨hdepth, by simp⟩, (fun _ h => by cases h), _, .emptyArray, ?_⟩
    exact hstart.append (reaches_punctuator (by decide) hjumps hrest')
  · obtain ⟨elements, r₄, hloop, hrun⟩ := bind_ok hrun
    cases hrun
    obtain ⟨hwhole₃, tokens, values, rfl, hvalues, hreaches, hall⟩ :=
      found_elements hjson5 (helement hdepth) hloop hwhole
    obtain ⟨hjumps, hwhole₁⟩ := jumps_of_skipWhitespace hjson5 hskip hwhole₃
    refine ⟨hwhole₁, nests_array.mpr ⟨hdepth, hall⟩, (fun _ h => by cases h), _, .array tokens _ hvalues, ?_⟩
    exact hstart.append (hjumps.reaches hreaches (hvalues.leading.append _).begins)

/-- A member was read. -/
structure FoundMember (torn : Prop) (platform : Platform) (cfg : Config) (depth : Nat)
    (r : Reading) (member : Bytes × Ast) (r' : Reading) : Prop where
  whole : Whole torn r
  nests : Nests cfg depth member.2
  tokens : ∃ name tokens, MemberName cfg name member.1 ∧ Value platform cfg tokens member.2 ∧
    Reaches torn (name :: .punctuator (ascii ':') :: tokens) r.rest r'.rest

theorem found_member (hjson5 : cfg.json5 = true) {depth : Nat} {element : Prog Reading Ast}
    (helement : Finds torn platform cfg depth element) {members : List (Bytes × Ast)}
    {member : Bytes × Ast} {r' : Reading}
    (h : readMember skipWhitespace cfg 0 element members r = .ok (member, r')) (hwhole : Whole torn r') :
    FoundMember torn platform cfg depth r member r' := by
  rw [readMember] at h
  obtain ⟨_, r₁, hfirst, h⟩ := bind_ok h
  obtain ⟨key, r₂, hkey, h⟩ := bind_ok h
  obtain ⟨_, r₃, hduplicate, hrun⟩ := bind_ok h
  have hsame : r₃ = r₂ := by
    rw [checkDuplicateKey] at hduplicate
    split at hduplicate
    · cases hduplicate
    · cases hduplicate
      rfl
  subst hsame
  obtain ⟨_, r₄, hsecond, hrun⟩ := bind_ok hrun
  rw [bind_peek] at hrun
  split at hrun
  · exact absurd hrun failHere_ne_ok
  rename_i hcolon
  obtain ⟨rest, hrest, hrun⟩ := advance_ok (by decide) (not_not.mp hcolon) hrun
  obtain ⟨value, r₅, hvalue, hrun⟩ := bind_ok hrun
  cases hrun
  obtain ⟨hwhole₄, hnests, -, tokens, htokens, hreaches⟩ := helement hvalue hwhole
  obtain ⟨hjumps, hwhole₂⟩ := jumps_of_skipWhitespace hjson5 hsecond hwhole₄
  obtain ⟨hwhole₁, name, hname, hr₁⟩ := found_key hjson5 hkey hwhole₂
  obtain ⟨hjumps', hstart⟩ := jumps_of_skipWhitespace hjson5 hfirst hwhole₁
  refine ⟨hstart, hnests, name, tokens, hname, htokens, ?_⟩
  have hreachesName : Reaches torn [name] r.rest r₃.rest := by
    refine hjumps'.reaches ?_ (begins_cons hname.leads.toOpens)
    rw [hr₁]
    exact reaches_token name r₃.rest
  exact hreachesName.append ((reaches_punctuator (by decide) hjumps hrest).append hreaches)

theorem found_members (hjson5 : cfg.json5 = true) {depth fuel : Nat} {element : Prog Reading Ast}
    (helement : Finds torn platform cfg depth element) {members all : List (Bytes × Ast)} {r' : Reading}
    (h : membersLoop skipWhitespace cfg 0 element fuel members r = .ok (all, r')) (hwhole : Whole torn r') :
    Whole torn r ∧ ∃ tokens more, all = members ++ more ∧ Members platform cfg tokens more ∧
      Reaches torn (tokens ++ [.punctuator (ascii '}')]) r.rest r'.rest ∧
      ∀ member ∈ more, Nests cfg depth member.2 := by
  induction fuel generalizing members r with
  | zero => cases h
  | succ fuel ih =>
      rw [membersLoop] at h
      obtain ⟨⟨key, value⟩, r₁, hmember, h⟩ := bind_ok h
      obtain ⟨_, r₂, hskip, h⟩ := bind_ok h
      rw [Prog.bind_get] at h
      split at h
      · exact absurd h failHere_ne_ok
      split at h
      · rename_i hclose
        obtain ⟨rest, hrest, h⟩ := advance_ok (by decide) hclose h
        cases h
        obtain ⟨hjumps, hwhole₁⟩ := jumps_of_skipWhitespace hjson5 hskip hwhole
        obtain ⟨hstart, hnests, name, tokens, hname, htokens, hreaches⟩ :=
          found_member hjson5 helement hmember hwhole₁
        refine ⟨hstart, _, [(key, value)], rfl,
          .last name tokens [] key value hname htokens (.inl rfl), ?_, ?_⟩
        · rw [List.append_nil]
          exact hreaches.append (reaches_punctuator (by decide) hjumps hrest)
        · exact List.forall_mem_singleton.mpr hnests
      split at h
      swap
      · exact absurd h failHere_ne_ok
      rename_i hcomma
      obtain ⟨rest, hrest, h⟩ := advance_ok (by decide) hcomma h
      obtain ⟨closed, r₃, hclosed, h⟩ := bind_ok h
      split at h
      · rename_i hdone
        subst hdone
        have hwhole₃ : Whole torn r₃ := by
          rw [advance, Prog.bind_modify] at h
          cases h
          exact hwhole
        obtain ⟨hwhole₂, hjumps', hhere⟩ := closedAfterComma_ok hjson5 hclosed hwhole₃
        obtain ⟨rest', hrest', h⟩ := advance_ok (by decide) (hhere rfl) h
        cases h
        obtain ⟨hjumps, hwhole₁⟩ := jumps_of_skipWhitespace hjson5 hskip hwhole₂
        obtain ⟨hstart, hnests, name, tokens, hname, htokens, hreaches⟩ :=
          found_member hjson5 helement hmember hwhole₁
        refine ⟨hstart, _, [(key, value)], rfl,
          .last name tokens [.punctuator (ascii ',')] key value hname htokens (.inr rfl), ?_,
          List.forall_mem_singleton.mpr hnests⟩
        have hall := hreaches.append
          ((reaches_punctuator (by decide) hjumps hrest).append (reaches_punctuator (by decide) hjumps' hrest'))
        simpa using hall
      · obtain ⟨hwhole₃, tokens', more, rfl, hmore, hreaches', hall⟩ := ih h
        obtain ⟨hwhole₂, hjumps', -⟩ := closedAfterComma_ok hjson5 hclosed hwhole₃
        obtain ⟨hjumps, hwhole₁⟩ := jumps_of_skipWhitespace hjson5 hskip hwhole₂
        obtain ⟨hstart, hnests, name, tokens, hname, htokens, hreaches⟩ :=
          found_member hjson5 helement hmember hwhole₁
        refine ⟨hstart, _, (key, value) :: more, by simp,
          .more name tokens tokens' key value more hname htokens hmore, ?_, ?_⟩
        · have hlast := hjumps'.reaches hreaches' (hmore.leading.append _).begins
          have hall := hreaches.append ((reaches_punctuator (by decide) hjumps hrest).append hlast)
          simpa using hall
        · exact List.forall_mem_cons.mpr ⟨hnests, hall⟩

theorem found_object (hjson5 : cfg.json5 = true) {depth : Nat} {element : Nat → Prog Reading Ast}
    (helement : DepthFits cfg (depth + 1) → Finds torn platform cfg (depth + 1) (element (depth + 1)))
    (hopen : r.here = ascii '{') {value : Ast} {r' : Reading}
    (h : readObject skipWhitespace cfg 0 depth element r = .ok (value, r')) (hwhole : Whole torn r') :
    Found torn platform cfg depth r value r' := by
  rw [readObject, Prog.bind_get] at h
  obtain ⟨_, r₁, hcheck, h⟩ := bind_ok h
  obtain ⟨rfl, hdepth⟩ := checkDepth_ok hcheck
  obtain ⟨rest, hrest, h⟩ := advance_ok (by decide) hopen h
  obtain ⟨_, r₂, hskip, h⟩ := bind_ok h
  rw [bind_peek] at h
  have hstart : Reaches torn [.punctuator (ascii '{')] r₁.rest rest := by
    rw [hrest]
    exact reaches_token (.punctuator (ascii '{')) rest
  split at h
  · rename_i hdone
    obtain ⟨rest', hrest', h⟩ := advance_ok (by decide) hdone h
    cases h
    obtain ⟨hjumps, hwhole₁⟩ := jumps_of_skipWhitespace hjson5 hskip hwhole
    refine ⟨hwhole₁, nests_object.mpr ⟨hdepth, by simp⟩, (fun _ h => by cases h), _, .emptyObject, ?_⟩
    exact hstart.append (reaches_punctuator (by decide) hjumps hrest')
  · obtain ⟨members, r₄, hloop, h⟩ := bind_ok h
    cases h
    obtain ⟨hwhole₃, tokens, more, rfl, hmore, hreaches, hall⟩ :=
      found_members hjson5 (helement hdepth) hloop hwhole
    obtain ⟨hjumps, hwhole₁⟩ := jumps_of_skipWhitespace hjson5 hskip hwhole₃
    refine ⟨hwhole₁, nests_object.mpr ⟨hdepth, hall⟩, (fun _ h => by cases h), _, .object tokens _ hmore, ?_⟩
    exact hstart.append (hjumps.reaches hreaches (hmore.leading.append _).begins)

/-! ### Values and texts -/

theorem found_value (hjson5 : cfg.json5 = true) {depth : Nat} {element : Nat → Prog Reading Ast}
    (helement : DepthFits cfg (depth + 1) → Finds torn platform cfg (depth + 1) (element (depth + 1)))
    (hdepth : DepthFits cfg depth) {unexpected : ErrorCode} {value : Ast} {r' : Reading}
    (h : readValueAt skipWhitespace platform cfg 0 depth element unexpected r.here r = .ok (value, r'))
    (hwhole : Whole torn r') : Found torn platform cfg depth r value r' := by
  rw [readValueAt] at h
  split at h
  · rename_i hobject
    exact found_object hjson5 helement hobject h hwhole
  split at h
  · rename_i harray
    exact found_array hjson5 helement harray h hwhole
  split at h
  · rename_i hquote
    obtain ⟨content, r₁, hstring, h⟩ := bind_ok h
    cases h
    rw [readString_json5 hjson5 hquote] at hstring
    exact found_string (.inl rfl) hquote hdepth hstring hwhole
  split at h
  · exact found_literal hdepth h hwhole
  split at h
  · exact found_number hjson5 hdepth h hwhole
  split at h
  · rename_i hquote
    obtain ⟨content, r₁, hstring, h⟩ := bind_ok h
    cases h
    exact found_string (.inr rfl) hquote.2 hdepth hstring hwhole
  split at h
  · exact found_number hjson5 hdepth h hwhole
  · exact absurd h failHere_ne_ok

theorem finds_readElement (hjson5 : cfg.json5 = true) {fuel depth : Nat}
    (hdepth : DepthFits cfg depth) :
    Finds torn platform cfg depth (readElement skipWhitespace platform cfg 0 fuel depth) := by
  induction fuel generalizing depth with
  | zero =>
      intro r value r' h
      cases h
  | succ fuel ih =>
      intro r value r' h hwhole
      rw [readElement] at h
      obtain ⟨_, r₁, hskip, h⟩ := bind_ok h
      rw [bind_peek] at h
      obtain ⟨hwhole₁, hnests, hcloses, tokens, htokens, hreaches⟩ := found_value hjson5 ih hdepth h hwhole
      obtain ⟨hjumps, hstart⟩ := jumps_of_skipWhitespace hjson5 hskip hwhole₁
      exact ⟨hstart, hnests, hcloses, tokens, htokens, hjumps.reaches hreaches htokens.leading.begins⟩

theorem found_readValue (hjson5 : cfg.json5 = true) {fuel : Nat} {value : Ast} {r' : Reading}
    (h : readValue skipWhitespace platform cfg 0 fuel r = .ok (value, r')) (hwhole : Whole torn r') :
    Found torn platform cfg 0 r value r' := by
  rw [readValue] at h
  obtain ⟨_, r₁, hskip, h⟩ := bind_ok h
  rw [bind_peek, Prog.bind_get] at h
  split at h
  · exact absurd h failHere_ne_ok
  obtain ⟨hwhole₁, hnests, hcloses, tokens, htokens, hreaches⟩ :=
    found_value hjson5 (finds_readElement hjson5) (.inr (Nat.zero_le _)) h hwhole
  obtain ⟨hjumps, hstart⟩ := jumps_of_skipWhitespace hjson5 hskip hwhole₁
  exact ⟨hstart, hnests, hcloses, tokens, htokens, hjumps.reaches hreaches htokens.leading.begins⟩

/-- What is dropped in front of a text is a byte order mark. -/
theorem skipLeadingBom_eq (cfg : Config) (json : Bytes) :
    ∃ bom text, skipLeadingBom cfg 0 { rest := json } = .ok ((), { rest := text }) ∧
      json = bom ++ text ∧ (bom = [] ∨ bom = [0xEF, 0xBB, 0xBF]) := by
  rw [skipLeadingBom, Prog.modify_apply, body_zero]
  split
  · rename_i hbom
    have htake : json.take 3 = [0xEF, 0xBB, 0xBF] := eq_of_beq hbom.2
    refine ⟨_, json.drop 3, rfl, ?_, .inr rfl⟩
    rw [← htake, List.take_append_drop]
  · exact ⟨[], json, rfl, rfl, .inl rfl⟩

/-- An accepted text is a document of the grammar. -/
theorem document_of_readText (hjson5 : cfg.json5 = true) {json : Bytes} {value : Ast}
    (h : readText skipWhitespace platform cfg 0 { rest := json } = .ok (value, r)) :
    Nests cfg 0 value ∧ ∃ tokens, Document tokens json ∧ Value platform cfg tokens value := by
  obtain ⟨bom, text, hstart, hjson, hbom⟩ := skipLeadingBom_eq cfg json
  have htrivia : Trivia bom := by
    rcases hbom with rfl | rfl
    · exact .nil
    · exact trivia_bom
  rw [readText, Prog.bind_get, Prog.bind_of_ok hstart] at h
  obtain ⟨value', r₁, hvalue, h⟩ := bind_ok h
  obtain ⟨_, r₂, hfirst, h⟩ := bind_ok h
  obtain ⟨_, r₃, hskip, h⟩ := bind_ok h
  obtain ⟨_, r₄, hsecond, h⟩ := bind_ok h
  rw [Prog.bind_get] at h
  split at h
  swap
  · exact absurd h failHere_ne_ok
  rename_i hend
  cases h
  obtain ⟨rfl, hclear₁⟩ := failIfRecorded_ok hfirst
  obtain ⟨rfl, hclear₃⟩ := failIfRecorded_ok hsecond
  obtain ⟨-, hnests, -, tokens, htokens, hreaches⟩ :=
    @found_readValue platform cfg _ False hjson5 _ _ _ hvalue (.inr hclear₁)
  obtain ⟨hjumps, -⟩ := @jumps_of_skipWhitespace cfg _ hjson5 False _ _ hskip (.inr hclear₃)
  have hskips := hjumps.resolve_right fun h => h.1
  have hwhole : Skips json text := .inl ⟨bom, htrivia, hjson⟩
  refine ⟨hnests, tokens, ⟨_, reaches_false (hwhole.reaches hreaches htokens.leading.begins), ?_⟩, htokens⟩
  have hnil : r.rest = [] := List.length_eq_zero_iff.mp (Nat.le_zero.mp (of_decide_eq_true hend))
  rcases hskips with ⟨ws, hws, hrest⟩ | ⟨-, hlast⟩
  · rw [hnil, List.append_nil] at hrest
    rw [hrest]
    exact .closed ws hws
  · exact hlast

end PjhJson.Json5
