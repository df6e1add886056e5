import PjhJson.DuplicateKeys
import PjhJson.Json5Spellings

/-! What `parse_copy` accepts in JSON5 mode. Only the tokens of a text matter, not the trivia between
them, and a token may be replaced by another one that denotes the same. -/

namespace PjhJson

namespace Json5

open Grammar Reading

variable {platform : Platform} {cfg : Config}

/-! ### The accepted texts -/

/-- A text has one value. -/
theorem value_unique (hjson5 : cfg.json5 = true) {tokens tokens' : List Token} {json : Bytes}
    {value value' : Ast} (h : Document tokens json) (hvalue : Value platform cfg tokens value)
    (h' : Document tokens' json) (hvalue' : Value platform cfg tokens' value') : value = value' := by
  obtain ⟨lenient, hmode, hkeys, hdepth, hutf8⟩ : ∃ lenient : Config, lenient.json5 = true ∧
      lenient.strictDuplicateKeys = false ∧ lenient.maxDepth = 0 ∧
        lenient.strictUtf8 = cfg.strictUtf8 :=
    ⟨{ cfg with maxDepth := 0, strictDuplicateKeys := false }, hjson5, rfl, rfl, rfl⟩
  have hread := readText_of_document hmode hkeys h (hvalue.config lenient hutf8) (.inl hdepth)
  have hread' := readText_of_document hmode hkeys h' (hvalue'.config lenient hutf8) (.inl hdepth)
  exact (Prod.mk.inj (Res.ok.inj (hread.symm.trans hread'))).1

/-- A value within the depth limit that repeats no key where that is asked for. -/
structure Admitted (cfg : Config) (value : Ast) : Prop where
  nests : Nests cfg 0 value
  distinct : cfg.strictDuplicateKeys = true → value.DistinctKeys

/-- The reading accepts the documents of the grammar whose value is admitted. -/
theorem readText_admitted_iff (hjson5 : cfg.json5 = true) {json : Bytes} {value : Ast} :
    (Admitted cfg value ∧ ∃ tokens, Document tokens json ∧ Value platform cfg tokens value) ↔
      ∃ r, readText skipWhitespace platform cfg 0 { rest := json } = .ok (value, r) := by
  have hlenient := @readText_json5_iff platform (cfg.unique false) hjson5 rfl json value
  rw [readText_unique_iff, hlenient]
  constructor
  · rintro ⟨⟨hnests, hdistinct⟩, tokens, hdocument, hvalue⟩
    exact ⟨⟨hnests, tokens, hdocument, hvalue.config (cfg.unique false) rfl⟩, hdistinct⟩
  · rintro ⟨⟨hnests, tokens, hdocument, hvalue⟩, hdistinct⟩
    exact ⟨⟨hnests, hdistinct⟩, tokens, hdocument, hvalue.config cfg rfl⟩

/-- `parse_copy` in JSON5 mode accepts the documents of the grammar whose value is admitted. -/
theorem parses_json5_iff (hjson5 : cfg.json5 = true) {json : Bytes} {tree : PjhJson.Json Bytes} :
    Parses platform cfg json tree ↔ paddedFits json.length = true ∧ ∃ tokens value,
      Document tokens json ∧ Value platform cfg tokens value ∧ Admitted cfg value ∧
        value.toJson (tokenNumber platform cfg) = tree := by
  rw [parses_iff]
  refine and_congr_right fun _ => ?_
  constructor
  · rintro ⟨value, r, hread, htree⟩
    obtain ⟨hadmitted, tokens, hdocument, hvalue⟩ := (readText_admitted_iff hjson5).mpr ⟨r, hread⟩
    exact ⟨tokens, value, hdocument, hvalue, hadmitted, htree⟩
  · rintro ⟨tokens, value, hdocument, hvalue, hadmitted, htree⟩
    obtain ⟨r, hread⟩ := (readText_admitted_iff hjson5).mp ⟨hadmitted, tokens, hdocument, hvalue⟩
    exact ⟨value, r, hread, htree⟩

/-- What an accepted text says of any tokens that it consists of. -/
theorem admitted_of_parses (hjson5 : cfg.json5 = true) {json : Bytes} {tree : PjhJson.Json Bytes}
    (h : Parses platform cfg json tree) {tokens : List Token} {value : Ast}
    (hdocument : Document tokens json) (hvalue : Value platform cfg tokens value) :
    Admitted cfg value ∧ value.toJson (tokenNumber platform cfg) = tree := by
  obtain ⟨-, tokens', value', hdocument', hvalue', hadmitted, htree⟩ := (parses_json5_iff hjson5).mp h
  rw [value_unique hjson5 hdocument hvalue hdocument' hvalue']
  exact ⟨hadmitted, htree⟩

/-- A text whose tokens were replaced is accepted with the same tree where the tokens denote the same,
and with some tree in any case where distinct keys are not asked for. -/
theorem parses_respell (hjson5 : cfg.json5 = true) {exact : Prop} {R : Token → Token → Prop}
    (hR : Respells exact cfg cfg R) {json json' : Bytes} {tree : PjhJson.Json Bytes}
    (h : Parses platform cfg json tree) {tokens tokens' : List Token} {value : Ast}
    (hdocument : Document tokens json) (hvalue : Value platform cfg tokens value)
    (htokens : List.Forall₂ R tokens' tokens) (hdocument' : Document tokens' json')
    (hfits : paddedFits json'.length = true) :
    (exact → Parses platform cfg json' tree) ∧
      (cfg.strictDuplicateKeys = false → ∃ tree', Parses platform cfg json' tree') := by
  obtain ⟨⟨hnests, hdistinct⟩, htree⟩ := admitted_of_parses hjson5 h hdocument hvalue
  obtain ⟨value', hvalue', hnesting, hsame⟩ := hvalue.respell hR htokens
  have hnests' : Nests cfg 0 value' := by
    rw [Nests, hnesting]
    exact hnests
  constructor
  · intro hexact
    obtain rfl := hsame hexact
    exact (parses_json5_iff hjson5).mpr
      ⟨hfits, tokens', value', hdocument', hvalue', ⟨hnests', hdistinct⟩, htree⟩
  · intro hlenient
    have hadmitted : Admitted cfg value' :=
      ⟨hnests', fun hstrict => absurd (hlenient.symm.trans hstrict) Bool.false_ne_true⟩
    exact ⟨_, (parses_json5_iff hjson5).mpr
      ⟨hfits, tokens', value', hdocument', hvalue', hadmitted, rfl⟩⟩

theorem hexDigit_unique {c : UInt8} {n n' : Nat} (h : Rfc.HexDigit c n) (h' : Rfc.HexDigit c n') :
    n = n' := Option.some.inj ((hexValue_iff.mpr h).symm.trans (hexValue_iff.mpr h'))

/-- The two escapes denote the same ASCII character. -/
theorem respells_unitForHex {quote hi lo : UInt8} {content content' : Bytes}
    (h : UnitForHex quote hi lo content content') {n m : Nat} (hhi : Rfc.HexDigit hi n)
    (hlo : Rfc.HexDigit lo m) : Respells (n * 16 + m < 0x80) cfg cfg fun new old =>
      new = old ∨ new = .string quote content' ∧ old = .string quote content where
  punctuator h := by simpa using h
  word h := by simpa using h
  number h := by simpa using h
  name htoken hname := by
    obtain rfl := htoken.resolve_right (by simp)
    exact .name _ _ hname
  string := by
    rintro token quote' spelling value (rfl | ⟨rfl, hold⟩) hstring
    · exact ⟨quote', spelling, value, rfl, hstring, fun _ => rfl⟩
    · obtain ⟨rfl, rfl⟩ := Token.string.inj hold
      obtain ⟨hquote, marks, hcontent, hpasses⟩ := hstring
      obtain ⟨n', m', front, back, hhi', hlo', rfl, hnew⟩ := h.characters hcontent
      obtain rfl := hexDigit_unique hhi hhi'
      obtain rfl := hexDigit_unique hlo hlo'
      refine ⟨_, _, _, rfl, ⟨hquote, marks, hnew, hpasses⟩, fun hascii => ?_⟩
      have hnat := toNat_hexByte hhi hlo
      rw [encode_ascii (by omega), hnat, List.singleton_append]

end Json5

/-- In JSON5 mode an accepted text consists of the tokens of a value, and whatever its tokens are, a
text with the same tokens and any other trivia around them is accepted with the same tree. -/
theorem parseCopy_trivia {platform : Platform} {cfg : Config} (hjson5 : cfg.json5 = true)
    {json : Bytes} {tree : Json Bytes} (h : Parses platform cfg json tree) :
    (∃ tokens value, Json5.Document tokens json ∧ Json5.Value platform cfg tokens value) ∧
      ∀ tokens value, Json5.Document tokens json → Json5.Value platform cfg tokens value →
        ∀ json', Json5.Document tokens json' → paddedFits json'.length = true →
          Parses platform cfg json' tree := by
  constructor
  · obtain ⟨-, tokens, value, hdocument, hvalue, -⟩ := (Json5.parses_json5_iff hjson5).mp h
    exact ⟨tokens, value, hdocument, hvalue⟩
  · intro tokens value hdocument hvalue json' hdocument' hfits
    obtain ⟨hadmitted, htree⟩ := Json5.admitted_of_parses hjson5 h hdocument hvalue
    exact (Json5.parses_json5_iff hjson5).mpr ⟨hfits, tokens, value, hdocument', hvalue, hadmitted, htree⟩

/-- `[true]` with a comment in front of the literal and one behind the last token. -/
theorem parseCopy_trivia_true :
    Parses halfPlatform { json5 := true } (asciiBytes "[true]") (.array [.boolean true]) ∧
      Parses halfPlatform { json5 := true } (asciiBytes "[/**/true]//") (.array [.boolean true]) := by
  have hparses : Parses halfPlatform { json5 := true } (asciiBytes "[true]")
      (.array [.boolean true]) :=
    parses_iff.mpr ⟨by decide, .array [.boolean true], _, rfl, rfl⟩
  have hvalue : Json5.Value halfPlatform { json5 := true } _ (.array [.boolean true]) :=
    .array _ _ (.last _ [] _ .boolTrue (.inl rfl))
  have hlays : Json5.Lays [.word (asciiBytes "true"), .punctuator (ascii ']')] (asciiBytes "true]") [] :=
    .cons _ _ [] _ [] .nil (Json5.lays_token _ [])
  refine ⟨hparses, (parseCopy_trivia rfl hparses).2 _ _ ⟨[], ?_, .closed [] .nil⟩ hvalue _ ?_
    (by decide)⟩
  · exact .cons _ _ [] _ [] .nil hlays
  · refine ⟨asciiBytes "//", ?_, .comment [] [] .nil Json5.singleLine_nil⟩
    refine .cons _ _ [] (asciiBytes "/**/true]//") _ .nil ?_
    refine .cons (.word (asciiBytes "true")) _ (asciiBytes "/**/") (asciiBytes "]//") _ ?_ ?_
    · exact .cons (asciiBytes "/**/") [] (.blockComment [] (by decide)) .nil
    · exact Json5.lays_token (.punctuator (ascii ']')) _

/-- In JSON5 mode a text stays accepted when the escape `\xHH` of one of its strings is spelled
`\u00HH`, where distinct keys are not asked for, and its tree stays the same where that is an ASCII
character: `\xHH` denotes the byte `HH`, and `\u00HH` the encoding of the character. -/
theorem parseCopy_unitForHex {platform : Platform} {cfg : Config} (hjson5 : cfg.json5 = true)
    {json : Bytes} {tree : Json Bytes} (h : Parses platform cfg json tree)
    {before after : List Json5.Token} {quote : UInt8} {content content' : Bytes} {value : Ast}
    (hdocument : Json5.Document (before ++ .string quote content :: after) json)
    (hvalue : Json5.Value platform cfg (before ++ .string quote content :: after) value)
    {hi lo : UInt8} {n m : Nat} (hhi : Rfc.HexDigit hi n) (hlo : Rfc.HexDigit lo m)
    (hescape : Json5.UnitForHex quote hi lo content content') :
    ∀ json', Json5.Document (before ++ .string quote content' :: after) json' →
      paddedFits json'.length = true →
      (n * 16 + m < 0x80 → Parses platform cfg json' tree) ∧
        (cfg.strictDuplicateKeys = false → ∃ tree', Parses platform cfg json' tree') := by
  intro json' hdocument' hfits
  exact Json5.parses_respell hjson5 (Json5.respells_unitForHex hescape hhi hlo) h hdocument hvalue
    Json5.forall₂_one hdocument' hfits

theorem document_oneString (quote : UInt8) (content : Bytes) :
    Json5.Document [.string quote content] (quote :: (content ++ [quote])) := by
  have hlays := Json5.lays_token (.string quote content) []
  rw [List.append_nil] at hlays
  exact ⟨[], hlays, .closed [] .nil⟩

/-- A text of one string. -/
theorem parses_oneString {platform : Platform} {cfg : Config} (hjson5 : cfg.json5 = true)
    {quote : UInt8} {content value : Bytes} (h : Json5.StringToken cfg quote content value)
    (hfits : paddedFits (content.length + 2) = true) :
    Parses platform cfg (quote :: (content ++ [quote])) (.string value) := by
  refine (Json5.parses_json5_iff hjson5).mpr ⟨?_, _, .string value, document_oneString _ _,
    .string quote content value h, ⟨.inr (Nat.zero_le _), fun _ => .string value⟩, rfl⟩
  simpa using hfits

/-- `\x41` becomes `\u0041`. -/
theorem parseCopy_unitForHex_letter : Parses halfPlatform { json5 := true }
    (ascii '"' :: (asciiBytes "\\u0041" ++ [ascii '"'])) (.string [0x41]) := by
  have hhi : Rfc.HexDigit (ascii '4') 4 := .digit _ (by decide) (by decide)
  have hlo : Rfc.HexDigit (ascii '1') 1 := .digit _ (by decide) (by decide)
  have hcontent : Json5.Characters (ascii '"') (asciiBytes "\\x41") [0x41] [ascii '\\'] :=
    .escape (asciiBytes "\\x41") [0x41] [] [] [] (.hexByte _ _ 4 1 hhi hlo) .nil
  have hstring : Json5.StringToken { json5 := true } (ascii '"') (asciiBytes "\\x41") [0x41] :=
    ⟨.inl rfl, _, hcontent, fun h => absurd h (by decide)⟩
  exact (@parseCopy_unitForHex halfPlatform { json5 := true } rfl _ _
    (parses_oneString rfl hstring (by decide)) [] [] _ _ _ _ (document_oneString _ _)
    (.string _ _ _ hstring) _ _ 4 1 hhi hlo (.here []) _ (document_oneString _ _) (by decide)).1
    (by decide)

theorem hexDigit_upperF : Rfc.HexDigit (ascii 'F') 15 := .upper _ (by decide) (by decide)

theorem characters_hexLast :
    Json5.Characters (ascii '"') (asciiBytes "\\xFF") [0xFF] [ascii '\\'] :=
  .escape (asciiBytes "\\xFF") [0xFF] [] [] []
    (.hexByte _ _ 15 15 hexDigit_upperF hexDigit_upperF) .nil

/-- Above ASCII the trees differ: a byte on one side, an encoding of two bytes on the other. -/
theorem parseCopy_unitForHex_last :
    Json5.UnitForHex (ascii '"') (ascii 'F') (ascii 'F') (asciiBytes "\\xFF") (asciiBytes "\\u00FF") ∧
      Parses halfPlatform { json5 := true } (asciiBytes "\"\\xFF\"") (.string [0xFF]) ∧
      Parses halfPlatform { json5 := true } (asciiBytes "\"\\u00FF\"") (.string [0xC3, 0xBF]) ∧
      ¬Parses halfPlatform { json5 := true } (asciiBytes "\"\\u00FF\"") (.string [0xFF]) := by
  have hzero : Rfc.HexDigit (ascii '0') 0 := .digit _ (by decide) (by decide)
  have hcode : Rfc.CodeUnit (asciiBytes "00FF") 'ÿ'.toNat :=
    .mk _ _ _ _ 0 0 15 15 hzero hzero hexDigit_upperF hexDigit_upperF
  have hcontent : Json5.Characters (ascii '"') (asciiBytes "\\u00FF") [0xC3, 0xBF] [ascii '\\'] :=
    .escape (asciiBytes "\\u00FF") [0xC3, 0xBF] [] [] []
      (.unicode _ 'ÿ' (.unit (asciiBytes "00FF") 'ÿ' hcode)) .nil
  have hunit : Parses halfPlatform { json5 := true } (asciiBytes "\"\\u00FF\"")
      (.string [0xC3, 0xBF]) :=
    @parses_oneString _ { json5 := true } rfl _ (asciiBytes "\\u00FF") _
      ⟨.inl rfl, _, hcontent, fun h => absurd h (by decide)⟩ (by decide)
  have hhex : Parses halfPlatform { json5 := true } (asciiBytes "\"\\xFF\"") (.string [0xFF]) :=
    @parses_oneString _ { json5 := true } rfl _ (asciiBytes "\\xFF") _
      ⟨.inl rfl, _, characters_hexLast, fun h => absurd h (by decide)⟩ (by decide)
  refine ⟨.here [], hhex, hunit, ?_⟩
  rintro ⟨document, hparse, htree⟩
  obtain ⟨document', hparse', htree'⟩ := hunit
  rw [hparse, Res.ok.injEq] at hparse'
  rw [← hparse', htree] at htree'
  cases htree'

/-- The tokens of an object of one member, which is `true`, within an array. -/
def oneMember (name : Json5.Token) : List Json5.Token :=
  [.punctuator (ascii '['), .punctuator (ascii '\x7b'), name, .punctuator (ascii ':'),
    .word (asciiBytes "true"), .punctuator (ascii '\x7d'), .punctuator (ascii ']')]

end PjhJson
