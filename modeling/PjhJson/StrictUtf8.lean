import PjhJson.ContractCopy
import PjhJson.GatedReading

/-! The strict UTF-8 gate on RFC 8259 texts: what it accepts, and the error that it reports. -/

namespace PjhJson

open Utf8 Grammar

namespace Reading

variable {platform : Platform} {cfg : Config} {tail : Nat} {r : Reading}

/-! ### Strings -/

@[simp] theorem gate_strictUtf8 (cfg : Config) (strictUtf8 : Bool) :
    (cfg.gate strictUtf8).strictUtf8 = strictUtf8 := rfl

/-- What the strict run makes of a successful lenient run over the rest of a string, which is closed.
`fed` is the beginning of its content that was checked before. -/
def StringGated (fed : Bytes) (left : Nat) (r : Reading) (value : Bytes) (r' : Reading)
    (strict : Res Reading (Bytes × Reading)) : Prop :=
  ∃ content, r.rest = content ++ ascii '"' :: r'.rest ∧
    ((WellFormed (fed ++ content) ∧ strict = .ok (value, r')) ∨
      ∃ code pos r'', Violation (fed ++ content) code pos ∧ strict = .error r'' ∧
        r''.failure = some { code, left := some (left - pos) })

@[simp] theorem gate_json5 (cfg : Config) (strictUtf8 : Bool) :
    (cfg.gate strictUtf8).json5 = cfg.json5 := rfl

theorem checkUtf8_error {left : Nat} {ck : Utf8Checker} (h : ck.failed = true)
    (hr : r.failure = none) : ∃ r', checkUtf8 left ck r = .error r' ∧
      r'.failure = some { code := ck.code, left := some (left - ck.err) } := by
  rw [checkUtf8, h]
  refine ⟨_, rfl, ?_⟩
  simp [hr]

theorem failure_of_decodeEscape {text : Reading → Bytes}
    {decoder : Bytes → Res EscapeError (Bytes × Bytes)} {written : Bytes} {r' : Reading}
    (h : decodeEscape text decoder r = .ok (written, r')) : r'.failure = r.failure := by
  simp only [decodeEscape, Prog.bind_get] at h
  cases hdecode : decoder (text r) with
  | stuck => rw [hdecode] at h; cases h
  | error failure =>
      obtain ⟨code, anchor⟩ := failure
      rw [hdecode] at h
      cases anchor <;> cases h
  | ok result =>
      rw [hdecode] at h
      cases h
      rfl

/-- One character of the lenient loop, which does not look at the machine. -/
def decodeStep (cfg : Config) (left fuel : Nat) (decoded : Bytes) (ck : Utf8Checker) (c : UInt8) :
    Prog Reading Bytes :=
  if c = ascii '\\' then do
    let written ← decodeEscape Reading.rest readEscape
    decodeLoop cfg left fuel (decoded ++ written) ck
  else if c < 0x20 then failHere .unescapedControl
  else do
    advance 1
    decodeLoop cfg left fuel (decoded ++ [c]) ck

/-- A character that the lenient loop takes: the byte at the cursor, and the rest of an escape, which
is ASCII. -/
theorem decodeStep_spec {left fuel : Nat} {decoded value : Bytes} {r' : Reading}
    (h : decodeStep (cfg.gate false) left fuel decoded {} r.here r = .ok (value, r')) :
    0x20 ≤ r.here ∧ ∃ more written r₁, r.rest = r.here :: (more ++ r₁.rest) ∧
      r₁.failure = r.failure ∧ (more = [] ∨ r.here ≤ 0x7F ∧ ∀ c ∈ more, c ≤ 0x7F) ∧
      ∀ strictUtf8 ck, decodeStep (cfg.gate strictUtf8) left fuel decoded ck r.here r =
        decodeLoop (cfg.gate strictUtf8) left fuel (decoded ++ written) ck r₁ := by
  rw [decodeStep] at h
  split at h
  · rename_i hescape
    rw [Prog.bind_apply, Res.bind_eq_ok] at h
    obtain ⟨⟨written, r₁⟩, hdecode, -⟩ := h
    obtain ⟨spelling, hcharacter, hrest⟩ := yields_decodeEscape hescape written r₁ hdecode
    have hfailure := failure_of_decodeEscape hdecode
    refine ⟨by rw [hescape]; decide, ?_⟩
    rcases hcharacter.spelled with ⟨c, rfl, -, -, -, hne⟩ | ⟨more, rfl, hmore, -, -⟩
    · rw [here, hrest] at hescape
      exact absurd hescape hne
    · refine ⟨more, written, r₁, ?_, hfailure, .inr ⟨by rw [hescape]; decide, hmore⟩, fun b ck => ?_⟩
      · rw [hescape, hrest, List.cons_append]
      · rw [decodeStep, if_pos hescape, Prog.bind_of_ok hdecode]
  · rename_i hescape
    split at h
    · cases h
    · rename_i hcontrol
      have hplain : 0x20 ≤ r.here := UInt8.not_lt.mp hcontrol
      have hne : r.here ≠ 0 := by
        intro hzero
        rw [hzero] at hplain
        exact absurd hplain (by decide)
      obtain ⟨rest, hrest⟩ := here_cons hne rfl
      refine ⟨hplain, [], [r.here], { r with rest }, hrest, rfl, .inl rfl, fun b ck => ?_⟩
      rw [decodeStep, if_neg hescape, if_neg hcontrol, advance, Prog.bind_modify, hrest]
      rfl

/-- Where the machine is after a character: an escape is ASCII and goes unchecked behind its
backslash. -/
theorem fed_character {fed more : Bytes} {ck : Utf8Checker} {b : UInt8} (hfed : Fed ck (fed ++ [b]))
    (hascii : more = [] ∨ b ≤ 0x7F ∧ ∀ c ∈ more, c ≤ 0x7F) : Fed ck (fed ++ b :: more) := by
  rcases hascii with rfl | ⟨hb, hmore⟩
  · exact hfed
  · obtain ⟨hneed, hwell⟩ := hfed.ascii hb
    rw [List.append_cons]
    exact .whole hfed.not_failed hneed (hwell.append (wellFormed_ascii hmore))

theorem failure_of_decodeLoop {left fuel : Nat} {decoded value : Bytes} {r' : Reading}
    (h : decodeLoop (cfg.gate false) left fuel decoded {} r = .ok (value, r')) :
    r'.failure = r.failure := by
  induction fuel generalizing r decoded with
  | zero => cases h
  | succ fuel ih =>
      rw [decodeLoop, bind_peek] at h
      by_cases hquote : r.here = ascii '"'
      · rw [if_pos hquote, gate_strictUtf8, if_neg Bool.false_ne_true,
          Prog.bind_of_ok (checkUtf8_ok rfl r)] at h
        cases h
        rfl
      · rw [if_neg hquote, Prog.bind_get, gate_strictUtf8, if_neg Bool.false_ne_true,
          Prog.bind_of_ok (checkUtf8_ok rfl r)] at h
        obtain ⟨-, more, written, r₁, -, hfailure, -, hgoes⟩ := decodeStep_spec h
        exact (ih ((hgoes false {}).symm.trans h)).trans hfailure

/-- The rest of a string from its first escape on. -/
theorem decodeLoop_gated {left fuel : Nat} {decoded value fed : Bytes} {ck : Utf8Checker}
    {r' : Reading} (hfed : Fed ck fed) (hleft : left = fed.length + r.rest.length)
    (hr : r.failure = none)
    (h : decodeLoop (cfg.gate false) left fuel decoded {} r = .ok (value, r')) :
    StringGated fed left r value r' (decodeLoop (cfg.gate true) left fuel decoded ck r) := by
  induction fuel generalizing r decoded ck fed with
  | zero => cases h
  | succ fuel ih =>
      rw [decodeLoop, bind_peek] at h ⊢
      by_cases hquote : r.here = ascii '"'
      · obtain ⟨rest, hrest⟩ := here_cons (by decide) hquote
        rw [if_pos hquote, gate_strictUtf8] at h ⊢
        rw [if_neg Bool.false_ne_true, Prog.bind_of_ok (checkUtf8_ok rfl r)] at h
        have hend : decoded = value ∧ { r with rest := r.rest.drop 1 } = r' :=
          Prod.mk.inj (Res.ok.inj h)
        rw [if_pos rfl]
        refine ⟨[], ?_, ?_⟩
        · rw [← hend.2, hrest]
          rfl
        · rw [List.append_nil]
          rcases finish_step hfed with ⟨hsame, hwell⟩ | ⟨hfailed, hviolation⟩
          · rw [hsame, Prog.bind_of_ok (checkUtf8_ok hfed.not_failed r)]
            exact .inl ⟨hwell, h⟩
          · obtain ⟨r'', herror, hfailure⟩ := checkUtf8_error hfailed hr
            exact .inr ⟨_, _, r'', hviolation, Prog.bind_of_error herror _, hfailure⟩
      · rw [if_neg hquote, Prog.bind_get, gate_strictUtf8] at h ⊢
        rw [if_neg Bool.false_ne_true, Prog.bind_of_ok (checkUtf8_ok rfl r)] at h
        obtain ⟨hplain, more, written, r₁, hrest, hfailure, hascii, hgoes⟩ :=
          decodeStep_spec h
        have hlenient : decodeLoop (cfg.gate false) left fuel (decoded ++ written) {} r₁ =
            .ok (value, r') := (hgoes false {}).symm.trans h
        have hpos : left - r.rest.length = fed.length := by omega
        have hcontinued : ∀ {content : Bytes}, r₁.rest = content ++ ascii '"' :: r'.rest →
            r.rest = r.here :: (more ++ content) ++ ascii '"' :: r'.rest := fun hcontent => by
          rw [hrest, hcontent, List.cons_append, List.append_assoc]
        rw [if_pos rfl, hpos]
        rcases feed_step hfed (.inr hplain) with hfed' | ⟨hfailed, hviolation⟩
        · rw [Prog.bind_of_ok (checkUtf8_ok hfed'.not_failed r)]
          have hleft' : left = (fed ++ r.here :: more).length + r₁.rest.length := by
            rw [hleft, hrest, List.length_append, List.length_cons, List.length_cons,
              List.length_append]
            omega
          obtain ⟨content, hcontent, hresult⟩ :=
            ih (fed_character hfed' hascii) hleft' (hfailure.trans hr) hlenient
          refine ⟨r.here :: (more ++ content), hcontinued hcontent, ?_⟩
          rw [List.append_assoc, List.cons_append, ← hgoes true] at hresult
          exact hresult
        · obtain ⟨content, -, -, -, hcontent⟩ := yields_decodeLoop value r' hlenient
          obtain ⟨r'', herror, hfailure'⟩ := checkUtf8_error hfailed hr
          exact ⟨r.here :: (more ++ content), hcontinued hcontent,
            .inr ⟨_, _, r'', hviolation _, Prog.bind_of_error herror _, hfailure'⟩⟩

theorem failure_of_readStringBody {value : Bytes} {r' : Reading}
    (h : readStringBody (cfg.gate false) tail r = .ok (value, r')) : r'.failure = r.failure := by
  rw [readStringBody, Prog.bind_get] at h
  simp only [advance, Prog.bind_modify] at h
  rw [bind_peek, gate_strictUtf8, if_neg Bool.false_ne_true, if_neg Bool.false_ne_true] at h
  split at h
  · rw [Prog.bind_of_ok (checkUtf8_ok rfl _)] at h
    cases h
    rfl
  split at h
  · rw [Prog.bind_of_ok (checkUtf8_ok rfl _)] at h
    exact (failure_of_decodeLoop h).trans rfl
  · rw [Prog.bind_get] at h
    split at h
    · cases h
    · cases h

/-- The content of a string and its closing quote. -/
theorem readStringBody_gated {value : Bytes} {r' : Reading} (hr : r.failure = none)
    (h : readStringBody (cfg.gate false) tail r = .ok (value, r')) :
    StringGated [] r.rest.length r value r' (readStringBody (cfg.gate true) tail r) := by
  obtain ⟨plain, hplain⟩ : ∃ plain, plain = r.rest.takeWhile fun c => !isStringStop c := ⟨_, rfl⟩
  have hsplit : r.rest = plain ++ r.rest.drop plain.length := by
    rw [hplain]
    exact (List.prefix_iff_eq_append.mp (List.takeWhile_prefix _)).symm
  have hcontrol : ∀ c ∈ plain, 0x20 ≤ c := by
    intro c hmem
    have hc := List.mem_takeWhile_imp (p := fun c => !isStringStop c) (hplain ▸ hmem)
    simp only [isStringStop, Bool.not_eq_true', Bool.or_eq_false_iff, decide_eq_false_iff_not] at hc
    exact UInt8.not_lt.mp hc.2
  have hfed := feedRange_steps fed_start hcontrol
  rw [List.length_nil, List.nil_append] at hfed
  obtain ⟨ck, hck⟩ : ∃ ck, ck = ({} : Utf8Checker).feedRange plain 0 := ⟨_, rfl⟩
  rw [← hck] at hfed
  obtain ⟨r₁, hr₁⟩ : ∃ r₁ : Reading, r₁ = { r with rest := r.rest.drop plain.length } := ⟨_, rfl⟩
  have hfailure : r₁.failure = none := by
    rw [hr₁]
    exact hr
  have hrest : r.rest = plain ++ r₁.rest := by
    rw [hr₁]
    exact hsplit
  rw [readStringBody, Prog.bind_get] at h ⊢
  simp only [← hplain] at h ⊢
  rw [advance, Prog.bind_modify, ← hr₁, bind_peek, gate_strictUtf8] at h ⊢
  by_cases hquote : r₁.here = ascii '"'
  · obtain ⟨rest, hcons⟩ := here_cons (by decide) hquote
    rw [if_pos hquote] at h ⊢
    rw [if_neg Bool.false_ne_true, Prog.bind_of_ok (checkUtf8_ok rfl _)] at h
    have hend : plain = value ∧ { r₁ with rest := r₁.rest.drop 1 } = r' :=
      Prod.mk.inj (Res.ok.inj h)
    refine ⟨plain, ?_, ?_⟩
    · rw [hrest, ← hend.2, hcons]
      rfl
    rw [if_pos rfl, checkUtf8Strict, ← hck, List.nil_append]
    rcases hfed with hfed | ⟨hfailed, hviolation⟩
    · rcases finish_step hfed with ⟨hsame, hwell⟩ | ⟨hfailed, hviolation⟩
      · rw [hsame, Prog.bind_of_ok (checkUtf8_ok hfed.not_failed _)]
        exact .inl ⟨hwell, h⟩
      · obtain ⟨r'', herror, hfailure'⟩ := @checkUtf8_error r₁ r.rest.length _ hfailed hfailure
        exact .inr ⟨_, _, r'', hviolation, Prog.bind_of_error herror _, hfailure'⟩
    · obtain ⟨r'', herror, hfailure'⟩ := @checkUtf8_error r₁ r.rest.length _ hfailed hfailure
      rw [finish_failed hfailed, ← List.append_nil plain]
      exact .inr ⟨_, _, r'', hviolation [], Prog.bind_of_error herror _, hfailure'⟩
  rw [if_neg hquote] at h ⊢
  by_cases hescape : r₁.here = ascii '\\'
  · rw [if_pos hescape] at h ⊢
    rw [if_neg Bool.false_ne_true, Prog.bind_of_ok (checkUtf8_ok rfl _)] at h
    rw [if_pos rfl, ← hck]
    rcases hfed with hfed | ⟨hfailed, hviolation⟩
    · rw [Prog.bind_of_ok (checkUtf8_ok hfed.not_failed _)]
      have hleft : r.rest.length = plain.length + r₁.rest.length := by
        rw [hrest, List.length_append]
      obtain ⟨content, hcontent, hresult⟩ := decodeLoop_gated hfed hleft hfailure h
      exact ⟨plain ++ content, by rw [hrest, hcontent, List.append_assoc], hresult⟩
    · obtain ⟨content, -, -, -, hcontent⟩ := yields_decodeLoop value r' h
      obtain ⟨r'', herror, hfailure'⟩ := @checkUtf8_error r₁ r.rest.length _ hfailed hfailure
      exact ⟨plain ++ content, by rw [hrest, hcontent, List.append_assoc],
        .inr ⟨_, _, r'', hviolation content, Prog.bind_of_error herror _, hfailure'⟩⟩
  · rw [if_neg hescape, Prog.bind_get] at h
    split at h
    · cases h
    · cases h

/-! ### The strings of an RFC 8259 text -/

theorem number_quotes (parts : Rfc.NumberParts) : ∀ c ∈ parts.text, c ≠ ascii '"' := by
  have hdigit : ∀ {c : UInt8}, Rfc.Digit c → c ≠ ascii '"' := by
    rintro _ ⟨h, -⟩ rfl
    exact absurd h (by decide)
  rw [Rfc.NumberParts.text]
  refine List.forall_mem_append.mpr ⟨?_, List.forall_mem_append.mpr
    ⟨fun c hmem => hdigit (parts.isInteger.1.2 c hmem), List.forall_mem_append.mpr ⟨?_, ?_⟩⟩⟩
  · rcases parts.minus_or with hminus | hminus
    · rw [hminus]
      exact fun _ hmem => absurd hmem List.not_mem_nil
    · rw [hminus]
      exact List.forall_mem_singleton.mpr (by decide)
  · obtain ⟨fraction, hfraction⟩ : ∃ fraction, fraction = parts.fraction := ⟨_, rfl⟩
    rw [← hfraction]
    cases hfraction ▸ parts.isFraction with
    | none => exact fun _ hmem => absurd hmem List.not_mem_nil
    | some digits hdigits =>
        exact List.forall_mem_cons.mpr ⟨by decide, fun c hmem => hdigit (hdigits.2 c hmem)⟩
  · obtain ⟨exponent, hexponent⟩ : ∃ exponent, exponent = parts.exponent := ⟨_, rfl⟩
    rw [← hexponent]
    cases hexponent ▸ parts.isExponent with
    | none => exact fun _ hmem => absurd hmem List.not_mem_nil
    | some e sign digits he hsign hdigits =>
        refine List.forall_mem_cons.mpr ⟨?_, List.forall_mem_append.mpr
          ⟨?_, fun c hmem => hdigit (hdigits.2 c hmem)⟩⟩
        · rcases he with rfl | rfl <;> decide
        · rcases hsign with rfl | rfl | rfl
          · exact fun _ hmem => absurd hmem List.not_mem_nil
          · exact List.forall_mem_singleton.mpr (by decide)
          · exact List.forall_mem_singleton.mpr (by decide)

theorem readString_gated (hjson5 : cfg.json5 = false) (r : Reading) :
    Gated stringContents (fun _ => True) WellFormed r (readString (cfg.gate false) tail r)
      (readString (cfg.gate true) tail r) := by
  rw [readString, readString]
  refine gated_get (gated_ite (fun _ => gated_failHere) fun _ => gated_peek ?_)
  refine gated_ite (fun _ => gated_failHere) fun hquote => ?_
  rw [show (cfg.gate false).json5 = false from hjson5, show (cfg.gate true).json5 = false from hjson5,
    if_neg Bool.false_ne_true, if_neg Bool.false_ne_true]
  obtain ⟨rest, hrest⟩ := here_cons (by decide) (not_not.mp hquote)
  rw [advance, Prog.bind_modify, Prog.bind_modify]
  obtain ⟨r₁, hr₁⟩ : ∃ r₁ : Reading, r₁ = { r with rest := r.rest.drop 1 } := ⟨_, rfl⟩
  have hcursor : r₁.rest = rest := by
    rw [hr₁, hrest]
    rfl
  rw [← hr₁]
  intro value r' hlenient hr'
  have hfailure : r₁.failure = none := (failure_of_readStringBody hlenient).symm.trans hr'
  obtain ⟨content, hcharacters, hclosed⟩ := yields_readStringBody value r' hlenient
  obtain ⟨content', hclosed', hresult⟩ := readStringBody_gated hfailure hlenient
  obtain rfl : content = content' := List.append_cancel_right (hclosed.symm.trans hclosed')
  rw [List.nil_append] at hresult
  have hstring : stringContents r.rest =
      [(r₁.rest.length, content)] ++ stringContents r'.rest := by
    rw [hrest, ← hcursor, hclosed, stringContents_quote (contentOf_characters hcharacters r'.rest),
      List.length_append, List.length_cons, List.singleton_append]
    congr 2
    omega
  refine ⟨by rw [hr₁] at hfailure; exact hfailure, _, hstring, fun _ => ?_⟩
  rcases hresult with ⟨hwell, hstrict⟩ | ⟨code, pos, r'', hviolation, hstrict, hfailed⟩
  · exact .inl ⟨List.forall_mem_singleton.mpr hwell, wellFormed_characters hcharacters [] hwell,
      hstrict⟩
  · exact .inr ⟨_, r'', ⟨[], _, content, [], code, pos, rfl, fun _ hmem => absurd hmem List.not_mem_nil,
      hviolation, rfl⟩, hstrict, hfailed⟩

theorem readNumber_spec {value : Ast} {r' : Reading}
    (h : readNumber platform cfg tail r = .ok (value, r')) :
    r'.failure = r.failure ∧ ∀ clean, value.Clean clean := by
  rw [readNumber, Prog.bind_get] at h
  cases hparse : parseNumberToken platform cfg (r.body tail) with
  | error failure => rw [hparse] at h; cases h
  | ok result =>
      rw [hparse] at h
      cases h
      exact ⟨rfl, fun _ => .number _⟩

/-- With the grammar of RFC 8259, the contents between the quotes are the strings of a text. -/
theorem spans_stringContents (hjson5 : cfg.json5 = false) :
    Spans stringContents (fun _ => True) WellFormed platform cfg 0 where
  skip before rest h := stringContents_append (fun c hmem => (h c hmem).1) rest
  space r r' h hr' := by
    rw [skipWhitespace, hjson5, if_neg Bool.false_ne_true] at h
    cases h
    refine ⟨hr', ?_⟩
    change stringContents r.rest = stringContents (r.rest.dropWhile isWhitespace)
    have hspace : ∀ c ∈ r.rest.takeWhile isWhitespace, c ≠ ascii '"' := by
      rintro _ hmem rfl
      exact absurd (List.mem_takeWhile_imp hmem) (by decide)
    have hskip := stringContents_append hspace (r.rest.dropWhile isWhitespace)
    rwa [List.takeWhile_append_dropWhile] at hskip
  number r value r' h hr' := by
    obtain ⟨text, -, hrest, -, haccepted, -⟩ := yields_readNumber hjson5 value r' h
    obtain ⟨parts, rfl, -⟩ := accepted_iff.mp haccepted
    obtain ⟨hfailure, hclean⟩ := readNumber_spec h
    refine ⟨hfailure.symm.trans hr', ?_, hclean _⟩
    rw [hrest, stringContents_append (number_quotes parts)]
  key r := by
    rw [readKey, readKey, gate_json5, gate_json5, hjson5]
    refine gated_get (gated_ite (fun h => ?_) fun _ => ?_)
    · exact absurd h.1 Bool.false_ne_true
    · exact gated_ite (fun _ => gated_failHere) fun _ => readString_gated hjson5 r
  string r _ := readString_gated hjson5 r
  single r h := by
    rw [hjson5] at h
    cases h

theorem rest_of_readText {value : Ast} {r' : Reading}
    (h : readText skipWhitespace platform cfg tail r = .ok (value, r')) :
    r'.rest.length ≤ tail ∧ r'.failure = none := by
  rw [readText, Prog.bind_get, Prog.bind_apply, Res.bind_eq_ok] at h
  obtain ⟨⟨_, r₁⟩, -, h⟩ := h
  rw [Prog.bind_apply, Res.bind_eq_ok] at h
  obtain ⟨⟨_, r₂⟩, -, h⟩ := h
  rw [Prog.bind_apply, Res.bind_eq_ok] at h
  obtain ⟨⟨_, r₃⟩, -, h⟩ := h
  rw [Prog.bind_apply, Res.bind_eq_ok] at h
  obtain ⟨⟨_, r₄⟩, -, h⟩ := h
  rw [Prog.bind_apply, Res.bind_eq_ok] at h
  obtain ⟨⟨_, r₅⟩, hrecorded, h⟩ := h
  rw [Prog.bind_get] at h
  split at h
  · rename_i hend
    cases h
    refine ⟨of_decide_eq_true hend, ?_⟩
    rw [failIfRecorded, Prog.bind_get] at hrecorded
    split at hrecorded
    · cases hrecorded
    · rename_i hnone
      cases hrecorded
      exact Option.not_isSome_iff_eq_none.mp hnone
  · cases h

end Reading

/-! ### `parse_copy` -/

section ParseCopy

variable {platform : Platform} {cfg : Config} {json : Bytes} {document : Document}

/-- The gate over a whole input that is accepted without it, for the strings that `spans` finds. -/
theorem parseCopy_gated {spans : Bytes → List (Nat × Bytes)} {ordinary clean : Bytes → Prop}
    (hspans : Reading.Spans spans ordinary clean platform cfg 0) (hnil : spans [] = [])
    (hordinary : ∀ string ∈ spans json, ordinary string.2)
    (h : parseCopy platform (cfg.gate false) json = .ok document) :
    (∃ strict, parseCopy platform (cfg.gate true) json = .ok strict ∧
        strict.tree = document.tree ∧ document.tree.All clean ∧
        ∀ string ∈ spans json, WellFormed string.2) ∨
      ∃ failure, Rejects (spans json) failure ∧
        parseCopy platform (cfg.gate true) json = .error (failure.error (Window.whole json)) := by
  have hfits := paddedFits_of_parseCopy h
  obtain ⟨value, r, hread, htree⟩ := (parseCopy_eq_ok hfits).mp ⟨document, h, rfl⟩
  obtain ⟨hend, hfailure⟩ := Reading.rest_of_readText hread
  obtain ⟨-, strings, hstrings, hresult⟩ := Reading.gated_readText hspans value r hread hfailure
  rw [List.eq_nil_of_length_eq_zero (Nat.le_zero.mp hend), hnil, List.append_nil] at hstrings
  rw [show spans json = strings from hstrings] at hordinary ⊢
  rcases hresult hordinary with ⟨hall, hclean, hstrict⟩ | ⟨failure, r'', hrejects, hstrict, hfailed⟩
  · obtain ⟨strict, hparse, hsame⟩ := (parseCopy_eq_ok hfits).mpr ⟨value, r, hstrict, htree⟩
    exact .inl ⟨strict, hparse, hsame, htree ▸ hclean.toJson _, hall⟩
  · obtain ⟨value', r', hread', -⟩ | ⟨failure', r', hread', hfailure', hparse⟩ :=
      @parseCopy_spec platform (cfg.gate true) json hfits
    · rw [hstrict] at hread'
      cases hread'
    · obtain rfl := Res.error.inj (hstrict.symm.trans hread')
      obtain rfl := Option.some.inj (hfailed.symm.trans hfailure')
      exact .inr ⟨failure, hrejects, hparse⟩

/-- The error for the first string of the input that is ill-formed, at its first violation. -/
def ReportsViolation (json : Bytes) (error : Error) : Prop :=
  ∃ before left content after code pos, stringContents json = before ++ (left, content) :: after ∧
    (∀ string ∈ before, WellFormed string.2) ∧ Violation content code pos ∧
    error = { code, position := json.length - left + pos, positioned := true }

/-- A text that is accepted without the gate is accepted with it if and only if the bytes between the
quotes of all its strings are well-formed. The tree is the same then, and its strings are well-formed;
otherwise the first violation is reported. -/
theorem parseCopy_strictUtf8 (hjson5 : cfg.json5 = false)
    (h : parseCopy platform (cfg.gate false) json = .ok document) :
    ((∃ strict, parseCopy platform (cfg.gate true) json = .ok strict) ↔
        ∀ string ∈ stringContents json, WellFormed string.2) ∧
      (∀ strict, parseCopy platform (cfg.gate true) json = .ok strict →
        strict.tree = document.tree ∧ strict.tree.All WellFormed) ∧
      ((¬∀ string ∈ stringContents json, WellFormed string.2) → ∃ error,
        parseCopy platform (cfg.gate true) json = .error error ∧ error.code ∈ utf8Codes ∧
        ReportsViolation json error) := by
  have hnil : stringContents [] = [] := by rw [stringContents]
  rcases parseCopy_gated (Reading.spans_stringContents hjson5) hnil (fun _ _ => trivial) h with
    ⟨strict, hparse, hsame, hclean, hall⟩ | ⟨failure, hrejects, hparse⟩
  · refine ⟨⟨fun _ => hall, fun _ => ⟨strict, hparse⟩⟩, ?_, fun hnot => absurd hall hnot⟩
    intro strict' hparse'
    obtain rfl := Res.ok.inj (hparse.symm.trans hparse')
    exact ⟨hsame, hsame ▸ hclean⟩
  · have hno : ¬∃ strict, parseCopy platform (cfg.gate true) json = .ok strict := by
      rintro ⟨strict, hparse'⟩
      rw [hparse] at hparse'
      cases hparse'
    refine ⟨⟨fun hyes => absurd hyes hno, fun hall => absurd hall hrejects.not_wellFormed⟩, ?_, ?_⟩
    · exact fun strict hparse' => absurd ⟨strict, hparse'⟩ hno
    · intro _
      obtain ⟨before, left, content, after, code, pos, heq, hbefore, hviolation, rfl⟩ := hrejects
      refine ⟨_, hparse, hviolation.code_mem, before, left, content, after, code, pos, heq, hbefore,
        hviolation, ?_⟩
      have hmem : (left, content) ∈ stringContents json := by
        rw [heq]
        exact List.mem_append_right _ List.mem_cons_self
      obtain ⟨front, behind, hjson, hleft⟩ := mem_stringContents hmem
      have hpos := hviolation.le_length
      rw [Failure.error, Error.mk.injEq]
      refine ⟨rfl, rfl, ?_, rfl, rfl⟩
      change json.length - (left - pos) - 0 = json.length - left + pos
      rw [hjson, List.length_append, ← hleft]
      rw [List.length_append] at hleft
      omega

end ParseCopy

/-- A string whose two-byte character an escape tears apart. -/
def tornString : Bytes := ascii '"' :: 0xC3 :: (asciiBytes "\\n" ++ [0xA9, ascii '"'])

theorem stringContents_torn :
    stringContents tornString = [(5, 0xC3 :: (asciiBytes "\\n" ++ [0xA9]))] := by
  have hcontent : contentOf (ascii '"')
      (0xC3 :: (asciiBytes "\\n" ++ [0xA9]) ++ ascii '"' :: []) =
      0xC3 :: (asciiBytes "\\n" ++ [0xA9]) := by decide
  have hstring := @stringContents_quote (0xC3 :: (asciiBytes "\\n" ++ [0xA9])) [] hcontent
  rwa [show stringContents [] = [] by rw [stringContents]] at hstring

theorem parseCopy_strictUtf8_torn : ∃ document error,
    parseCopy halfPlatform (Config.gate {} false) tornString = .ok document ∧
      parseCopy halfPlatform (Config.gate {} true) tornString = .error error ∧
      error.code ∈ utf8Codes ∧ ReportsViolation tornString error := by
  have hread : Reading.readText Reading.skipWhitespace halfPlatform (Config.gate {} false) 0 { rest := tornString } =
      .ok (.string [0xC3, 0x0A, 0xA9], _) := rfl
  obtain ⟨document, hparse, -⟩ := (parseCopy_eq_ok (by decide)).mpr ⟨_, _, hread, rfl⟩
  have hlead : Unfinished [0xC3] := ⟨List.cons_ne_nil _ _, [0x80], List.cons_ne_nil _ _,
    .mk ⟨(0xC2, 0xDF), [(0x80, 0xBF)]⟩ 0xC3 [0x80] (by decide) (by decide) (.cons (by decide) .nil)⟩
  have hill : ¬∀ string ∈ stringContents tornString, WellFormed string.2 := by
    rw [stringContents_torn]
    intro h
    have hwell := h _ (List.mem_singleton_self _)
    exact (Violation.continuation [] [0xC3] _ (ascii '\\') .nil hlead (by decide)).not_wellFormed hwell
  obtain ⟨error, herror, hcode, hreports⟩ := (parseCopy_strictUtf8 rfl hparse).2.2 hill
  exact ⟨document, error, hparse, herror, hcode, hreports⟩

end PjhJson
