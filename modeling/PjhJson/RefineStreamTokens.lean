import PjhJson.RefineStream
import PjhJson.RefineString
import PjhJson.StringScalar

/-! The token decoders of the stream reader follow those of the machine without a window: a token is
collected across refills, a string is decoded in place, and a number that ends where the window does is
scanned again with more of the stream behind it. -/

namespace PjhJson

open Grammar

variable {setup : StreamSetup} {s : StreamReader} {p : Pull} {α β : Type}
  {done : α → StreamReader → β → Pull → Prop}

/-! ### Strings -/

theorem Live.with_token (h : Live setup s p) (token : Bytes) (length : Nat) :
    Live setup { s with mToken := token, mTokenLen := length } p :=
  ⟨⟨h.synced.unread, h.synced.inside, h.synced.offset, h.synced.sound, h.synced.eof, h.synced.chunk,
    h.synced.mode, h.synced.depth, h.synced.strip, h.synced.strict, h.synced.stack, h.synced.started,
    h.synced.rootDone, h.synced.finished, h.synced.error, h.synced.fresh, h.synced.out⟩, h.clear, h.begun⟩

/-- What the collecting loop knows about the bytes that it has collected. -/
structure Collected (raw : StreamReader.RawToken) (bytes : Bytes) : Prop where
  escape : raw.hasEscape = true ↔ ascii '\\' ∈ bytes
  plain : ascii '\\' ∉ bytes → raw.escaped = false ∧ raw.firstControl = bytes.findIdx? (· < 0x20)

theorem Collected.push {raw : StreamReader.RawToken} {bytes : Bytes} (h : Collected raw bytes) (c : UInt8) :
    Collected (raw.push bytes.length c) (bytes ++ [c]) := by
  have hmem : ascii '\\' ∈ bytes ++ [c] ↔ ascii '\\' ∈ bytes ∨ c = ascii '\\' := by
    rw [List.mem_append, List.mem_singleton, eq_comm (a := c)]
  rw [StreamReader.RawToken.push]
  split
  · -- an escaped byte follows a backslash
    rename_i hescaped
    have hin : ascii '\\' ∈ bytes := by
      by_contra hout
      rw [(h.plain hout).1] at hescaped
      cases hescaped
    exact ⟨iff_of_true (h.escape.mpr hin) (hmem.mpr (.inl hin)),
      fun hout => absurd (hmem.mpr (.inl hin)) hout⟩
  rename_i hescaped
  split
  · rename_i hc
    exact ⟨iff_of_true rfl (hmem.mpr (.inr hc)), fun hout => absurd (hmem.mpr (.inr hc)) hout⟩
  rename_i hc
  have hsame : ascii '\\' ∈ bytes ++ [c] ↔ ascii '\\' ∈ bytes := hmem.trans (or_iff_left hc)
  have hplain : ascii '\\' ∉ bytes ++ [c] → raw.firstControl = bytes.findIdx? (· < 0x20) :=
    fun hout => (h.plain fun hin => hout (hsame.mpr hin)).2
  split
  · rename_i hcontrol
    refine ⟨h.escape.trans hsame.symm, fun hout => ⟨by simpa using hescaped, ?_⟩⟩
    have hnone := (hplain hout).symm.trans hcontrol.2
    rw [List.findIdx?_append, hnone, List.findIdx?_cons, decide_eq_true hcontrol.1]
    simp
  · rename_i hcontrol
    refine ⟨h.escape.trans hsame.symm, fun hout => ⟨by simpa using hescaped, ?_⟩⟩
    have hfirst := hplain hout
    rw [List.findIdx?_append]
    cases hfound : bytes.findIdx? (· < 0x20) with
    | some pos => rw [hfirst, hfound]; rfl
    | none =>
        rw [hfound] at hfirst
        have hbig : ¬c < 0x20 := fun hlt => hcontrol ⟨hlt, hfirst⟩
        rw [hfirst, List.findIdx?_cons, decide_eq_false hbig]
        rfl

/-- The raw bytes of a string are collected up to its closing quote. -/
theorem Live.rawLoop {done : StreamReader.RawToken → StreamReader → β → Pull → Prop} {fuel : Nat}
    {raw : StreamReader.RawToken} (h : Live setup s p)
    (hfuel : s.distance < fuel) (hraw : Collected raw s.mToken) :
    match Pull.rawContent raw.escaped p.rest with
    | none => Mirrors setup (StreamReader.rawLoop fuel raw s)
        ((Pull.moveTo [] >>= fun _ => (Pull.fail .unterminatedString 0 : Prog Pull β)) p) done
    | some (content, rest) => ∃ raw' s', StreamReader.rawLoop fuel raw s = .ok (raw', s') ∧
        Live setup s' { p with rest } ∧ s'.mToken = s.mToken ++ content ∧ Collected raw' s'.mToken := by
  induction fuel generalizing s p raw with
  | zero => omega
  | succ fuel ih =>
      rw [StreamReader.rawLoop, Prog.bind_get]
      cases hwindow : s.window with
      | nil =>
          rw [h.exhausted_iff.mpr hwindow, if_pos rfl]
          cases heof : s.mEof with
          | true =>
              have hrest : p.rest = [] := by rw [← h.window_eq heof, hwindow]
              have hsame : Pull.moveTo [] p = .ok ((), p) := by rw [Pull.moveTo, Prog.modify_apply, ← hrest]
              rw [if_pos rfl, hrest, Pull.rawContent]
              simp only
              rw [Prog.bind_of_ok hsame]
              have hoffset := h.synced.offset
              rw [hrest, List.length_nil] at hoffset
              exact mirrors_fail h _ hoffset
          | false =>
              have hdistance := h.distance_fill heof
              obtain ⟨hlive, hfill⟩ := h.fill heof
              rw [if_neg Bool.false_ne_true, Prog.bind_modify, Prog.bind_of_ok hlive.failIfError,
                ← hfill.token]
              exact ih hlive (by omega) (by rwa [hfill.token])
      | cons c more =>
          have hrest : p.rest = c :: p.rest.tail := by
            have hunread := h.synced.unread
            rw [hwindow, List.cons_append] at hunread
            rw [← hunread, List.tail_cons]
          have hone : 1 ≤ s.window.length := by rw [hwindow]; exact Nat.le_add_left 1 _
          have hlive := h.advance hone
          have hdistance := StreamReader.distance_advance hwindow
          rw [h.not_exhausted hwindow, if_neg Bool.false_ne_true, Prog.bind_of_ok (h.peek hwindow).1,
            StreamReader.advance, Prog.bind_modify, hrest, Pull.rawContent]
          rw [List.drop_one] at hlive
          by_cases hquote : raw.escaped = false ∧ c = ascii '"'
          · rw [if_pos hquote, if_pos hquote]
            exact ⟨raw, _, rfl, hlive, (List.append_nil _).symm, hraw⟩
          · rw [if_neg hquote, if_neg hquote, Prog.bind_modify]
            have hescaped : (raw.push s.mToken.length c).escaped =
                (!raw.escaped && c == ascii '\\') := by
              rw [StreamReader.RawToken.push]
              cases hwas : raw.escaped with
              | true => rfl
              | false =>
                  rw [if_neg Bool.false_ne_true]
                  by_cases hc : c = ascii '\\'
                  · rw [if_pos hc, hc]
                    rfl
                  · rw [if_neg hc, beq_eq_false_iff_ne.mpr hc]
                    split
                    · rfl
                    · exact hwas
            have hnext := @ih _ _ (raw.push s.mToken.length c)
              (hlive.with_token (s.mToken ++ [c]) s.mTokenLen)
              (Nat.lt_of_lt_of_le hdistance (Nat.le_of_lt_succ hfuel)) (hraw.push c)
            rw [hescaped] at hnext
            cases hcontent : Pull.rawContent (!raw.escaped && c == ascii '\\') p.rest.tail with
            | none =>
                rw [hcontent] at hnext
                exact hnext
            | some result =>
                rw [hcontent] at hnext
                obtain ⟨raw', s', hrun, hlive', htoken, hcollected⟩ := hnext
                exact ⟨raw', s', hrun, hlive', by rw [htoken, List.append_assoc]; rfl, hcollected⟩

/-! ### Decoding a string -/

/-- The token buffer while a string is decoded in it: `raw` from `src` on is still to be decoded, and
`text` before `dst` is what the bytes before `src` stand for. -/
structure TokenDecoding (s : StreamReader) (src dst : Nat) (raw text : Bytes) : Prop where
  ahead : s.mToken.drop src = raw ++ List.replicate StreamReader.kStringDecodePadding 0
  inside : src ≤ s.mToken.length
  behind : dst ≤ src
  text : s.mToken.take dst = text

theorem nulPadding : List.replicate StreamReader.kStringDecodePadding (0 : UInt8) ≠ [] ∧
    ∀ c ∈ List.replicate StreamReader.kStringDecodePadding (0 : UInt8), c = 0 :=
  ⟨by decide, fun _ hc => List.eq_of_mem_replicate hc⟩

namespace TokenDecoding

variable {src dst : Nat} {raw text : Bytes}

theorem length_token (h : TokenDecoding s src dst raw text) :
    s.mToken.length = src + raw.length + StreamReader.kStringDecodePadding := by
  have hlength := congrArg List.length h.ahead
  have hinside := h.inside
  rw [List.length_drop, List.length_append, List.length_replicate] at hlength
  omega

/-- Writing what the next bytes stand for, and moving over them. -/
theorem write (h : TokenDecoding s src dst raw text) {written rest : Bytes}
    (hle : written.length + rest.length ≤ raw.length) (hrest : rest <:+ raw) :
    StreamReader.storeToken dst written s =
        .ok ((), { s with mToken := Memory.overlay s.mToken dst written }) ∧
      TokenDecoding { s with mToken := Memory.overlay s.mToken dst written }
        (src + (raw.length - rest.length)) (dst + written.length) rest (text ++ written) := by
  have hlength := h.length_token
  have hbehind := h.behind
  have hfit : dst + written.length ≤ src + (raw.length - rest.length) := by omega
  refine ⟨by rw [StreamReader.storeToken, if_pos (by omega)], ⟨?_, ?_, hfit, ?_⟩⟩
  · obtain ⟨spelling, rfl⟩ := hrest
    simp only
    rw [Memory.drop_overlay hfit (by omega), ← List.drop_drop, h.ahead, List.length_append,
      Nat.add_sub_cancel, List.append_assoc, List.drop_left]
  · simp only
    rw [Memory.length_overlay (by omega)]
    omega
  · have hinside : dst ≤ s.mToken.length := by omega
    have hslice := Memory.slice_overlay written (Nat.zero_le dst) hinside
    rw [Memory.slice, Memory.slice, List.drop_zero, List.drop_zero, Nat.sub_zero, Nat.sub_zero,
      h.text] at hslice
    exact hslice

end TokenDecoding

/-- The gate, where it has found nothing and where it has. -/
theorem mirrors_checkUtf8 (h : Live setup s p) {base left : Nat} {ck : Utf8Checker}
    (hbase : base + left = setup.input.length) (hck : ck.Within left)
    {next : Unit → Prog StreamReader α} {content : Unit → Res Pull.ContentError Bytes}
    {done : α → StreamReader → Bytes → Pull → Prop}
    (hnext : Mirrors setup (next () s) (Pull.ofContent left (content ()) p) done) :
    Mirrors setup ((StreamReader.checkUtf8 base ck >>= next) s)
      (Pull.ofContent left (Pull.gate ck >>= content) p) done := by
  rw [StreamReader.checkUtf8, Pull.gate]
  by_cases hfailed : ck.failed = true
  · rw [if_pos hfailed, if_pos hfailed, Res.error_bind, Pull.ofContent]
    have herr := hck.1
    have hfail : Mirrors setup ((StreamReader.fail ck.code (base + ck.err) : Prog StreamReader Unit) s)
        ((Pull.fail ck.code (left - ck.err) : Prog Pull Bytes) p) fun _ _ _ _ => False :=
      mirrors_fail h _ (by omega)
    exact Prog.simulates_of_failure hfail
  · rw [if_neg hfailed, if_neg hfailed, Res.ok_bind]
    exact hnext

/-- A decoded string: the reader has not moved, and holds the text. -/
def HoldsToken (setup : StreamSetup) (p : Pull) (s' : StreamReader) (text : Bytes) (p' : Pull) : Prop :=
  p' = p ∧ Live setup s' p ∧ s'.tokenText = text

/-- Decoding one escape of the token. -/
theorem mirrors_decodeEscape {base left src dst : Nat} {raw text : Bytes} {c : UInt8}
    (h : Live setup s p) (hbase : base + left = setup.input.length)
    (hleft : src + (c :: raw).length ≤ left) (hdecoding : TokenDecoding s src dst (c :: raw) text)
    (hescape : c = ascii '\\') {next : Nat × Nat → Prog StreamReader α}
    {content : Bytes → Bytes → Res Pull.ContentError Bytes}
    {done : α → StreamReader → Bytes → Pull → Prop}
    (hnext : ∀ written rest s', Live setup s' p → rest.length < (c :: raw).length →
      TokenDecoding s' (src + ((c :: raw).length - rest.length)) (dst + written.length) rest
        (text ++ written) →
      Mirrors setup (next (src + ((c :: raw).length - rest.length), dst + written.length) s')
        (Pull.ofContent left (content written rest) p) done) :
    Mirrors setup ((StreamReader.decodeEscape base src dst >>= next) s)
      (Pull.ofContent left (match Reading.readEscape (c :: raw) with
        | .stuck => .stuck
        | .error (code, anchor) =>
          .error (code, anchor.map fun anchor => src + ((c :: raw).length - anchor.length))
        | .ok (written, rest) => content written rest) p) done := by
  have hlength := hdecoding.length_token
  have hdecode : handleEscape (s.mToken.drop src) = appendEscape
      (List.replicate StreamReader.kStringDecodePadding 0) (Reading.readEscape (c :: raw)) := by
    rw [hdecoding.ahead]
    exact handleEscape_append nulPadding _ _
  rw [StreamReader.decodeEscape, Prog.bind_apply, Prog.bind_get, hdecode]
  cases hresult : Reading.readEscape (c :: raw) with
  | stuck => trivial
  | error failure =>
      obtain ⟨code, anchor⟩ := failure
      cases anchor with
      | none =>
          have hfail : Mirrors setup ((StreamReader.failContext code : Prog StreamReader (Nat × Nat)) s)
              ((Pull.failContext code : Prog Pull Bytes) p) fun _ _ _ _ => False :=
            mirrors_failContext h code
          exact Prog.simulates_of_failure hfail
      | some anchor =>
          have hanchor := (inText_readEscape hresult).2 anchor rfl
          have hfail : Mirrors setup ((StreamReader.fail code (base + (s.mToken.length -
                (anchor ++ List.replicate StreamReader.kStringDecodePadding 0).length)) :
              Prog StreamReader (Nat × Nat)) s)
              ((Pull.fail code (left - (src + ((c :: raw).length - anchor.length))) :
                Prog Pull Bytes) p) fun _ _ _ _ => False := by
            refine mirrors_fail h _ ?_
            rw [List.length_append, List.length_replicate]
            omega
          exact Prog.simulates_of_failure hfail
  | ok result =>
      obtain ⟨written, rest⟩ := result
      obtain ⟨hle, hlt⟩ := length_readEscape hresult
      have hsuffix : rest <:+ c :: raw := by
        rw [hescape] at hresult ⊢
        obtain ⟨spelling, -, rfl⟩ := readEscape_iff.mp hresult
        exact List.suffix_append (ascii '\\' :: spelling) rest
      obtain ⟨hstore, hwritten⟩ := hdecoding.write hle hsuffix
      have hpos : s.mToken.length - (rest ++ List.replicate StreamReader.kStringDecodePadding 0).length =
          src + ((c :: raw).length - rest.length) := by
        rw [List.length_append, List.length_replicate]
        omega
      simp only [appendEscape]
      rw [Prog.bind_of_ok hstore, hpos]
      exact hnext written rest _ (h.with_token _ _) hlt hwritten

theorem Live.decodeLoop {base left src dst fuel : Nat} {raw text : Bytes} {ck : Utf8Checker}
    (h : Live setup s p) (hbase : base + left = setup.input.length) (hleft : src + raw.length ≤ left)
    (hck : ck.Within left) (hdecoding : TokenDecoding s src dst raw text) :
    Mirrors setup (StreamReader.decodeLoop base (src + raw.length) fuel src dst ck s)
      (Pull.ofContent left (Pull.decodeRaw setup.cfg.strictUtf8 fuel src raw text ck) p)
      fun _ s' text p' => HoldsToken setup p s' text p' := by
  induction fuel generalizing s src dst raw text ck with
  | zero => trivial
  | succ fuel ih =>
      have hlength := hdecoding.length_token
      rw [StreamReader.decodeLoop, Prog.bind_get]
      cases raw with
      | nil =>
          have hck' : (if setup.cfg.strictUtf8 then ck.finish else ck).Within left := by
            split
            · exact hck.finish
            · exact hck
          rw [Pull.decodeRaw, if_neg (by simp), StreamReader.finishDecoded, Prog.bind_get,
            h.synced.strict]
          refine mirrors_checkUtf8 h hbase hck' ?_
          exact Prog.simulates_ok ⟨rfl, h.with_token _ _, hdecoding.text⟩
      | cons c more =>
          have hget : s.mToken[src]? = some c := by
            rw [← List.head?_drop, hdecoding.ahead]
            rfl
          have hlong : (c :: more).length = more.length + 1 := rfl
          have hck' : (if setup.cfg.strictUtf8 then ck.feed c src else ck).Within left := by
            split
            · exact hck.feed _ (by omega)
            · exact hck
          rw [Pull.decodeRaw, if_pos (by omega), hget]
          simp only [h.synced.strict]
          refine mirrors_checkUtf8 h hbase hck' ?_
          by_cases hescape : c = ascii '\\'
          · rw [if_pos hescape, if_pos hescape]
            refine mirrors_decodeEscape h hbase hleft hdecoding hescape ?_
            intro written rest s' hlive hlt hwritten
            have hend : src + (c :: more).length =
                src + ((c :: more).length - rest.length) + rest.length := by omega
            rw [hend]
            exact ih hlive (by omega) hck' hwritten
          rw [if_neg hescape, if_neg hescape]
          by_cases hcontrol : c < 0x20
          · rw [if_pos hcontrol, if_pos hcontrol]
            exact mirrors_fail h _ (by omega)
          · rw [if_neg hcontrol, if_neg hcontrol]
            have hfits : [c].length + more.length ≤ (c :: more).length := by rw [List.length_singleton]; omega
            obtain ⟨hstore, hwritten⟩ := hdecoding.write hfits (List.suffix_cons c more)
            have hone : src + ((c :: more).length - more.length) = src + 1 := by omega
            rw [hone, List.length_singleton] at hwritten
            rw [Prog.bind_of_ok hstore, show src + (c :: more).length = src + 1 + more.length by omega]
            exact ih (h.with_token _ _) (by omega) hck' hwritten

theorem Live.finishPlain {base left : Nat} {raw : StreamReader.RawToken} (h : Live setup s p)
    (hbase : base + left = setup.input.length) (hleft : s.mToken.length ≤ left)
    (hraw : Collected raw s.mToken) (hplain : ascii '\\' ∉ s.mToken) :
    Mirrors setup (StreamReader.finishPlain base raw s)
      (Pull.ofContent left (Pull.decodeContent setup.cfg.strictUtf8 s.mToken) p)
      fun _ s' text p' => HoldsToken setup p s' text p' := by
  rw [StreamReader.finishPlain, Prog.bind_get, Pull.decodeContent, if_neg hplain, (hraw.plain hplain).2]
  cases hfound : s.mToken.findIdx? (· < 0x20) with
  | some pos =>
      have hlt := (List.findIdx?_eq_some_iff_getElem.mp hfound).1
      exact mirrors_fail h _ (by omega)
  | none =>
      have hck : (if setup.cfg.strictUtf8 then checkUtf8Strict s.mToken else {}).Within left := by
        split
        · exact ((Utf8Checker.within_init _).feedRange (by omega)).finish
        · exact Utf8Checker.within_init _
      simp only [h.synced.strict]
      refine mirrors_checkUtf8 h hbase hck ?_
      exact Prog.simulates_ok ⟨rfl, h.with_token _ _, List.take_length⟩

theorem Live.finishEscaped {base left : Nat} (h : Live setup s p)
    (hbase : base + left = setup.input.length) (hleft : s.mToken.length ≤ left)
    (hescape : ascii '\\' ∈ s.mToken) :
    Mirrors setup (StreamReader.finishEscaped base s)
      (Pull.ofContent left (Pull.decodeContent setup.cfg.strictUtf8 s.mToken) p)
      fun _ s' text p' => HoldsToken setup p s' text p' := by
  rw [StreamReader.finishEscaped, Prog.bind_get, Prog.bind_modify, Pull.decodeContent, if_pos hescape]
  have hdecoding : TokenDecoding
      { s with mToken := s.mToken ++ List.replicate StreamReader.kStringDecodePadding 0 } 0 0 s.mToken [] :=
    ⟨rfl, Nat.zero_le _, Nat.le_refl _, rfl⟩
  have hlive := h.with_token (s.mToken ++ List.replicate StreamReader.kStringDecodePadding 0) s.mTokenLen
  have hwhole : 0 + s.mToken.length ≤ left := by omega
  have hrun := fun fuel => @Live.decodeLoop _ _ _ _ _ _ _ fuel _ _ _ hlive hbase hwhole
    (Utf8Checker.within_init left) hdecoding
  simp only [Nat.zero_add] at hrun
  exact hrun _

theorem length_rawContent {escaped : Bool} {text content rest : Bytes}
    (h : Pull.rawContent escaped text = some (content, rest)) :
    content.length + rest.length + 1 = text.length := by
  induction text generalizing escaped content with
  | nil => cases h
  | cons c text ih =>
      rw [Pull.rawContent] at h
      split at h
      · obtain ⟨rfl, rfl⟩ := Prod.mk.inj (Option.some.inj h)
        rw [List.length_nil, List.length_cons, Nat.zero_add]
      · rw [Option.map_eq_some_iff] at h
        obtain ⟨⟨content', rest'⟩, hcontent, heq⟩ := h
        obtain ⟨rfl, rfl⟩ := Prod.mk.inj heq
        have := ih hcontent
        rw [List.length_cons, List.length_cons]
        omega

/-- A string is read to its closing quote and decoded. -/
theorem Live.parseStringToken {c : UInt8} {more : Bytes} (h : Live setup s p) (hwindow : s.window = c :: more) :
    Mirrors setup (StreamReader.parseStringToken s) (Pull.stringToken setup.cfg.strictUtf8 p)
      fun _ s' text p' => Live setup s' p' ∧ p'.stack = p.stack ∧ s'.tokenText = text := by
  rw [StreamReader.parseStringToken, Pull.stringToken]
  refine mirrors_advance h hwindow fun s₁ p₁ hlive hstack => ?_
  rw [Prog.bind_modify, Prog.bind_get, Prog.bind_get]
  have hlive' := hlive.with_token [] s₁.mTokenLen
  have hstart : Collected {} ([] : Bytes) := ⟨by simp, fun _ => ⟨rfl, rfl⟩⟩
  have hloop := @Live.rawLoop _ _ _ Bytes (fun _ _ _ _ => False) _ _ hlive' (StreamReader.distance_lt _) hstart
  cases hcontent : Pull.rawContent false p₁.rest with
  | none =>
      rw [hcontent] at hloop
      exact Prog.simulates_of_failure hloop
  | some result =>
      obtain ⟨content, rest⟩ := result
      rw [hcontent] at hloop
      obtain ⟨raw, s₂, hrun, hlive₂, htoken, hcollected⟩ := hloop
      have hlength := length_rawContent hcontent
      have hbase := hlive.synced.offset
      rw [Prog.bind_of_ok hrun]
      simp only
      rw [Pull.moveTo, Prog.bind_modify]
      have htoken' : s₂.mToken = content := htoken
      have hdecoded : Mirrors setup
          ((if raw.hasEscape then StreamReader.finishEscaped s₁.abs
            else StreamReader.finishPlain s₁.abs raw) s₂)
          (Pull.ofContent p₁.rest.length (Pull.decodeContent setup.cfg.strictUtf8 content)
            { p₁ with rest }) fun _ s' text p' => HoldsToken setup { p₁ with rest } s' text p' := by
        rw [← htoken']
        by_cases hescape : raw.hasEscape = true
        · rw [if_pos hescape]
          exact hlive₂.finishEscaped hbase (by rw [htoken']; omega) (hcollected.escape.mp hescape)
        · rw [if_neg hescape]
          exact hlive₂.finishPlain hbase (by rw [htoken']; omega) hcollected
            fun hin => hescape (hcollected.escape.mpr hin)
      exact Prog.simulates_mono hdecoded fun _ s' text p' ⟨hp, hlive', htext⟩ =>
        ⟨hp ▸ hlive', hp ▸ hstack, htext⟩

/-! ### Literals and numbers -/

theorem Live.with_out (h : Live setup s p) (event : JsonEvent) :
    Live setup { s with out := event } { p with out := event } :=
  ⟨⟨h.synced.unread, h.synced.inside, h.synced.offset, h.synced.sound, h.synced.eof, h.synced.chunk,
    h.synced.mode, h.synced.depth, h.synced.strip, h.synced.strict, h.synced.stack, h.synced.started,
    h.synced.rootDone, h.synced.finished, h.synced.error, h.synced.fresh, rfl⟩, h.clear, h.begun⟩

/-- The bytes in the window are the first that are left. -/
theorem Live.take_window (h : Live setup s p) {n : Nat} (hle : n ≤ s.window.length) :
    s.window.take n = p.rest.take n := by
  rw [← h.synced.unread, List.take_append_of_le_length hle]

theorem Live.checkAfterLiteral (h : Live setup s p) :
    Mirrors setup (StreamReader.checkAfterLiteral s) (Pull.checkAfterLiteral p)
      fun _ s' _ p' => Live setup s' p' ∧ p' = p := by
  obtain ⟨s', hrun, hlive, -, -, henough⟩ := h.ensure 1
  rw [StreamReader.checkAfterLiteral, Pull.checkAfterLiteral, Prog.bind_of_ok hrun, Prog.bind_get]
  by_cases hle : 1 ≤ p.rest.length
  · have hlong : 1 ≤ s'.window.length := henough.elim id fun heq => by rwa [heq]
    obtain ⟨c, more, hwindow⟩ := List.exists_cons_of_length_pos hlong
    obtain ⟨hpeek, hhead, hne⟩ := hlive.peek hwindow
    rw [if_pos (decide_eq_true hle), Prog.bind_of_ok hpeek, hhead]
    cases hvalid : Parser.kValidAfterLiteral c with
    | true =>
        rw [if_neg (by decide), if_neg fun hboth => Bool.noConfusion hboth.2]
        exact Prog.simulates_ok ⟨hlive, rfl⟩
    | false =>
        rw [if_pos (by decide), if_pos ⟨hne, rfl⟩]
        exact mirrors_failHere hlive _
  · have hnil : p.rest = [] := List.eq_nil_of_length_eq_zero (by omega)
    rw [if_neg (by rw [decide_eq_false hle]; decide), if_neg fun hboth => hboth.1 hnil,
      hlive.failIfError]
    exact Prog.simulates_ok ⟨hlive, rfl⟩

theorem matchLiteral_isSome_iff {text lit : Bytes} (hle : lit.length ≤ text.length) :
    (∃ rest, matchLiteral text lit = some rest) ↔ text.take lit.length = lit := by
  rw [matchLiteral]
  constructor
  · rintro ⟨rest, h⟩
    split at h
    · rename_i hboth
      exact hboth.2
    · cases h
  · intro h
    exact ⟨_, if_pos ⟨hle, h⟩⟩

theorem Live.parseLiteral {c : UInt8} {more : Bytes} (h : Live setup s p) (hwindow : s.window = c :: more) :
    Mirrors setup (StreamReader.parseLiteral s) (Pull.literal p)
      fun _ s' _ p' => Live setup s' p' ∧ p'.stack = p.stack := by
  obtain ⟨hpeek, hhead, -⟩ := h.peek hwindow
  obtain ⟨s', hrun, hlive, habs, -, henough⟩ := h.ensure (StreamReader.literalOf c).length
  rw [StreamReader.parseLiteral, Prog.bind_of_ok hpeek, Prog.bind_get, Prog.bind_of_ok hrun]
  rw [Pull.literal, Prog.bind_of_ok (show Pull.peek p = .ok (c, p) by rw [Pull.peek, hhead]),
    Prog.bind_get]
  have hoffset := h.synced.offset
  by_cases hle : (StreamReader.literalOf c).length ≤ p.rest.length
  · have hlong : (StreamReader.literalOf c).length ≤ s'.window.length :=
      henough.elim id fun heq => by rwa [heq]
    have hmatch := matchLiteral_isSome_iff hlong
    rw [hlive.take_window hlong] at hmatch
    rw [if_pos (decide_eq_true hle), Prog.bind_get]
    cases hliteral : matchLiteral s'.window (StreamReader.literalOf c) with
    | none =>
        rw [if_neg fun heq => by
          obtain ⟨rest, hsome⟩ := hmatch.mpr heq
          rw [hliteral] at hsome
          cases hsome]
        exact mirrors_fail hlive _ hoffset
    | some rest =>
        rw [if_pos (hmatch.mp ⟨rest, hliteral⟩)]
        have hnext := hlive.advance hlong
        simp only
        rw [StreamReader.advance, Prog.bind_modify, Pull.advance, Prog.bind_modify]
        refine Prog.simulates_bind hnext.checkAfterLiteral ?_
        rintro _ s'' _ p'' ⟨hlive'', rfl⟩
        exact Prog.simulates_ok ⟨hlive''.with_out _, rfl⟩
  · rw [if_neg (by rw [decide_eq_false hle]; decide), Prog.bind_of_ok hlive.failIfError, if_neg]
    · exact mirrors_fail hlive _ hoffset
    · intro heq
      have := congrArg List.length heq
      rw [List.length_take] at this
      omega

/-- A number is scanned in the window, again and again until it does not end where the window does. -/
theorem Live.numberLoop {platform : Platform} {fuel : Nat} (h : Live setup s p)
    (hfuel : s.mIn.rest.length + (if s.mEof then 0 else 1) < fuel) :
    Mirrors setup (StreamReader.numberLoop platform fuel s) (Pull.number platform p)
      fun _ s' _ p' => Live setup s' p' ∧ p'.stack = p.stack := by
  induction fuel generalizing s with
  | zero => omega
  | succ fuel ih =>
      rw [StreamReader.numberLoop, Prog.bind_get]
      by_cases hend : stopOf (scanNumber s.window) = [] ∧ s.mEof = false
      · obtain ⟨hlive, hfill⟩ := h.fill hend.2
        rw [if_pos hend, Prog.bind_modify, Prog.bind_of_ok hlive.failIfError]
        refine ih hlive ?_
        rw [hend.2, if_neg Bool.false_ne_true] at hfuel
        rcases hfill.shorter with heof | hshorter
        · rw [heof, if_pos rfl, hlive.synced.eof heof, List.length_nil]
          omega
        · split <;> omega
      · rw [if_neg hend, Pull.number, Prog.bind_get]
        have hmore : scanAndClassify platform p.rest =
            extended s.mIn.rest (scanAndClassify platform s.window) := by
          rw [← h.synced.unread]
          by_cases hnil : stopOf (scanNumber s.window) = []
          · have heof : s.mEof = true := by
              by_contra hne
              exact hend ⟨hnil, by simpa using hne⟩
            rw [h.synced.eof heof, List.append_nil]
            cases scanAndClassify platform s.window with
            | error failure => rw [extended, List.append_nil]
            | ok result => rw [extended, List.append_nil]
          · exact scanAndClassify_more platform hnil _
        have hle := length_scanAndClassify_le platform s.window
        have hunread := congrArg List.length h.synced.unread
        rw [List.length_append] at hunread
        have hoffset := h.synced.offset
        have hinside := h.synced.inside
        have hlength : s.window.length = s.mBuf.length - s.mPos := List.length_drop
        rw [StreamReader.abs] at hoffset
        rw [hmore]
        cases hscan : scanAndClassify platform s.window with
        | error failure =>
            obtain ⟨code, anchor⟩ := failure
            rw [hscan] at hle
            have hanchor : anchor.length ≤ s.window.length := hle
            refine mirrors_fail h _ ?_
            rw [List.length_append]
            omega
        | ok result =>
            obtain ⟨number, rest⟩ := result
            rw [hscan] at hle
            have hrest : rest.length ≤ s.window.length := hle
            obtain ⟨token, htoken, -⟩ := scanAndClassify_local platform _ _ _ hscan
            have hcount : s.mBuf.length - rest.length = s.mPos + token.length := by
              have := congrArg List.length htoken
              rw [List.length_append] at this
              omega
            have hfits : token.length ≤ s.window.length := by rw [htoken, List.length_append]; omega
            have hnext := h.advance hfits
            have hdrop : p.rest.drop token.length = rest ++ s.mIn.rest := by
              rw [← h.synced.unread, htoken, List.append_assoc, List.drop_left]
            rw [hdrop] at hnext
            simp only [extended]
            rw [Prog.bind_modify, hcount, Pull.moveTo, Prog.bind_modify]
            exact Prog.simulates_ok ⟨hnext.with_out _, rfl⟩

theorem Live.parseNumber {platform : Platform} (h : Live setup s p) :
    Mirrors setup (StreamReader.parseNumber platform s) (Pull.number platform p)
      fun _ s' _ p' => Live setup s' p' ∧ p'.stack = p.stack := by
  rw [StreamReader.parseNumber, Prog.bind_get]
  exact h.numberLoop (by split <;> omega)

end PjhJson
