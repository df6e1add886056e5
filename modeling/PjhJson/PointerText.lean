import PjhJson.LibExcept
import PjhJson.Patch
import PjhJson.StreamPointer

/-! The text of a JSON Pointer. `parse_json_pointer` inverts the RFC 6901 rendering, accepts nothing
else, and agrees with the prefix that `StreamReader::items` decodes on its own. -/

namespace PjhJson

open Grammar

/-- How RFC 6901 writes one byte of a token. -/
def escapeByte (c : UInt8) : Bytes :=
  if c = ascii '~' then asciiBytes "~0"
  else if c = ascii '/' then asciiBytes "~1"
  else [c]

def escapeToken (token : Bytes) : Bytes := token.flatMap escapeByte

/-- The RFC 6901 rendering of a list of tokens. -/
def renderPointer (tokens : JsonPointer) : Bytes :=
  tokens.flatMap fun token => ascii '/' :: escapeToken token

/-- Every `~` is followed by `0` or `1`. -/
def TildesEscaped (text : Bytes) : Prop :=
  ∀ i, text[i]? = some (ascii '~') →
    text[i + 1]? = some (ascii '0') ∨ text[i + 1]? = some (ascii '1')

/-! ### One token -/

theorem escapeByte_tilde : escapeByte (ascii '~') = [ascii '~', ascii '0'] := by decide

theorem escapeByte_slash : escapeByte (ascii '/') = [ascii '~', ascii '1'] := by decide

theorem escapeByte_other {c : UInt8} (htilde : c ≠ ascii '~') (hslash : c ≠ ascii '/') :
    escapeByte c = [c] := by
  rw [escapeByte, if_neg htilde, if_neg hslash]

theorem escapeToken_cons (c : UInt8) (token : Bytes) :
    escapeToken (c :: token) = escapeByte c ++ escapeToken token := List.flatMap_cons

theorem slash_notMem_escapeToken (token : Bytes) : ascii '/' ∉ escapeToken token := by
  intro hmem
  obtain ⟨c, -, hc⟩ := List.mem_flatMap.mp hmem
  rw [escapeByte] at hc
  split at hc
  · revert hc
    decide
  · split at hc
    · revert hc
      decide
    · next hslash => exact hslash (List.mem_singleton.mp hc).symm

theorem unescapeToken_zero (raw : Bytes) : unescapeToken (ascii '~' :: ascii '0' :: raw) =
    (unescapeToken raw).map fun out => ascii '~' :: out := by
  rw [unescapeToken]
  cases unescapeToken raw <;> rfl

theorem unescapeToken_one (raw : Bytes) : unescapeToken (ascii '~' :: ascii '1' :: raw) =
    (unescapeToken raw).map fun out => ascii '/' :: out := by
  rw [unescapeToken]
  cases unescapeToken raw <;> rfl

theorem unescapeToken_other {c : UInt8} (htilde : c ≠ ascii '~') (raw : Bytes) :
    unescapeToken (c :: raw) = (unescapeToken raw).map fun out => c :: out := by
  rw [unescapeToken.eq_def]
  simp only [if_pos htilde]
  cases unescapeToken raw <;> rfl

theorem unescapeToken_escapeToken (token : Bytes) : unescapeToken (escapeToken token) = .ok token := by
  induction token with
  | nil => rfl
  | cons c token ih =>
      rw [escapeToken_cons]
      by_cases htilde : c = ascii '~'
      · rw [htilde, escapeByte_tilde]
        change unescapeToken (ascii '~' :: ascii '0' :: escapeToken token) = _
        rw [unescapeToken_zero, ih]
        rfl
      · by_cases hslash : c = ascii '/'
        · rw [hslash, escapeByte_slash]
          change unescapeToken (ascii '~' :: ascii '1' :: escapeToken token) = _
          rw [unescapeToken_one, ih]
          rfl
        · rw [escapeByte_other htilde hslash]
          change unescapeToken (c :: escapeToken token) = _
          rw [unescapeToken_other htilde, ih]
          rfl

theorem escapeToken_of_unescapeToken {raw token : Bytes} (hslash : ascii '/' ∉ raw)
    (h : unescapeToken raw = .ok token) : escapeToken token = raw := by
  induction raw using unescapeToken.induct generalizing token with
  | case1 =>
      cases h
      rfl
  | case2 c raw htilde ih =>
      rw [unescapeToken_other htilde] at h
      rw [List.mem_cons, not_or] at hslash
      obtain ⟨hc, hraw⟩ := hslash
      cases hout : unescapeToken raw with
      | error e =>
          rw [hout] at h
          cases h
      | ok out =>
          rw [hout] at h
          cases h
          rw [escapeToken_cons, escapeByte_other htilde (Ne.symm hc), ih hraw hout]
          rfl
  | case3 c htilde =>
      rw [unescapeToken, if_neg htilde] at h
      cases h
  | case4 c htilde raw ih =>
      rw [not_not] at htilde
      subst htilde
      rw [unescapeToken_zero] at h
      have hraw : ascii '/' ∉ raw := fun hmem => hslash (by simp [hmem])
      cases hout : unescapeToken raw with
      | error e =>
          rw [hout] at h
          cases h
      | ok out =>
          rw [hout] at h
          cases h
          rw [escapeToken_cons, escapeByte_tilde, ih hraw hout]
          rfl
  | case5 c htilde raw hne ih =>
      rw [not_not] at htilde
      subst htilde
      rw [unescapeToken_one] at h
      have hraw : ascii '/' ∉ raw := fun hmem => hslash (by simp [hmem])
      cases hout : unescapeToken raw with
      | error e =>
          rw [hout] at h
          cases h
      | ok out =>
          rw [hout] at h
          cases h
          rw [escapeToken_cons, escapeByte_slash, ih hraw hout]
          rfl
  | case6 c htilde e raw hzero hone =>
      rw [unescapeToken, if_neg htilde, if_neg hzero, if_neg hone] at h
      cases h

/-! ### The tokens of a pointer -/

theorem mapM_unescapeToken_escapeToken (tokens : JsonPointer) :
    (tokens.map escapeToken).mapM unescapeToken = .ok tokens := by
  induction tokens with
  | nil => rfl
  | cons token tokens ih =>
      rw [List.map_cons, List.mapM_cons, unescapeToken_escapeToken, ih]
      rfl

theorem escapeToken_of_mapM {segments : List Bytes} {tokens : JsonPointer}
    (hslash : ∀ segment ∈ segments, ascii '/' ∉ segment)
    (h : segments.mapM unescapeToken = .ok tokens) : tokens.map escapeToken = segments := by
  induction segments generalizing tokens with
  | nil =>
      cases h
      rfl
  | cons segment segments ih =>
      rw [List.forall_mem_cons] at hslash
      rw [List.mapM_cons] at h
      obtain ⟨token, htoken, hrest⟩ := Except.bind_eq_ok.mp h
      obtain ⟨tokens', htokens, hout⟩ := Except.bind_eq_ok.mp hrest
      cases hout
      rw [List.map_cons, escapeToken_of_unescapeToken hslash.1 htoken, ih hslash.2 htokens]

/-- The rendering is what the slashes separate, behind one more slash. -/
theorem renderPointer_eq {tokens : JsonPointer} (hne : tokens ≠ []) :
    renderPointer tokens = ascii '/' :: [ascii '/'].intercalate (tokens.map escapeToken) := by
  induction tokens with
  | nil => exact absurd rfl hne
  | cons token tokens ih =>
      rw [renderPointer, List.flatMap_cons, List.map_cons]
      by_cases hnil : tokens = []
      · rw [hnil, List.map_nil, List.intercalate_singleton, List.flatMap_nil, List.append_nil]
      · have hmap : tokens.map escapeToken ≠ [] := fun h => hnil (List.map_eq_nil_iff.mp h)
        have hrest := ih hnil
        rw [renderPointer] at hrest
        rw [List.intercalate_cons_of_ne_nil hmap, hrest, List.cons_append, List.append_assoc]
        rfl

/-- No slash is left between the slashes. -/
theorem slash_notMem_splitOn {rest segment : Bytes} (h : segment ∈ rest.splitOn (ascii '/')) :
    ascii '/' ∉ segment := by
  induction rest generalizing segment with
  | nil =>
      rw [List.splitOn_nil, List.mem_singleton] at h
      rw [h]
      exact List.not_mem_nil
  | cons c rest ih =>
      rw [List.splitOn_cons_eq_if_modifyHead] at h
      split at h
      · obtain rfl | hmem := List.mem_cons.mp h
        · exact List.not_mem_nil
        · exact ih hmem
      · next hc =>
          cases hsplit : rest.splitOn (ascii '/') with
          | nil => exact absurd hsplit (List.splitOn_ne_nil _ _)
          | cons first others =>
              rw [hsplit] at h ih
              obtain rfl | hmem := List.mem_cons.mp h
              · rw [List.mem_cons, not_or]
                exact ⟨fun heq => hc (by rw [heq, beq_self_eq_true]), ih List.mem_cons_self⟩
              · exact ih (List.mem_cons_of_mem _ hmem)

theorem parseJsonPointer_renderPointer (tokens : JsonPointer) :
    parseJsonPointer (renderPointer tokens) = .ok tokens := by
  by_cases hne : tokens = []
  · rw [hne]
    rfl
  · have hsplit : ([ascii '/'].intercalate (tokens.map escapeToken)).splitOn (ascii '/') =
        tokens.map escapeToken := by
      apply List.splitOn_intercalate
      · intro segment hsegment
        obtain ⟨token, -, rfl⟩ := List.mem_map.mp hsegment
        exact slash_notMem_escapeToken token
      · exact fun hnil => hne (List.map_eq_nil_iff.mp hnil)
    rw [renderPointer_eq hne, parseJsonPointer, if_neg (not_not.mpr rfl), hsplit,
      mapM_unescapeToken_escapeToken]

theorem parseJsonPointer_iff {p : Bytes} {tokens : JsonPointer} :
    parseJsonPointer p = .ok tokens ↔ renderPointer tokens = p := by
  constructor
  · intro h
    cases p with
    | nil =>
        cases h
        rfl
    | cons c rest =>
        rw [parseJsonPointer] at h
        split at h
        · cases h
        · next hc =>
            have hsegments := escapeToken_of_mapM (fun _ hsegment => slash_notMem_splitOn hsegment) h
            have hne : tokens ≠ [] := by
              intro hnil
              rw [hnil] at hsegments
              exact List.splitOn_ne_nil _ _ hsegments.symm
            rw [renderPointer_eq hne, hsegments, List.intercalate_splitOn, not_not.mp hc]
  · intro h
    rw [← h]
    exact parseJsonPointer_renderPointer tokens

/-! ### Which texts are pointers -/

theorem tildesEscaped_nil : TildesEscaped [] := by
  intro i h
  cases h

theorem tildesEscaped_cons {c : UInt8} {text : Bytes} :
    TildesEscaped (c :: text) ↔
      (c = ascii '~' → text.head? = some (ascii '0') ∨ text.head? = some (ascii '1')) ∧
        TildesEscaped text := by
  rw [List.head?_eq_getElem?]
  constructor
  · intro h
    exact ⟨fun hc => h 0 (congrArg some hc), fun i hi => h (i + 1) hi⟩
  · intro ⟨hhead, htail⟩ i hi
    cases i with
    | zero => exact hhead (Option.some.inj hi)
    | succ i => exact htail i hi

theorem tildesEscaped_escapeToken_append {token rest : Bytes} (hrest : TildesEscaped rest) :
    TildesEscaped (escapeToken token ++ rest) := by
  induction token with
  | nil => exact hrest
  | cons c token ih =>
      rw [escapeToken_cons, List.append_assoc]
      by_cases htilde : c = ascii '~'
      · rw [htilde, escapeByte_tilde]
        exact tildesEscaped_cons.mpr
          ⟨fun _ => .inl rfl, tildesEscaped_cons.mpr ⟨fun h => absurd h (by decide), ih⟩⟩
      · by_cases hslash : c = ascii '/'
        · rw [hslash, escapeByte_slash]
          exact tildesEscaped_cons.mpr
            ⟨fun _ => .inr rfl, tildesEscaped_cons.mpr ⟨fun h => absurd h (by decide), ih⟩⟩
        · rw [escapeByte_other htilde hslash]
          exact tildesEscaped_cons.mpr ⟨fun h => absurd h htilde, ih⟩

theorem tildesEscaped_renderPointer (tokens : JsonPointer) : TildesEscaped (renderPointer tokens) := by
  induction tokens with
  | nil => exact tildesEscaped_nil
  | cons token tokens ih =>
      rw [renderPointer, List.flatMap_cons]
      exact tildesEscaped_cons.mpr
        ⟨fun h => absurd h (by decide), tildesEscaped_escapeToken_append ih⟩

/-- A text in which every `~` is escaped is one token, and a pointer behind it. -/
theorem exists_tokens {text : Bytes} (h : TildesEscaped text) :
    ∃ token tokens, text = escapeToken token ++ renderPointer tokens := by
  induction text using unescapeToken.induct with
  | case1 => exact ⟨[], [], rfl⟩
  | case2 c text htilde ih =>
      obtain ⟨token, tokens, rfl⟩ := ih (tildesEscaped_cons.mp h).2
      by_cases hslash : c = ascii '/'
      · exact ⟨[], token :: tokens, by rw [hslash]; rfl⟩
      · exact ⟨c :: token, tokens, by rw [escapeToken_cons, escapeByte_other htilde hslash]; rfl⟩
  | case3 c htilde =>
      have hnext := (tildesEscaped_cons.mp h).1 (not_not.mp htilde)
      cases hnext <;> contradiction
  | case4 c htilde text ih =>
      obtain ⟨token, tokens, rfl⟩ := ih (tildesEscaped_cons.mp (tildesEscaped_cons.mp h).2).2
      refine ⟨ascii '~' :: token, tokens, ?_⟩
      rw [not_not.mp htilde, escapeToken_cons, escapeByte_tilde]
      rfl
  | case5 c htilde text _ ih =>
      obtain ⟨token, tokens, rfl⟩ := ih (tildesEscaped_cons.mp (tildesEscaped_cons.mp h).2).2
      refine ⟨ascii '/' :: token, tokens, ?_⟩
      rw [not_not.mp htilde, escapeToken_cons, escapeByte_slash]
      rfl
  | case6 c htilde e text hzero hone =>
      obtain hnext | hnext := (tildesEscaped_cons.mp h).1 (not_not.mp htilde)
      · exact absurd (Option.some.inj hnext) hzero
      · exact absurd (Option.some.inj hnext) hone

theorem exists_parseJsonPointer_iff {p : Bytes} :
    (∃ tokens, parseJsonPointer p = .ok tokens) ↔
      p = [] ∨ (p.head? = some (ascii '/') ∧ TildesEscaped p) := by
  constructor
  · intro ⟨tokens, h⟩
    rw [← parseJsonPointer_iff.mp h]
    cases tokens with
    | nil => exact .inl rfl
    | cons token tokens => exact .inr ⟨rfl, tildesEscaped_renderPointer _⟩
  · rintro (rfl | ⟨hhead, hescaped⟩)
    · exact ⟨[], rfl⟩
    · cases p with
      | nil => cases hhead
      | cons c rest =>
          obtain ⟨token, tokens, rfl⟩ := exists_tokens (tildesEscaped_cons.mp hescaped).2
          refine ⟨token :: tokens, parseJsonPointer_iff.mpr ?_⟩
          rw [Option.some.inj hhead]
          rfl

/-! ### The prefix of `StreamReader::items` -/

namespace StreamItems

/-- The round of the loop that decodes a token to `text`. -/
def pushToken (items : StreamItems) (text : Bytes) : StreamItems where
  prefixRaw := items.prefixRaw ++ text
  tokens := items.tokens ++ [classify items.prefixRaw.length text]

/-- The decoder of a segment, as the other one decodes it. -/
theorem decodeSegment_eq (raw segment : Bytes) : decodeSegment raw segment =
    ((unescapeToken segment).mapError fun _ => PrefixError.invalidEscape).map fun text => raw ++ text := by
  induction raw, segment using decodeSegment.induct with
  | case1 raw =>
      change Except.ok raw = Except.ok (raw ++ [])
      rw [List.append_nil]
  | case2 raw => rfl
  | case3 raw segment ih =>
      rw [decodeSegment, if_pos rfl, ih, unescapeToken_zero]
      cases unescapeToken segment with
      | error e => rfl
      | ok text => exact congrArg Except.ok (List.append_assoc ..)
  | case4 raw segment _ ih =>
      rw [decodeSegment, if_pos rfl, ih, unescapeToken_one]
      cases unescapeToken segment with
      | error e => rfl
      | ok text => exact congrArg Except.ok (List.append_assoc ..)
  | case5 raw escaped segment hzero hone =>
      rw [decodeSegment, if_pos rfl, if_neg hzero, if_neg hone, unescapeToken, if_neg (not_not.mpr rfl),
        if_neg hzero, if_neg hone]
      rfl
  | case6 raw c segment htilde ih =>
      rw [decodeSegment.eq_def]
      simp only [if_neg htilde]
      rw [ih, unescapeToken_other htilde]
      cases unescapeToken segment with
      | error e => rfl
      | ok text => exact congrArg Except.ok (List.append_assoc ..)

theorem parseToken_eq (items : StreamItems) (segment : Bytes) : parseToken items segment =
    ((unescapeToken segment).mapError fun _ => PrefixError.invalidEscape).map items.pushToken := by
  rw [parseToken, decodeSegment_eq]
  cases unescapeToken segment with
  | error e => rfl
  | ok text =>
      change Except.ok _ = Except.ok _
      rw [pushToken, List.drop_left]

theorem foldlM_parseToken (items : StreamItems) (segments : List Bytes) :
    segments.foldlM parseToken items =
      ((segments.mapM unescapeToken).mapError fun _ => PrefixError.invalidEscape).map fun texts =>
        texts.foldl pushToken items := by
  induction segments generalizing items with
  | nil => rfl
  | cons segment segments ih =>
      rw [List.foldlM_cons, List.mapM_cons, parseToken_eq]
      cases unescapeToken segment with
      | error e => rfl
      | ok text =>
          refine (ih _).trans ?_
          change _ = Except.map _ (Except.mapError _ ((segments.mapM unescapeToken) >>= fun texts =>
            pure (text :: texts)))
          cases segments.mapM unescapeToken <;> rfl

/-- `parse_prefix` accepts what `parse_json_pointer` accepts, and pushes its tokens. -/
theorem parsePrefix_iff {p : Bytes} {items : StreamItems} :
    parsePrefix p = .ok items ↔
      ∃ tokens, parseJsonPointer p = .ok tokens ∧ items = tokens.foldl pushToken {} := by
  cases p with
  | nil =>
      constructor
      · intro h
        cases h
        exact ⟨[], rfl, rfl⟩
      · rintro ⟨tokens, htokens, hitems⟩
        cases htokens
        rw [hitems]
        rfl
  | cons c rest =>
      rw [parsePrefix, parseJsonPointer]
      split
      · apply iff_of_false
        · intro h
          cases h
        · rintro ⟨_, h, _⟩
          cases h
      · rw [foldlM_parseToken]
        cases (rest.splitOn (ascii '/')).mapM unescapeToken with
        | error e =>
            apply iff_of_false
            · intro h
              cases h
            · rintro ⟨_, h, _⟩
              cases h
        | ok texts =>
            constructor
            · intro h
              cases h
              exact ⟨texts, rfl, rfl⟩
            · rintro ⟨tokens, htokens, hitems⟩
              cases htokens
              rw [hitems]
              rfl

/-- A token of the prefix stands for a text: a key is that text in the buffer, an index is its value. -/
def Reads (items : StreamItems) (token : PrefixToken) (text : Bytes) : Prop :=
  match token.kind with
  | .key => token.keyOffset + token.keyLen ≤ items.prefixRaw.length ∧ items.tokenKey token = text
  | .index => parseDecimalIndex text = some token.index
  | .any => text = asciiBytes "*"

theorem reads_classify (items : StreamItems) (text : Bytes) :
    Reads (items.pushToken text) (classify items.prefixRaw.length text) text := by
  rw [classify]
  split
  · next hany => exact hany
  · split
    · next index hindex => exact hindex
    · refine ⟨(List.length_append ..).ge, ?_⟩
      change ((items.prefixRaw ++ text).drop items.prefixRaw.length).take text.length = text
      rw [List.drop_left, List.take_length]

/-- What is appended to the buffer leaves the earlier tokens as they are. -/
theorem Reads.pushToken {items : StreamItems} {token : PrefixToken} {text : Bytes}
    (h : Reads items token text) (next : Bytes) : Reads (items.pushToken next) token text := by
  rw [Reads] at h ⊢
  split at h
  · obtain ⟨hbound, hkey⟩ := h
    refine ⟨hbound.trans (List.length_append ▸ Nat.le_add_right _ _), ?_⟩
    rw [← hkey]
    change ((items.prefixRaw ++ next).drop token.keyOffset).take token.keyLen =
      (items.prefixRaw.drop token.keyOffset).take token.keyLen
    rw [List.drop_append_of_le_length (by omega), List.take_append_of_le_length]
    rw [List.length_drop]
    omega
  · exact h
  · exact h

/-- The buffer holds the texts in a row, and each token stands for its text. -/
structure Holds (items : StreamItems) (texts : List Bytes) : Prop where
  raw : items.prefixRaw = texts.flatten
  tokens : List.Forall₂ (Reads items) items.tokens texts

theorem Holds.pushToken {items : StreamItems} {texts : List Bytes} (h : Holds items texts)
    (text : Bytes) : Holds (items.pushToken text) (texts ++ [text]) where
  raw := by
    rw [List.flatten_append, ← h.raw, List.flatten_singleton]
    rfl
  tokens := by
    apply List.rel_append
    · exact h.tokens.imp fun _ _ hreads => hreads.pushToken text
    · exact .cons (reads_classify items text) .nil

theorem Holds.foldl {items : StreamItems} {texts : List Bytes} (h : Holds items texts)
    (next : List Bytes) : Holds (next.foldl StreamItems.pushToken items) (texts ++ next) := by
  induction next generalizing items texts with
  | nil => rwa [List.append_nil]
  | cons text next ih =>
      have hrest := ih (h.pushToken text)
      rwa [List.append_assoc] at hrest

end StreamItems

/-- `parse_json_pointer` inverts the rendering, accepts exactly the texts whose tildes are escaped behind
a leading slash, and loses nothing of them; the prefix of `StreamReader::items` accepts the same texts
and holds the same tokens. -/
theorem pointer_texts :
    (∀ tokens, parseJsonPointer (renderPointer tokens) = .ok tokens) ∧
    ∀ p, ((∃ tokens, parseJsonPointer p = .ok tokens) ↔
        p = [] ∨ (p.head? = some (ascii '/') ∧ TildesEscaped p)) ∧
      (∀ tokens, parseJsonPointer p = .ok tokens → renderPointer tokens = p) ∧
      ((∃ items, StreamItems.parsePrefix p = .ok items) ↔ ∃ tokens, parseJsonPointer p = .ok tokens) ∧
      ∀ items tokens, StreamItems.parsePrefix p = .ok items → parseJsonPointer p = .ok tokens →
        items.Holds tokens := by
  refine ⟨parseJsonPointer_renderPointer, fun p =>
    ⟨exists_parseJsonPointer_iff, fun _ => parseJsonPointer_iff.mp, ?_, ?_⟩⟩
  · constructor
    · intro ⟨items, hitems⟩
      obtain ⟨tokens, htokens, -⟩ := StreamItems.parsePrefix_iff.mp hitems
      exact ⟨tokens, htokens⟩
    · intro ⟨tokens, htokens⟩
      exact ⟨_, StreamItems.parsePrefix_iff.mpr ⟨tokens, htokens, rfl⟩⟩
  · intro items tokens hitems htokens
    obtain ⟨tokens', htokens', rfl⟩ := StreamItems.parsePrefix_iff.mp hitems
    rw [htokens] at htokens'
    cases htokens'
    have hempty : ({} : StreamItems).Holds [] := ⟨rfl, .nil⟩
    exact hempty.foldl tokens

theorem pointer_texts_escape :
    renderPointer [asciiBytes "~1", asciiBytes "a/b", []] = asciiBytes "/~01/a~1b/" :=
  (pointer_texts.2 (asciiBytes "/~01/a~1b/")).2.1 [asciiBytes "~1", asciiBytes "a/b", []]
    (by decide +kernel)

end PjhJson
