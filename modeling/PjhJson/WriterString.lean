import PjhJson.LibMask
import PjhJson.LibMemory
import PjhJson.Number

/-! `writer/string.cpp`: the escaping of a string, a SIMD batch at a time, and the ASCII form, which
decodes UTF-8 and escapes every code point beyond ASCII. -/

namespace PjhJson

/-- What the write functions share: the sink and the first failure of `DumpState`. -/
structure Writer where
  sink : Bytes := []
  error : Error := { code := .none }
  deriving DecidableEq, Repr

namespace Writer

def failed (w : Writer) : Bool := w.error.code != .none

def append (text : Bytes) : Prog Writer Unit := .modify fun w => { w with sink := w.sink ++ text }

/-- `st.fail(code); return false;` The first failure wins. -/
def fail {α : Type} (code : ErrorCode) : Prog Writer α := do
  .modify fun w => if w.failed then w else { w with error := { code, category := .json } }
  .halt

/-- `HEX`. -/
def kHex : Bytes := asciiBytes "0123456789abcdef"

def hexDigit (n : Nat) : UInt8 := kHex.getD n 0

/-- What `append_escape` appends. -/
def escapeText (c : UInt8) : Bytes :=
  if c = ascii '"' then asciiBytes "\\\""
  else if c = ascii '\\' then asciiBytes "\\\\"
  else if c = 0x08 then asciiBytes "\\b"
  else if c = 0x0C then asciiBytes "\\f"
  else if c = 0x0A then asciiBytes "\\n"
  else if c = 0x0D then asciiBytes "\\r"
  else if c = 0x09 then asciiBytes "\\t"
  else asciiBytes "\\u00" ++ [hexDigit ((c.toNat >>> 4) &&& 0xF), hexDigit (c.toNat &&& 0xF)]

/-- `append_escape`. -/
def appendEscape (c : UInt8) : Prog Writer Unit := append (escapeText c)

/-- What `append_u4` appends; `v` has 16 bits. -/
def u4Text (v : Nat) : Bytes :=
  asciiBytes "\\u" ++ [hexDigit ((v >>> 12) &&& 0xF), hexDigit ((v >>> 8) &&& 0xF),
    hexDigit ((v >>> 4) &&& 0xF), hexDigit (v &&& 0xF)]

/-- `append_u4`. -/
def appendU4 (v : Nat) : Prog Writer Unit := append (u4Text v)

/-- `c < 0x20 || c == '"' || c == '\\'`. -/
def needsEscape (c : UInt8) : Bool := c < 0x20 || c == ascii '"' || c == ascii '\\'

/-! ### The ASCII form -/

/-- The length of the sequence that a lead byte begins, and the bits it carries. -/
def leadBits (c : UInt8) : Option (Nat × Nat) :=
  if c &&& 0xE0 = 0xC0 then some (2, (c &&& 0x1F).toNat)
  else if c &&& 0xF0 = 0xE0 then some (3, (c &&& 0x0F).toNat)
  else if c &&& 0xF8 = 0xF0 then some (4, (c &&& 0x07).toNat)
  else none

/-- The loop over the `n` continuation bytes. -/
def joinContinuations : Nat → Nat → Bytes → Res ErrorCode Nat
  | 0, cp, _ => .ok cp
  | _ + 1, _, [] => .stuck
  | n + 1, cp, c :: p =>
    if c &&& 0xC0 ≠ 0x80 then .error .utf8InvalidContinuation
    else joinContinuations n ((cp <<< 6) ||| (c &&& 0x3F).toNat) p

/-- The ranges of RFC 3629. -/
def checkCodePoint (len cp : Nat) : Res ErrorCode Unit :=
  if len = 2 ∧ cp < 0x80 then .error .utf8Overlong
  else if len = 3 ∧ cp < 0x800 then .error .utf8Overlong
  else if len = 4 ∧ cp < 0x10000 then .error .utf8Overlong
  else if 0x10FFFF < cp then .error .utf8ExceedsMax
  else if 0xD800 ≤ cp ∧ cp ≤ 0xDFFF then .error .utf8Surrogate
  else .ok ()

/-- The code point of the sequence at `c :: p`, a byte beyond ASCII, and its length. -/
def decodeSequence (c : UInt8) (p : Bytes) : Res ErrorCode (Nat × Nat) :=
  match leadBits c with
  | none => .error .utf8InvalidLead
  | some (len, bits) =>
    if p.length + 1 < len then .error .utf8Truncated
    else do
      let cp ← joinContinuations (len - 1) bits p
      checkCodePoint len cp
      .ok (cp, len)

/-- A code point as one escape, or as a surrogate pair. -/
def appendCodePoint (cp : Nat) : Prog Writer Unit :=
  if cp ≤ 0xFFFF then appendU4 cp
  else do
    let cp := cp - 0x10000
    appendU4 (0xD800 + (cp >>> 10))
    appendU4 (0xDC00 + (cp &&& 0x3FF))

/-- `write_escaped_ascii`. -/
def writeEscapedAscii : Nat → Bytes → Prog Writer Unit
  | 0, _ => .stuck
  | _ + 1, [] => pure ()
  | fuel + 1, c :: p =>
    if needsEscape c then do
      appendEscape c
      writeEscapedAscii fuel p
    else if c < 0x80 then do
      append [c]
      writeEscapedAscii fuel p
    else
      match decodeSequence c p with
      | .ok (cp, len) => do
        appendCodePoint cp
        writeEscapedAscii fuel ((c :: p).drop len)
      | .error code => fail code
      | .stuck => .stuck

/-! ### The batch scan -/

/-- `if (upTo > run) sink.append(run, upTo - run);` -/
def appendRun (s : Bytes) (run upTo : Nat) : Prog Writer Unit :=
  if run < upTo then append (Memory.slice s run (upTo - run)) else pure ()

/-- `matches.mask()`, cut to the lanes of the batch. -/
def hitMask (width : Nat) (lanes : Bytes) : Nat :=
  let mask := Mask.ofLanes (lanes.map needsEscape)
  if width < 64 then mask &&& (2 ^ width - 1) else mask

/-- The loop over the hits of the batch at `curr`; the result is where the next clean run starts. -/
def writeHits (s : Bytes) (curr : Nat) : Nat → Nat → Nat → Prog Writer Nat
  | 0, _, _ => .stuck
  | fuel + 1, mask, run =>
    if mask = 0 then pure run
    else
      let hit := curr + Mask.countrZero mask
      match s[hit]? with
      | none => .stuck
      | some c => do
        appendRun s run hit
        appendEscape c
        writeHits s curr fuel (Mask.clearLowest mask) (hit + 1)

/-- Phase 1, over the full batches; the result is the cursor and where the clean run starts. -/
def scanBatches (width : Nat) (s : Bytes) : Nat → Nat → Nat → Prog Writer (Nat × Nat)
  | 0, _, _ => .stuck
  | fuel + 1, curr, run =>
    if curr + width ≤ s.length then do
      let run ← writeHits s curr 65 (hitMask width (Memory.slice s curr width)) run
      scanBatches width s fuel (curr + width) run
    else pure (curr, run)

/-- Phase 2, over the bytes behind the last full batch. -/
def scanTail (s : Bytes) : Nat → Nat → Nat → Prog Writer Nat
  | 0, _, _ => .stuck
  | fuel + 1, curr, run =>
    match s[curr]? with
    | none => pure run
    | some c =>
      if needsEscape c then do
        appendRun s run curr
        appendEscape c
        scanTail s fuel (curr + 1) (curr + 1)
      else scanTail s fuel (curr + 1) run

/-- `write_escaped_impl`. -/
def writeEscapedImpl (platform : Platform) (s : Bytes) (ascii : Bool) : Prog Writer Unit := do
  append [PjhJson.ascii '"']
  if ascii then
    writeEscapedAscii (s.length + 1) s
    append [PjhJson.ascii '"']
  else
    let (curr, run) ← scanBatches platform.batch s (s.length + 1) 0 0
    let run ← scanTail s (s.length + 1) curr run
    appendRun s run s.length
    append [PjhJson.ascii '"']

/-! ### Escaping byte by byte -/

/-- The seven bytes with an escape of their own. -/
def namedEscapes : List (UInt8 × UInt8) :=
  [(ascii '"', ascii '"'), (ascii '\\', ascii '\\'), (0x08, ascii 'b'), (0x0C, ascii 'f'),
    (0x0A, ascii 'n'), (0x0D, ascii 'r'), (0x09, ascii 't')]

/-- The escaped form of a byte: the named escapes, `\u00xx` for the other control bytes, and the byte
itself from the space on. -/
def esc (b : UInt8) : Bytes :=
  match namedEscapes.lookup b with
  | some letter => [ascii '\\', letter]
  | none =>
    if b < 0x20 then
      asciiBytes "\\u00" ++ [hexDigit (b.toNat / 16), hexDigit (b.toNat % 16)]
    else [b]

theorem hexDigit_nibbles (c : UInt8) : hexDigit ((c.toNat >>> 4) &&& 0xF) = hexDigit (c.toNat / 16) ∧
    hexDigit (c.toNat &&& 0xF) = hexDigit (c.toNat % 16) := by
  have hlt := c.toNat_lt
  have hhigh : (c.toNat >>> 4) &&& 0xF = c.toNat / 16 := by
    change (c.toNat >>> 4) &&& (2 ^ 4 - 1) = _
    rw [Nat.and_two_pow_sub_one_eq_mod, Nat.shiftRight_eq_div_pow]
    omega
  have hlow : c.toNat &&& 0xF = c.toNat % 16 := Nat.and_two_pow_sub_one_eq_mod c.toNat 4
  rw [hhigh, hlow]
  exact ⟨rfl, rfl⟩

/-- `append_escape` writes the escaped form of the bytes that need one. -/
theorem escapeText_eq {c : UInt8} (h : needsEscape c = true) : escapeText c = esc c := by
  unfold escapeText esc namedEscapes
  simp only [List.lookup_cons, List.lookup_nil]
  by_cases hquote : c = ascii '"'
  · subst hquote; decide +kernel
  by_cases hbackslash : c = ascii '\\'
  · subst hbackslash; decide +kernel
  by_cases h8 : c = 0x08
  · subst h8; decide +kernel
  by_cases hC : c = 0x0C
  · subst hC; decide +kernel
  by_cases hA : c = 0x0A
  · subst hA; decide +kernel
  by_cases hD : c = 0x0D
  · subst hD; decide +kernel
  by_cases h9 : c = 0x09
  · subst h9; decide +kernel
  have hcontrol : c < 0x20 := by
    simpa [needsEscape, hquote, hbackslash] using h
  simp only [hquote, hbackslash, h8, hC, hA, hD, h9, beq_false_of_ne, ne_eq, not_false_eq_true,
    if_false, hcontrol, if_true, hexDigit_nibbles]

/-- The other bytes are their own escaped form. -/
theorem esc_plain {c : UInt8} (h : needsEscape c = false) : esc c = [c] := by
  have hparts : ¬c < 0x20 ∧ c ≠ ascii '"' ∧ c ≠ ascii '\\' := by
    simpa [needsEscape, and_assoc] using h
  have hne : ∀ other : UInt8, other < 0x20 → c ≠ other := fun other hlt heq => hparts.1 (heq ▸ hlt)
  unfold esc namedEscapes
  simp only [List.lookup_cons, List.lookup_nil]
  simp only [hparts.1, hparts.2.1, hparts.2.2, hne 0x08 (by decide), hne 0x0C (by decide),
    hne 0x0A (by decide), hne 0x0D (by decide), hne 0x09 (by decide), beq_false_of_ne, ne_eq,
    not_false_eq_true, if_false]

/-! ### Clean runs -/

section Runs

variable {s : Bytes} {run upTo : Nat}

/-- The bytes from `run` up to `upTo` need no escape. -/
def Clean (s : Bytes) (run upTo : Nat) : Prop :=
  ∀ i c, run ≤ i → i < upTo → s[i]? = some c → needsEscape c = false

theorem take_run (hle : run ≤ upTo) : s.take upTo = s.take run ++ Memory.slice s run (upTo - run) := by
  obtain ⟨k, rfl⟩ := Nat.exists_eq_add_of_le hle
  rw [List.take_add, Memory.slice, Nat.add_sub_cancel_left]

/-- A clean run is copied as it is. -/
theorem flatMap_run (hclean : Clean s run upTo) (hle : run ≤ upTo) :
    (s.take upTo).flatMap esc = (s.take run).flatMap esc ++ Memory.slice s run (upTo - run) := by
  have hcopy : ∀ text : Bytes, (∀ c ∈ text, needsEscape c = false) → text.flatMap esc = text := by
    intro text htext
    induction text with
    | nil => rfl
    | cons c text ih =>
        rw [List.forall_mem_cons] at htext
        rw [List.flatMap_cons, esc_plain htext.1, ih htext.2, List.singleton_append]
  rw [take_run hle, List.flatMap_append, hcopy (Memory.slice s run (upTo - run))]
  intro c hc
  obtain ⟨i, hi⟩ := List.getElem?_of_mem hc
  have hlt : i < upTo - run := by
    by_contra hge
    rw [Memory.slice, List.getElem?_take_eq_none (by omega)] at hi
    cases hi
  rw [Memory.slice, List.getElem?_take_of_lt hlt, List.getElem?_drop] at hi
  exact hclean (run + i) c (by omega) (by omega) hi

/-- What the sink holds while a string is written: the bytes before `run`, escaped. -/
def Wrote (w₀ : Writer) (s : Bytes) (run : Nat) (w : Writer) : Prop :=
  w = { w₀ with sink := w₀.sink ++ (s.take run).flatMap esc }

variable {w₀ w : Writer}

/-- Copying a clean run brings the sink up to its end. -/
theorem appendRun_spec (h : Wrote w₀ s run w) (hclean : Clean s run upTo) (hle : run ≤ upTo) :
    ∃ w', appendRun s run upTo w = .ok ((), w') ∧ Wrote w₀ s upTo w' := by
  have hflat := flatMap_run hclean hle
  unfold Wrote at h ⊢
  unfold appendRun
  split
  · refine ⟨_, rfl, ?_⟩
    rw [h, hflat]
    dsimp only
    rw [List.append_assoc]
  · obtain rfl : run = upTo := by omega
    exact ⟨w, rfl, h⟩

theorem appendEscape_spec {c : UInt8} (h : Wrote w₀ s run w) (hget : s[run]? = some c)
    (hc : needsEscape c = true) : ∃ w', appendEscape c w = .ok ((), w') ∧ Wrote w₀ s (run + 1) w' := by
  unfold Wrote at h ⊢
  refine ⟨_, rfl, ?_⟩
  rw [h, escapeText_eq hc, List.take_add_one, hget, List.flatMap_append]
  simp

/-- One hit: the clean run before it, and its escape. -/
theorem escapeAt_spec {c : UInt8} (h : Wrote w₀ s run w) (hclean : Clean s run upTo)
    (hle : run ≤ upTo) (hget : s[upTo]? = some c) (hc : needsEscape c = true) {α : Type}
    (next : Prog Writer α) : ∃ w', (do appendRun s run upTo; appendEscape c; next) w = next w' ∧
      Wrote w₀ s (upTo + 1) w' := by
  obtain ⟨w₁, hrun, hw₁⟩ := appendRun_spec h hclean hle
  obtain ⟨w₂, hescape, hw₂⟩ := appendEscape_spec hw₁ hget hc
  refine ⟨w₂, ?_, hw₂⟩
  rw [Prog.bind_of_ok hrun, Prog.bind_of_ok hescape]

/-! ### Batches -/

/-- The set bits of a mask are the hits of the batch at `curr` that are still to be written. -/
def Marks (s : Bytes) (width curr run mask : Nat) : Prop :=
  ∀ i, mask.testBit i = true ↔
    i < width ∧ run ≤ curr + i ∧ ∃ c, s[curr + i]? = some c ∧ needsEscape c = true

theorem hitMask_lt {width : Nat} (hwidth : width ≤ 64) (lanes : Bytes) (hlanes : lanes.length ≤ width) :
    hitMask width lanes < 2 ^ 64 := by
  have hmask : Mask.ofLanes (lanes.map needsEscape) < 2 ^ 64 :=
    (Mask.ofLanes_lt _).trans_le (Nat.pow_le_pow_right (by decide) (by
      rw [List.length_map]
      omega))
  unfold hitMask
  split
  · exact Nat.lt_of_le_of_lt Nat.and_le_left hmask
  · exact hmask

theorem marks_hitMask {width curr : Nat} (hrun : run ≤ curr) :
    Marks s width curr run (hitMask width (Memory.slice s curr width)) := by
  intro i
  have hlanes : (Mask.ofLanes ((Memory.slice s curr width).map needsEscape)).testBit i = true ↔
      i < width ∧ ∃ c, s[curr + i]? = some c ∧ needsEscape c = true := by
    rw [Mask.testBit_ofLanes, List.getElem?_map, Memory.slice]
    by_cases hi : i < width
    · rw [List.getElem?_take_of_lt hi, List.getElem?_drop]
      cases s[curr + i]? with
      | none => simp
      | some c => simp [hi]
    · rw [List.getElem?_take_eq_none (by omega)]
      simp [hi]
  unfold hitMask
  split
  · rw [Nat.testBit_and, Nat.testBit_two_pow_sub_one, Bool.and_eq_true, hlanes, decide_eq_true_eq]
    constructor
    · exact fun h => ⟨h.2, by omega, h.1.2⟩
    · exact fun h => ⟨⟨h.1, h.2.2⟩, h.1⟩
  · rw [hlanes]
    exact ⟨fun h => ⟨h.1, by omega, h.2⟩, fun h => ⟨h.1, h.2.2⟩⟩

/-- The hits of a batch are written in order, each with the clean run before it. -/
theorem writeHits_spec {width curr mask : Nat} (fuel : Nat) (h : Wrote w₀ s run w)
    (hmarks : Marks s width curr run mask) (hlt : mask < 2 ^ 64) (hrun : run ≤ curr + width)
    (hclean : Clean s run curr) (hfuel : curr + width < max run curr + fuel) :
    ∃ run' w', writeHits s curr fuel mask run w = .ok (run', w') ∧ Wrote w₀ s run' w' ∧
      run ≤ run' ∧ run' ≤ curr + width ∧ Clean s run' (curr + width) := by
  induction fuel generalizing mask run w with
  | zero => omega
  | succ fuel ih =>
      by_cases hzero : mask = 0
      · refine ⟨run, w, by rw [writeHits, if_pos hzero]; rfl, h, Nat.le_refl _, hrun, ?_⟩
        intro i c hi hi' hget
        by_cases hbefore : i < curr
        · exact hclean i c hi hbefore hget
        · have hbit : mask.testBit (i - curr) = false := by rw [hzero, Nat.zero_testBit]
          have hnot := (hmarks (i - curr)).not.mp (by rw [hbit]; decide)
          rw [show curr + (i - curr) = i by omega] at hnot
          cases hc : needsEscape c with
          | false => rfl
          | true => exact absurd ⟨by omega, hi, c, hget, hc⟩ hnot
      · obtain ⟨hbit, hbelow⟩ := Mask.countrZero_spec hzero hlt
        obtain ⟨hlane, hge, c, hget, hc⟩ := (hmarks _).mp hbit
        have hcleanHit : Clean s run (curr + Mask.countrZero mask) := by
          intro i d hi hi' hd
          by_cases hbefore : i < curr
          · exact hclean i d hi hbefore hd
          · have hfalse := hbelow (i - curr) (by omega)
            have hnot := (hmarks (i - curr)).not.mp (by rw [hfalse]; decide)
            rw [show curr + (i - curr) = i by omega] at hnot
            cases hneeds : needsEscape d with
            | false => rfl
            | true => exact absurd ⟨by omega, hi, d, hd, hneeds⟩ hnot
        obtain ⟨w₁, hstep, hw₁⟩ := escapeAt_spec h hcleanHit hge hget hc
          (writeHits s curr fuel (Mask.clearLowest mask) (curr + Mask.countrZero mask + 1))
        have hmarks' : Marks s width curr (curr + Mask.countrZero mask + 1)
            (Mask.clearLowest mask) := by
          intro i
          rw [Mask.testBit_clearLowest hbit hbelow, Bool.and_eq_true, hmarks, decide_eq_true_eq]
          constructor
          · rintro ⟨⟨hi, hrun, hhit⟩, hne⟩
            refine ⟨hi, ?_, hhit⟩
            have hset : mask.testBit i = true := (hmarks i).mpr ⟨hi, hrun, hhit⟩
            by_contra hlow
            rw [hbelow i (by omega)] at hset
            cases hset
          · rintro ⟨hi, hrun, hhit⟩
            exact ⟨⟨hi, by omega, hhit⟩, by omega⟩
        obtain ⟨run', w', hrest, hw', hle, hle', hclean'⟩ := ih hw₁ hmarks' (Mask.clearLowest_lt hlt)
          (by omega) (fun i d hi hi' => by omega) (by omega)
        refine ⟨run', w', ?_, hw', by omega, hle', hclean'⟩
        rw [writeHits, if_neg hzero]
        simp only [hget]
        rw [hstep, hrest]

theorem scanBatches_spec {width curr : Nat} (fuel : Nat) (hwidth : 0 < width) (hmax : width ≤ 64)
    (h : Wrote w₀ s run w) (hrun : run ≤ curr) (hcurr : curr ≤ s.length) (hclean : Clean s run curr)
    (hfuel : s.length < curr + fuel) :
    ∃ curr' run' w', scanBatches width s fuel curr run w = .ok ((curr', run'), w') ∧
      Wrote w₀ s run' w' ∧ run' ≤ curr' ∧ curr' ≤ s.length ∧ Clean s run' curr' := by
  induction fuel generalizing curr run w with
  | zero => omega
  | succ fuel ih =>
      rw [scanBatches]
      by_cases hroom : curr + width ≤ s.length
      · have hlanes : (Memory.slice s curr width).length ≤ width := List.length_take_le _ _
        obtain ⟨run', w', hhits, hw', -, hle, hclean'⟩ := writeHits_spec 65 h
          (marks_hitMask hrun) (hitMask_lt hmax _ hlanes) (by omega) hclean (by omega)
        rw [if_pos hroom, Prog.bind_of_ok hhits]
        exact ih hw' hle hroom hclean' (by omega)
      · rw [if_neg hroom]
        exact ⟨curr, run, w, rfl, h, hrun, hcurr, hclean⟩

theorem scanTail_spec {curr : Nat} (fuel : Nat) (h : Wrote w₀ s run w) (hrun : run ≤ curr)
    (hcurr : curr ≤ s.length) (hclean : Clean s run curr) (hfuel : s.length < curr + fuel) :
    ∃ run' w', scanTail s fuel curr run w = .ok (run', w') ∧ Wrote w₀ s run' w' ∧
      run' ≤ s.length ∧ Clean s run' s.length := by
  induction fuel generalizing curr run w with
  | zero => omega
  | succ fuel ih =>
      rw [scanTail]
      cases hget : s[curr]? with
      | none =>
          obtain rfl : curr = s.length := by
            have := List.getElem?_eq_none_iff.mp hget
            omega
          exact ⟨run, w, rfl, h, hrun, hclean⟩
      | some c =>
          have hlt := (List.getElem?_eq_some_iff.mp hget).1
          dsimp only
          by_cases hc : needsEscape c = true
          · obtain ⟨w₁, hstep, hw₁⟩ := escapeAt_spec h hclean hrun hget hc
              (scanTail s fuel (curr + 1) (curr + 1))
            rw [if_pos hc, hstep]
            exact ih hw₁ (Nat.le_refl _) (by omega) (fun i d hi hi' => by omega) (by omega)
          · rw [if_neg hc]
            refine ih h (by omega) (by omega) (fun i d hi hi' hd => ?_) (by omega)
            by_cases hlast : i = curr
            · rw [hlast, hget] at hd
              cases hd
              simpa using hc
            · exact hclean i d hi (by omega) hd

end Runs

/-- A string is written as its bytes are escaped one by one, for every batch width, and what the sink
held stays in front of it. -/
theorem writeEscapedImpl_eq (platform : Platform) (s : Bytes) (w : Writer) :
    writeEscapedImpl platform s false w =
      .ok ((), { w with sink := w.sink ++ (ascii '"' :: (s.flatMap esc ++ [ascii '"'])) }) := by
  have hstart : Wrote { w with sink := w.sink ++ [ascii '"'] } s 0
      { w with sink := w.sink ++ [ascii '"'] } := by
    rw [Wrote, List.take_zero, List.flatMap_nil, List.append_nil]
  obtain ⟨curr, run, w₁, hbatches, hw₁, hrun, hcurr, hclean⟩ :=
    scanBatches_spec (s.length + 1) platform.batch_pos platform.batch_le hstart
      (Nat.le_refl 0) (Nat.zero_le _) (fun i c hi hi' => by omega) (by omega)
  obtain ⟨run', w₂, htail, hw₂, hrun', hclean'⟩ :=
    scanTail_spec (s.length + 1) hw₁ hrun hcurr hclean (by omega)
  obtain ⟨w₃, hlast, hw₃⟩ := appendRun_spec hw₂ hclean' hrun'
  rw [writeEscapedImpl, Prog.bind_of_ok (show append [ascii '"'] w = .ok ((), _) from rfl)]
  rw [if_neg (by decide), Prog.bind_of_ok hbatches]
  dsimp only
  rw [Prog.bind_of_ok htail, Prog.bind_of_ok hlast]
  rw [Wrote, List.take_length] at hw₃
  rw [hw₃]
  simp [append, List.append_assoc]

end Writer

end PjhJson
