import PjhJson.LibPositional
import PjhJson.LibScanner
import PjhJson.ParserEntry

/-! `parse_path`, which compiles a dotted and bracketed path into hops, and the grammar that its
declaration documents. -/

namespace PjhJson

open Grammar Scanner

/-- `PathStep`: a key or an array index. -/
inductive PathStep where
  | key (name : Bytes)
  | index (idx : Nat)
  deriving DecidableEq, Repr

abbrev Path := List PathStep

/-- The `std::invalid_argument` that `parse_path` throws. -/
inductive PathError where
  | boundaryDot
  | indexOverflow
  | emptyIndex
  | invalidIndex
  | junkAfterBracket
  deriving DecidableEq, Repr

/-- `what()`. -/
def PathError.what : PathError → String
  | boundaryDot => "path: boundary '.'"
  | indexOverflow => "path: index overflow"
  | emptyIndex => "path: empty index"
  | invalidIndex => "path: invalid index"
  | junkAfterBracket => "path: junk after bracket"

/-- `size_t(c - '0')`. -/
def digitOf (c : UInt8) : Nat := c.toNat - 48

/-- `(SIZE_MAX - 9) / 10`, which an index may not exceed when another digit follows. -/
def kIndexGuard : Nat := (kSizeMax - 9) / 10

namespace PathParser

/-- `*p != '.' && *p != '['`. -/
def inKey (c : UInt8) : Bool := c != ascii '.' && c != ascii '['

/-- The digit loop of a bracket: the index, and what follows the digits. -/
def readDigits (idx : Nat) : Bytes → Except PathError (Nat × Bytes)
  | [] => .ok (idx, [])
  | c :: p =>
    if isDigit c then
      if kIndexGuard < idx then .error .indexOverflow
      else readDigits ((idx * 10 + digitOf c) % (kSizeMax + 1)) p
    else .ok (idx, c :: p)

/-- One bracket, behind its `[`. -/
def readBracket (digits : Bytes) : Except PathError (Nat × Bytes) := do
  let (idx, p) ← readDigits 0 digits
  if p.length = digits.length then .error .emptyIndex
  else
    match p with
    | [] => .error .invalidIndex
    | c :: p => if c = ascii ']' then .ok (idx, p) else .error .invalidIndex

/-- The bracket loop of a segment. -/
def brackets : Nat → Bytes → Path → Res PathError (Path × Bytes)
  | 0, _, _ => .stuck
  | fuel + 1, p, steps =>
    match p with
    | [] => .ok (steps, p)
    | c :: digits =>
      if c = ascii '[' then
        match readBracket digits with
        | .ok (idx, p) => brackets fuel p (steps ++ [.index idx])
        | .error e => .error e
      else .ok (steps, p)

/-- The loop over the segments. -/
def segments : Nat → Bool → Bytes → Path → Res PathError Path
  | 0, _, _, _ => .stuck
  | fuel + 1, viaDot, p, steps =>
    if p = [] then .ok steps
    else
      let seg := p.takeWhile inKey
      let steps := if seg ≠ [] ∨ viaDot then steps ++ [.key seg] else steps
      match brackets (p.length + 1) (p.dropWhile inKey) steps with
      | .ok (steps, []) => segments fuel false [] steps
      | .ok (steps, c :: p) =>
        if c ≠ ascii '.' then .error .junkAfterBracket else segments fuel true p steps
      | .error e => .error e
      | .stuck => .stuck

end PathParser

/-- `parse_path`. -/
def parsePath (path : Bytes) : Res PathError Path :=
  if path = [] then .ok []
  else if path.head? = some (ascii '.') ∨ path.getLast? = some (ascii '.') then
    .error .boundaryDot
  else PathParser.segments (path.length + 1) false path []

/-! ### The documented grammar -/

namespace PathGrammar

/-- The number that a digit word denotes. -/
def number (digits : Bytes) : Nat := Positional.value 10 digitOf digits

/-- `segment = key bracket*`, each bracket by its digits. -/
structure Segment where
  key : Bytes
  brackets : List Bytes

/-- `'[' digits ']'`. -/
def bracketText (digits : Bytes) : Bytes := ascii '[' :: (digits ++ [ascii ']'])

/-- `digits = [0-9]+`, of a value up to `bound`. -/
structure IsIndex (bound : Nat) (digits : Bytes) : Prop where
  nonempty : digits ≠ []
  digit : ∀ c ∈ digits, isDigit c = true
  le : number digits ≤ bound

namespace Segment

variable (segment : Segment)

structure WellFormed (bound : Nat) : Prop where
  key : ∀ c ∈ segment.key, PathParser.inKey c = true
  brackets : ∀ digits ∈ segment.brackets, IsIndex bound digits

def text : Bytes := segment.key ++ segment.brackets.flatMap bracketText

/-- The index hops of a segment. -/
def indices : Path := segment.brackets.map fun digits => .index (number digits)

/-- The hops of the first segment of a path: an empty key is no hop. -/
def hopsFirst : Path := (if segment.key = [] then [] else [.key segment.key]) ++ segment.indices

/-- The hops of a segment that was reached through a `.`. -/
def hops : Path := .key segment.key :: segment.indices

end Segment

/-- `segment ('.' segment)*`. -/
def text (first : Segment) (rest : List Segment) : Bytes :=
  first.text ++ rest.flatMap fun segment => ascii '.' :: segment.text

/-- What the grammar makes of a path: the empty path has no hops, and a path neither begins nor ends
with a `.`. -/
inductive Denotes (bound : Nat) : Bytes → Path → Prop
  | root : Denotes bound [] []
  | path (first : Segment) (rest : List Segment) :
      (∀ segment ∈ first :: rest, segment.WellFormed bound) →
      (text first rest).head? ≠ some (ascii '.') → (text first rest).getLast? ≠ some (ascii '.') →
      Denotes bound (text first rest) (first.hopsFirst ++ rest.flatMap Segment.hops)

end PathGrammar

/-! ### The overflow guard -/

namespace PathParser

open PathGrammar

/-- The largest index that the guard lets through. -/
def kMaxIndex : Nat := kSizeMax - 6

theorem isDigit_bounds {c : UInt8} (h : isDigit c = true) : digitOf c ≤ 9 := by
  rw [isDigit, Bool.and_eq_true, decide_eq_true_eq, decide_eq_true_eq] at h
  have hle : c.toNat ≤ 57 := UInt8.le_iff_toNat_le.mp h.2
  rw [digitOf]
  omega

/-- What the digits read so far and the digits ahead denote together. -/
def ahead (idx : Nat) (digits : Bytes) : Nat := digits.foldl (fun v c => v * 10 + digitOf c) idx

theorem le_ahead (idx : Nat) (digits : Bytes) : idx ≤ ahead idx digits := by
  rw [ahead, Positional.foldl_value]
  exact Nat.le_add_right_of_le (Nat.le_mul_of_pos_right _ (Nat.pow_pos (by decide)))

/-- The guard stops exactly the numbers above `kMaxIndex`: it lets a further digit through as long
as no digit can carry the index past it. -/
theorem readDigits_run {digits rest : Bytes} (hdigits : ∀ c ∈ digits, isDigit c = true)
    (hrest : Stops isDigit rest) {idx : Nat} (hidx : idx ≤ kMaxIndex) :
    readDigits idx (digits ++ rest) =
      if ahead idx digits ≤ kMaxIndex then .ok (ahead idx digits, rest)
      else .error .indexOverflow := by
  induction digits generalizing idx with
  | nil =>
      have hstop : readDigits idx rest = .ok (idx, rest) := by
        cases rest with
        | nil => rfl
        | cons c rest => rw [readDigits, if_neg (by simp [stops_cons.mp hrest])]
      rw [List.nil_append, hstop]
      exact (if_pos hidx).symm
  | cons c digits ih =>
      rw [List.forall_mem_cons] at hdigits
      have hdigit := isDigit_bounds hdigits.1
      have hnext : ahead idx (c :: digits) = ahead (idx * 10 + digitOf c) digits := rfl
      have hle := le_ahead (idx * 10 + digitOf c) digits
      rw [List.cons_append, readDigits, if_pos hdigits.1, hnext]
      unfold kMaxIndex kIndexGuard kSizeMax at *
      by_cases hguard : (2 ^ 64 - 1 - 9) / 10 < idx
      · rw [if_pos hguard, if_neg (by omega)]
      · rw [if_neg hguard, Nat.mod_eq_of_lt (by omega)]
        exact ih hdigits.2 (by omega)

theorem readBracket_bracketText {digits rest : Bytes} (h : IsIndex kMaxIndex digits) :
    readBracket (digits ++ ascii ']' :: rest) = .ok (number digits, rest) := by
  have hrun := readDigits_run h.digit (stops_cons.mpr (by decide) : Stops isDigit (ascii ']' :: rest))
    (Nat.zero_le kMaxIndex)
  have hlength : digits.length ≠ 0 := fun hzero => h.nonempty (List.length_eq_zero_iff.mp hzero)
  rw [if_pos (show ahead 0 digits ≤ kMaxIndex from h.le)] at hrun
  rw [readBracket, hrun]
  change (if (ascii ']' :: rest).length = (digits ++ ascii ']' :: rest).length then _ else _) = _
  rw [if_neg (by rw [List.length_append]; omega)]
  rfl

theorem readBracket_ok {p rest : Bytes} {idx : Nat} (h : readBracket p = .ok (idx, rest)) :
    ∃ digits, p = digits ++ ascii ']' :: rest ∧ IsIndex kMaxIndex digits ∧ idx = number digits := by
  obtain ⟨digits, tail, rfl, hdigits, htail⟩ := exists_run isDigit p
  have hrun := readDigits_run hdigits htail (Nat.zero_le kMaxIndex)
  rw [readBracket, hrun] at h
  split at h
  · rename_i hle
    change (if tail.length = (digits ++ tail).length then _ else _) = _ at h
    split at h
    · cases h
    · rename_i hlength
      have hne : digits ≠ [] := by
        intro hnil
        exact hlength (by rw [hnil, List.nil_append])
      cases tail with
      | nil => cases h
      | cons c tail =>
          change (if c = ascii ']' then _ else _) = _ at h
          split at h
          · rename_i hc
            cases h
            exact ⟨digits, by rw [hc], ⟨hne, hdigits, hle⟩, rfl⟩
          · cases h
  · cases h

/-! ### Brackets and segments -/

/-- The bytes that end the brackets of a segment. -/
def NoBracket (rest : Bytes) : Prop := rest.head? ≠ some (ascii '[')

theorem brackets_run {words : List Bytes} {rest : Bytes}
    (hwords : ∀ digits ∈ words, IsIndex kMaxIndex digits) (hrest : NoBracket rest) {fuel : Nat}
    (hfuel : (words.flatMap bracketText ++ rest).length < fuel) (steps : Path) :
    brackets fuel (words.flatMap bracketText ++ rest) steps =
      .ok (steps ++ words.map fun digits => .index (number digits), rest) := by
  induction words generalizing fuel steps with
  | nil =>
      obtain ⟨fuel, rfl⟩ : ∃ n, fuel = n + 1 := ⟨fuel - 1, by omega⟩
      cases rest with
      | nil => simp [brackets]
      | cons c rest =>
          have hc : c ≠ ascii '[' := fun heq => hrest (by rw [heq]; rfl)
          simp [brackets, hc]
  | cons digits words ih =>
      rw [List.forall_mem_cons] at hwords
      obtain ⟨fuel, rfl⟩ : ∃ n, fuel = n + 1 := ⟨fuel - 1, by omega⟩
      have hcons : (digits :: words).flatMap bracketText ++ rest =
          ascii '[' :: (digits ++ ascii ']' :: (words.flatMap bracketText ++ rest)) := by
        simp [List.flatMap_cons, bracketText]
      rw [hcons] at hfuel ⊢
      rw [brackets, if_pos rfl, readBracket_bracketText hwords.1]
      dsimp only
      rw [ih hwords.2 (by simp only [List.length_cons, List.length_append] at hfuel ⊢; omega),
        List.append_assoc, List.map_cons, List.singleton_append]

theorem brackets_ok {fuel : Nat} {p rest : Bytes} {steps steps' : Path}
    (h : brackets fuel p steps = .ok (steps', rest)) :
    ∃ words : List Bytes, p = words.flatMap bracketText ++ rest ∧
      (∀ digits ∈ words, IsIndex kMaxIndex digits) ∧ NoBracket rest ∧
      steps' = steps ++ words.map fun digits => .index (number digits) := by
  induction fuel generalizing p steps with
  | zero => cases h
  | succ fuel ih =>
      cases p with
      | nil =>
          cases h
          exact ⟨[], rfl, by simp, by simp [NoBracket], by simp⟩
      | cons c p =>
          rw [brackets] at h
          split at h
          · rename_i hc
            cases hread : readBracket p with
            | error e => rw [hread] at h; cases h
            | ok result =>
                obtain ⟨idx, tail⟩ := result
                rw [hread] at h
                obtain ⟨digits, rfl, hindex, rfl⟩ := readBracket_ok hread
                obtain ⟨words, rfl, hwords, hrest, rfl⟩ := ih h
                refine ⟨digits :: words, ?_, List.forall_mem_cons.mpr ⟨hindex, hwords⟩, hrest, ?_⟩
                · simp [hc, bracketText]
                · simp
          · rename_i hc
            cases h
            refine ⟨[], rfl, by simp, fun hhead => hc ?_, by simp⟩
            exact Option.some.inj hhead

/-- With fuel for the bytes ahead, the bracket loop ends. -/
theorem brackets_ne_stuck {fuel : Nat} {p : Bytes} (hfuel : p.length < fuel) (steps : Path) :
    brackets fuel p steps ≠ .stuck := by
  induction fuel generalizing p steps with
  | zero => omega
  | succ fuel ih =>
      cases p with
      | nil => simp [brackets]
      | cons c p =>
          rw [brackets]
          split
          · cases hread : readBracket p with
            | error e => simp
            | ok result =>
                obtain ⟨digits, hp, -⟩ := readBracket_ok hread
                refine ih ?_ _
                rw [hp, List.length_cons, List.length_append, List.length_cons] at hfuel
                omega
          · simp

/-- The hops of a segment, by whether it was reached through a `.`. -/
def hopsOf (viaDot : Bool) (segment : Segment) : Path :=
  if viaDot then segment.hops else segment.hopsFirst

theorem brackets_segment {segment : Segment} {rest : Bytes} (hwell : segment.WellFormed kMaxIndex)
    (hrest : NoBracket rest) (hdot : Stops inKey rest) (viaDot : Bool) (steps : Path) :
    ∃ key tail, (segment.text ++ rest).takeWhile inKey = key ∧
      (segment.text ++ rest).dropWhile inKey = tail ∧
      brackets ((segment.text ++ rest).length + 1) tail
          (if key ≠ [] ∨ viaDot then steps ++ [.key key] else steps) =
        .ok (steps ++ hopsOf viaDot segment, rest) := by
  have hstops : Stops inKey (segment.brackets.flatMap bracketText ++ rest) := by
    cases hwords : segment.brackets with
    | nil => exact hdot
    | cons digits words => exact stops_cons.mpr (by decide)
  have htext : segment.text ++ rest =
      segment.key ++ (segment.brackets.flatMap bracketText ++ rest) := by
    rw [Segment.text, List.append_assoc]
  refine ⟨segment.key, segment.brackets.flatMap bracketText ++ rest, ?_, ?_, ?_⟩
  · rw [htext, takeWhile_run hwell.key hstops]
  · rw [htext, dropWhile_run hwell.key hstops]
  · rw [brackets_run hwell.brackets hrest (by rw [htext, @List.length_append _ segment.key]; omega)]
    cases viaDot with
    | true => simp [hopsOf, Segment.hops, Segment.indices]
    | false =>
        by_cases hkey : segment.key = []
        · simp [hopsOf, Segment.hopsFirst, Segment.indices, hkey]
        · simp [hopsOf, Segment.hopsFirst, Segment.indices, hkey]

theorem text_cons (first second : Segment) (rest : List Segment) :
    text first (second :: rest) = first.text ++ ascii '.' :: text second rest := by
  simp [text]

/-- A text without a final `.` goes on behind each `.`. -/
theorem ne_nil_of_getLast? {front p : Bytes}
    (h : (front ++ ascii '.' :: p).getLast? ≠ some (ascii '.')) : p ≠ [] := by
  intro hnil
  exact h (by rw [hnil, List.getLast?_append, List.getLast?_singleton]; rfl)

theorem getLast?_behind {front p : Bytes}
    (h : (front ++ ascii '.' :: p).getLast? ≠ some (ascii '.')) :
    p.getLast? ≠ some (ascii '.') := by
  intro hlast
  refine h ?_
  rw [List.getLast?_append, List.getLast?_cons, hlast]
  rfl

theorem segments_run {first : Segment} {rest : List Segment}
    (hwell : ∀ segment ∈ first :: rest, segment.WellFormed kMaxIndex)
    (hne : text first rest ≠ []) (hlast : (text first rest).getLast? ≠ some (ascii '.'))
    {fuel : Nat} (hfuel : (text first rest).length < fuel) (viaDot : Bool) (steps : Path) :
    segments fuel viaDot (text first rest) steps =
      .ok (steps ++ (hopsOf viaDot first ++ rest.flatMap Segment.hops)) := by
  induction rest generalizing first fuel viaDot steps with
  | nil =>
      obtain ⟨fuel, rfl⟩ : ∃ n, fuel = n + 1 := ⟨fuel - 1, by omega⟩
      have hpos := List.length_pos_iff.mpr hne
      obtain ⟨fuel, rfl⟩ : ∃ n, fuel = n + 1 := ⟨fuel - 1, by omega⟩
      obtain ⟨key, tail, hkey, htail, hrun⟩ := @brackets_segment first []
        (hwell first List.mem_cons_self) (by simp [NoBracket]) (stops_nil _) viaDot steps
      have htext : text first [] = first.text ++ [] := by simp [text]
      rw [htext] at hne ⊢
      rw [segments, if_neg hne, hkey, htail]
      dsimp only
      rw [hrun]
      simp [segments]
  | cons second rest ih =>
      obtain ⟨fuel, rfl⟩ : ∃ n, fuel = n + 1 := ⟨fuel - 1, by omega⟩
      rw [text_cons] at hne hlast hfuel ⊢
      rw [List.forall_mem_cons] at hwell
      obtain ⟨key, tail, hkey, htail, hrun⟩ := @brackets_segment first
        (ascii '.' :: text second rest) hwell.1 (by simp [NoBracket]; decide)
        (stops_cons.mpr (by decide)) viaDot steps
      rw [segments, if_neg hne, hkey, htail]
      dsimp only
      rw [hrun]
      dsimp only
      rw [if_neg (by simp), ih hwell.2 (ne_nil_of_getLast? hlast) (getLast?_behind hlast)
        (by rw [List.length_append, List.length_cons] at hfuel; omega)]
      simp [hopsOf]

theorem segments_ok {fuel : Nat} {viaDot : Bool} {p : Bytes} {steps steps' : Path}
    (hne : p ≠ []) (hlast : p.getLast? ≠ some (ascii '.'))
    (h : segments fuel viaDot p steps = .ok steps') :
    ∃ first rest, (∀ segment ∈ first :: rest, segment.WellFormed kMaxIndex) ∧
      p = text first rest ∧
      steps' = steps ++ (hopsOf viaDot first ++ rest.flatMap Segment.hops) := by
  induction fuel generalizing viaDot p steps with
  | zero => cases h
  | succ fuel ih =>
      unfold segments at h
      rw [if_neg hne] at h
      obtain ⟨key, tail, rfl, hkey, htail⟩ := exists_run inKey p
      rw [takeWhile_run hkey htail, dropWhile_run hkey htail] at h
      dsimp only at h
      cases hbrackets : brackets ((key ++ tail).length + 1) tail
          (if key ≠ [] ∨ viaDot = true then steps ++ [.key key] else steps) with
      | error e => rw [hbrackets] at h; cases h
      | stuck => rw [hbrackets] at h; cases h
      | ok result =>
          obtain ⟨steps₁, left⟩ := result
          rw [hbrackets] at h
          obtain ⟨words, rfl, hwords, -, rfl⟩ := brackets_ok hbrackets
          have hsegment : (Segment.mk key words).WellFormed kMaxIndex := ⟨hkey, hwords⟩
          have hhops : (if key ≠ [] ∨ viaDot = true then steps ++ [PathStep.key key] else steps) ++
              (words.map fun digits => PathStep.index (number digits)) =
                steps ++ hopsOf viaDot ⟨key, words⟩ := by
            cases viaDot with
            | true => simp [hopsOf, Segment.hops, Segment.indices]
            | false =>
                by_cases hnil : key = []
                · simp [hopsOf, Segment.hopsFirst, Segment.indices, hnil]
                · simp [hopsOf, Segment.hopsFirst, Segment.indices, hnil]
          rw [hhops] at h
          cases left with
          | nil =>
              refine ⟨⟨key, words⟩, [], by simpa using hsegment, by simp [text, Segment.text], ?_⟩
              cases fuel with
              | zero => cases h
              | succ fuel =>
                  have hend : segments (fuel + 1) false [] (steps ++ hopsOf viaDot ⟨key, words⟩) =
                      .ok (steps ++ hopsOf viaDot ⟨key, words⟩) := by
                    unfold segments
                    exact if_pos rfl
                  cases hend.symm.trans h
                  simp
          | cons c left =>
              dsimp only at h
              split at h
              · cases h
              · rename_i hc
                rw [not_not] at hc
                subst hc
                rw [← List.append_assoc] at hlast
                obtain ⟨second, rest, hwell, rfl, rfl⟩ :=
                  ih (ne_nil_of_getLast? hlast) (getLast?_behind hlast) h
                refine ⟨⟨key, words⟩, second :: rest, List.forall_mem_cons.mpr ⟨hsegment, hwell⟩,
                  ?_, ?_⟩
                · rw [text_cons, Segment.text, List.append_assoc]
                · simp [hopsOf]

theorem segments_ne_stuck {fuel : Nat} {p : Bytes} (hfuel : p.length < fuel) (viaDot : Bool)
    (steps : Path) : segments fuel viaDot p steps ≠ .stuck := by
  induction fuel generalizing viaDot p steps with
  | zero => omega
  | succ fuel ih =>
      rw [segments]
      split
      · simp
      · rename_i hne
        have htail : (p.dropWhile inKey).length ≤ p.length := List.length_dropWhile_le _ _
        have hpos := List.length_pos_iff.mpr hne
        dsimp only
        split
        · exact ih (by rw [List.length_nil]; omega) _ _
        · rename_i left hbrackets
          obtain ⟨words, hp, -, -, -⟩ := brackets_ok hbrackets
          have hleft := congrArg List.length hp
          rw [List.length_append, List.length_cons] at hleft
          split
          · simp
          · exact ih (by omega) _ _
        · simp
        · rename_i hbrackets
          exact absurd hbrackets (brackets_ne_stuck (by omega) _)

end PathParser

/-! ### What `parse_path` accepts -/

section Accepts

open PathGrammar PathParser

variable {path : Bytes} {steps : Path}

/-- The conservative guard apart, `parse_path` accepts the documented grammar. -/
theorem parsePath_iff_bounded : parsePath path = .ok steps ↔ Denotes kMaxIndex path steps := by
  constructor
  · intro h
    unfold parsePath at h
    split at h
    · rename_i hnil
      cases h
      rw [hnil]
      exact .root
    · rename_i hnil
      split at h
      · cases h
      · rename_i hboundary
        rw [not_or] at hboundary
        obtain ⟨first, rest, hwell, rfl, rfl⟩ := segments_ok hnil hboundary.2 h
        exact .path first rest hwell hboundary.1 hboundary.2
  · intro h
    cases h with
    | root => rfl
    | path first rest hwell hhead hlast =>
        unfold parsePath
        split
        · rename_i hnil
          rw [text, List.append_eq_nil_iff] at hnil
          obtain ⟨hfirst, hrest⟩ := hnil
          rw [Segment.text, List.append_eq_nil_iff] at hfirst
          have hwords : first.brackets = [] := by
            cases hwords : first.brackets with
            | nil => rfl
            | cons digits words => simp [hwords, bracketText] at hfirst
          have hnone : rest = [] := by
            cases rest with
            | nil => rfl
            | cons second rest => simp at hrest
          simp [Segment.hopsFirst, Segment.indices, hfirst.1, hwords, hnone]
        · rename_i hnil
          rw [if_neg (by rw [not_or]; exact ⟨hhead, hlast⟩)]
          rw [segments_run hwell hnil hlast (Nat.lt_succ_self _)]
          rfl

theorem parsePath_ne_stuck (path : Bytes) : parsePath path ≠ .stuck := by
  unfold parsePath
  split
  · simp
  · split
    · simp
    · exact segments_ne_stuck (Nat.lt_succ_self _) _ _

theorem PathGrammar.Denotes.mono {bound bound' : Nat} (hle : bound ≤ bound')
    (h : Denotes bound path steps) : Denotes bound' path steps := by
  cases h with
  | root => exact .root
  | path first rest hwell hhead hlast =>
      refine .path first rest (fun segment hmem => ⟨(hwell segment hmem).key, ?_⟩) hhead hlast
      intro digits hdigits
      have hindex := (hwell segment hmem).brackets digits hdigits
      exact ⟨hindex.nonempty, hindex.digit, hindex.le.trans hle⟩

/-- A bound that no index hop exceeds may be tightened. -/
theorem PathGrammar.Denotes.tighten {bound bound' : Nat} (h : Denotes bound path steps)
    (hle : ∀ idx, PathStep.index idx ∈ steps → idx ≤ bound') : Denotes bound' path steps := by
  cases h with
  | root => exact .root
  | path first rest hwell hhead hlast =>
      refine .path first rest (fun segment hmem => ⟨(hwell segment hmem).key, ?_⟩) hhead hlast
      intro digits hdigits
      have hindex := (hwell segment hmem).brackets digits hdigits
      refine ⟨hindex.nonempty, hindex.digit, hle _ ?_⟩
      have hhop : PathStep.index (number digits) ∈ segment.indices :=
        List.mem_map.mpr ⟨digits, hdigits, rfl⟩
      rcases List.mem_cons.mp hmem with rfl | hmem
      · exact List.mem_append_left _ (List.mem_append_right _ hhop)
      · exact List.mem_append_right _
          (List.mem_flatMap.mpr ⟨segment, hmem, List.mem_cons_of_mem _ hhop⟩)

/-- An index hop has no more digits than the path has bytes. -/
theorem PathGrammar.Denotes.index_lt {bound idx : Nat} (h : Denotes bound path steps)
    (hidx : PathStep.index idx ∈ steps) : idx < 10 ^ path.length := by
  have hword : ∀ segment : Segment, segment.WellFormed bound → segment.text <:+: path →
      PathStep.index idx ∈ segment.indices → idx < 10 ^ path.length := by
    intro segment hwell hsub hmem
    obtain ⟨digits, hdigits, hnumber⟩ := List.mem_map.mp hmem
    have hlt : number digits < 10 ^ digits.length := Positional.value_lt fun c hc =>
      Nat.lt_succ_of_le (isDigit_bounds ((hwell.brackets digits hdigits).digit c hc))
    have hlength : digits.length ≤ path.length := by
      refine le_trans ?_ hsub.length_le
      have hbracket := (List.sublist_flatten_of_mem
        (List.mem_map_of_mem (f := bracketText) hdigits)).length_le
      rw [Segment.text, List.length_append, List.flatMap]
      rw [bracketText, List.length_cons, List.length_append] at hbracket
      omega
    rw [← PathStep.index.inj hnumber]
    exact hlt.trans_le (Nat.pow_le_pow_right (by decide) hlength)
  cases h with
  | root => cases hidx
  | path first rest hwell hhead hlast =>
      rcases List.mem_append.mp hidx with hfirst | hrest
      · refine hword first (hwell first List.mem_cons_self)
          ⟨[], _, by rw [List.nil_append]; rfl⟩ ?_
        rcases List.mem_append.mp hfirst with hkey | hindices
        · split at hkey <;> simp at hkey
        · exact hindices
      · obtain ⟨segment, hmem, hhop⟩ := List.mem_flatMap.mp hrest
        refine hword segment (hwell segment (List.mem_cons_of_mem _ hmem)) ?_ ?_
        · obtain ⟨before, after, rfl⟩ := List.append_of_mem hmem
          exact ⟨first.text ++ before.flatMap (fun segment => ascii '.' :: segment.text) ++ [ascii '.'],
            after.flatMap fun segment => ascii '.' :: segment.text, by simp [text]⟩
        · rcases List.mem_cons.mp hhop with hkey | hindices
          · cases hkey
          · exact hindices

/-- `parse_path` accepts the paths of the documented grammar and returns the hops they denote, for
every path without an index among the last six values of `size_t`. -/
theorem parsePath_iff (path : Bytes)
    (hclear : ∀ steps, Denotes kSizeMax path steps →
      ∀ idx, PathStep.index idx ∈ steps → idx < kSizeMax - 5) :
    parsePath path ≠ .stuck ∧
      ∀ steps, parsePath path = .ok steps ↔ Denotes kSizeMax path steps := by
  refine ⟨parsePath_ne_stuck path, fun steps => ?_⟩
  rw [parsePath_iff_bounded]
  constructor
  · exact fun h => h.mono (by decide)
  · intro h
    refine h.tighten fun idx hidx => ?_
    have hlt := hclear steps h idx hidx
    unfold kMaxIndex kSizeMax at *
    omega

theorem parsePath_iff_dotted :
    let path := asciiBytes "a..b[03].c"
    (∀ steps, Denotes kSizeMax path steps →
      ∀ idx, PathStep.index idx ∈ steps → idx < kSizeMax - 5) ∧
    (∀ steps, parsePath path = .ok steps ↔ Denotes kSizeMax path steps) ∧
    parsePath path = .ok [.key (asciiBytes "a"), .key [], .key (asciiBytes "b"), .index 3,
      .key (asciiBytes "c")] := by
  have hclear : ∀ steps, Denotes kSizeMax (asciiBytes "a..b[03].c") steps →
      ∀ idx, PathStep.index idx ∈ steps → idx < kSizeMax - 5 := by
    intro steps h idx hidx
    have hlt := h.index_lt hidx
    have hlength : (asciiBytes "a..b[03].c").length = 10 := by decide
    rw [hlength] at hlt
    unfold kSizeMax
    omega
  exact ⟨hclear, (parsePath_iff _ hclear).2, by decide +kernel⟩

end Accepts

end PjhJson
