import PjhJson.LibUtf8
import PjhJson.Utf8

/-! The strict gate accepts what is well-formed, and reports the first violation otherwise. -/

namespace PjhJson

open Utf8

/-! ### Violations -/

/-- The violation of the first continuation range of a lead byte. -/
def rangeCode (lead : UInt8) : ErrorCode :=
  if lead = 0xE0 ∨ lead = 0xF0 then .utf8Overlong
  else if lead = 0xED then .utf8Surrogate
  else if lead = 0xF4 then .utf8ExceedsMax
  else .none

/-- The first violation in a text behind its well-formed beginning `good`: the code and the offset of
the offending byte, or of the lead byte for overlong, surrogate, too large and truncated ones. -/
inductive Violation : Bytes → ErrorCode → Nat → Prop where
  | lead (good rest : Bytes) (b : UInt8) : WellFormed good → InRange b (0x80, 0xBF) ∨ 0xF5 ≤ b →
      Violation (good ++ b :: rest) .utf8InvalidLead good.length
  | overlongLead (good rest : Bytes) (b : UInt8) : WellFormed good → b = 0xC0 ∨ b = 0xC1 →
      Violation (good ++ b :: rest) .utf8Overlong good.length
  | range (good rest : Bytes) (row : Row) (lead b : UInt8) (range : UInt8 × UInt8) :
      WellFormed good → row ∈ table → InRange lead row.lead → row.conts.head? = some range →
      InRange b (0x80, 0xBF) → ¬InRange b range →
      Violation (good ++ lead :: b :: rest) (rangeCode lead) good.length
  | continuation (good part rest : Bytes) (b : UInt8) : WellFormed good → Unfinished part →
      ¬InRange b (0x80, 0xBF) →
      Violation (good ++ (part ++ b :: rest)) .utf8InvalidContinuation (good.length + part.length)
  | truncated (good part : Bytes) : WellFormed good → Unfinished part →
      Violation (good ++ part) .utf8Truncated good.length

/-- No byte from 0x80 to 0xC1, and none from 0xF5 on, leads a sequence. -/
theorem not_wellFormed_lead {b : UInt8} {rest : Bytes}
    (hb : ∀ row ∈ table, ¬InRange b row.lead) : ¬WellFormed (b :: rest) := by
  intro h
  obtain ⟨first, rest', heq, hfirst, -⟩ := h.cases (List.cons_ne_nil _ _)
  cases hfirst with
  | mk row lead conts hrow hlead _ =>
      obtain ⟨rfl, -⟩ := List.cons.inj heq
      exact hb row hrow hlead

theorem lead_bounds : ∀ row ∈ table, (row.lead.2 ≤ 0x7F ∨ 0xC2 ≤ row.lead.1) ∧ row.lead.2 ≤ 0xF4 := by
  decide

theorem not_inRange_lead {b : UInt8} (hb : (0x80 ≤ b ∧ b ≤ 0xC1) ∨ 0xF5 ≤ b) :
    ∀ row ∈ table, ¬InRange b row.lead := by
  rintro row hrow ⟨hlo, hhi⟩
  obtain ⟨hbounds, hmax⟩ := lead_bounds row hrow
  rcases hb with ⟨hlo', hhi'⟩ | hlo'
  · rcases hbounds with hbound | hbound
    · exact absurd (UInt8.le_trans hlo' (UInt8.le_trans hhi hbound)) (by decide)
    · exact absurd (UInt8.le_trans hbound (UInt8.le_trans hlo hhi')) (by decide)
  · exact absurd (UInt8.le_trans hlo' (UInt8.le_trans hhi hmax)) (by decide)

theorem Violation.not_wellFormed {text : Bytes} {code : ErrorCode} {pos : Nat}
    (h : Violation text code pos) : ¬WellFormed text := by
  intro htext
  cases h with
  | lead good rest b hgood hb =>
      refine not_wellFormed_lead (not_inRange_lead ?_) (hgood.right htext)
      exact hb.imp (fun h => ⟨h.1, UInt8.le_trans h.2 (by decide)⟩) id
  | overlongLead good rest b hgood hb =>
      refine not_wellFormed_lead (not_inRange_lead (.inl ?_)) (hgood.right htext)
      rcases hb with rfl | rfl <;> decide
  | range good rest row lead b range hgood hrow hlead hrange _ hb =>
      exact hb (WellFormed.second hrow hlead hrange (hgood.right htext))
  | continuation good part rest b hgood hpart hb => exact hb (hpart.next (hgood.right htext))
  | truncated good part hgood hpart => exact hpart.not_wellFormed (hgood.right htext)

theorem Violation.le_length {text : Bytes} {code : ErrorCode} {pos : Nat}
    (h : Violation text code pos) : pos ≤ text.length := by
  cases h with
  | continuation good part rest b =>
      rw [List.length_append, List.length_append]
      omega
  | lead | overlongLead | range | truncated =>
      rw [List.length_append]
      exact Nat.le_add_right _ _

def utf8Codes : List ErrorCode :=
  [.utf8InvalidLead, .utf8Overlong, .utf8Surrogate, .utf8ExceedsMax, .utf8InvalidContinuation,
    .utf8Truncated]

/-- Only four lead bytes narrow the range of the byte behind them. -/
theorem narrow_rows : ∀ row ∈ table, row.conts.head? = some (0x80, 0xBF) ∨
    (row.lead.1 = row.lead.2 ∧ rangeCode row.lead.1 ∈ utf8Codes) ∨ row.conts = [] := by
  decide

/-- A continuation byte outside the range of its lead byte. -/
theorem rangeCode_mem {row : Row} {lead b : UInt8} {range : UInt8 × UInt8} (hrow : row ∈ table)
    (hlead : InRange lead row.lead) (hrange : row.conts.head? = some range)
    (hb : InRange b (0x80, 0xBF)) (hout : ¬InRange b range) : rangeCode lead ∈ utf8Codes := by
  rcases narrow_rows row hrow with hwide | ⟨hsame, hcode⟩ | hnil
  · rw [hrange] at hwide
    exact absurd (Option.some.inj hwide ▸ hb) hout
  · obtain rfl : lead = row.lead.1 := UInt8.le_antisymm (hsame ▸ hlead.2) hlead.1
    exact hcode
  · rw [hnil] at hrange
    cases hrange

theorem Violation.code_mem {text : Bytes} {code : ErrorCode} {pos : Nat}
    (h : Violation text code pos) : code ∈ utf8Codes := by
  cases h with
  | range good rest row lead b range _ hrow hlead hrange hb hout =>
      exact rangeCode_mem hrow hlead hrange hb hout
  | lead | overlongLead | continuation | truncated => decide

/-! ### The machine -/

/-- Where the machine is after the bytes `fed`, no violation among them: between two sequences, or
inside one that still lacks the ranges `left`. -/
inductive Fed : Utf8Checker → Bytes → Prop where
  | whole {ck : Utf8Checker} {fed : Bytes} : ck.failed = false → ck.need = 0 → WellFormed fed →
      Fed ck fed
  | inside {ck : Utf8Checker} {good conts : Bytes} {row : Row} {lead : UInt8}
      {done left : List (UInt8 × UInt8)} : ck.failed = false → WellFormed good → row ∈ table →
      InRange lead row.lead → List.Forall₂ InRange conts done → row.conts = done ++ left →
      left ≠ [] → ck.need = left.length → ck.lead = good.length →
      (conts = [] → left.head? = some (ck.c1lo, ck.c1hi) ∧ ck.failCode = rangeCode lead) →
      Fed ck (good ++ lead :: conts)

theorem fed_start : Fed {} [] := .whole rfl rfl .nil

theorem Fed.not_failed {ck : Utf8Checker} {fed : Bytes} (h : Fed ck fed) : ck.failed = false := by
  cases h <;> assumption

section Feed

variable {ck : Utf8Checker} {fed : Bytes} {b : UInt8}

/-- What a step leaves: the machine after one more byte, or the first violation. -/
def StepOf (ck : Utf8Checker) (fed : Bytes) (b : UInt8) : Prop :=
  Fed ck (fed ++ [b]) ∨
    ck.failed = true ∧ ∀ rest, Violation (fed ++ b :: rest) ck.code ck.err

theorem set_spec {code : ErrorCode} {pos : Nat} (h : ck.failed = false) (hcode : code ≠ .none) :
    (ck.set code pos).failed = true ∧ (ck.set code pos).code = code ∧ (ck.set code pos).err = pos := by
  rw [Utf8Checker.set, if_neg (by rw [h]; exact Bool.false_ne_true)]
  refine ⟨?_, rfl, rfl⟩
  rw [Utf8Checker.failed]
  exact bne_iff_ne.mpr hcode

theorem begin_step (hck : ck.failed = false) (hfed : WellFormed fed) (row : Row) (hrow : row ∈ table)
    (hlead : InRange b row.lead) {need : Nat} {c1lo c1hi : UInt8} {failCode : ErrorCode}
    (hneed : need = row.conts.length) (hrange : row.conts.head? = some (c1lo, c1hi))
    (hcode : failCode = rangeCode b) :
    StepOf (ck.begin need c1lo c1hi failCode fed.length) fed b := by
  have hne : row.conts ≠ [] := fun hnil => by
    rw [hnil] at hrange
    cases hrange
  have hsplit : row.conts = [] ++ row.conts := rfl
  exact .inl (.inside hck hfed hrow hlead .nil hsplit hne hneed rfl fun _ => ⟨hrange, hcode⟩)

theorem inRange_singleton (c : UInt8) : InRange c (c, c) := ⟨UInt8.le_refl c, UInt8.le_refl c⟩

/-- Between two sequences: one branch for each row of the table, and two for what leads none. -/
theorem feedLead_step (hck : ck.failed = false) (hneed : ck.need = 0) (hfed : WellFormed fed) :
    StepOf (ck.feedLead b fed.length) fed b := by
  rw [Utf8Checker.feedLead]
  split_ifs with h₀ h₁ h₂ h₃ h₄ h₅ h₆ h₇ h₈
  · exact .inl (.whole hck hneed (hfed.append (wellFormed_sequence (sequence_ascii h₀))))
  · refine begin_step hck hfed ⟨(0xC2, 0xDF), [(0x80, 0xBF)]⟩ (by decide) h₁ rfl rfl ?_
    have hne : ∀ c : UInt8, 0xE0 ≤ c → b ≠ c := by
      rintro _ hc rfl
      exact absurd (UInt8.le_trans hc h₁.2) (by decide)
    rw [rangeCode, if_neg, if_neg (hne 0xED (by decide)), if_neg (hne 0xF4 (by decide))]
    rintro (h | h)
    · exact hne 0xE0 (by decide) h
    · exact hne 0xF0 (by decide) h
  · subst h₂
    exact begin_step hck hfed ⟨(0xE0, 0xE0), [(0xA0, 0xBF), (0x80, 0xBF)]⟩ (by decide)
      (inRange_singleton _) rfl rfl rfl
  · subst h₃
    exact begin_step hck hfed ⟨(0xED, 0xED), [(0x80, 0x9F), (0x80, 0xBF)]⟩ (by decide)
      (inRange_singleton _) rfl rfl rfl
  · have hcode : ErrorCode.none = rangeCode b := by
      have hne : b ≠ 0xF0 ∧ b ≠ 0xF4 := by
        rcases h₄ with h | rfl | rfl
        · refine ⟨?_, ?_⟩ <;> rintro rfl <;> exact absurd h.2 (by decide)
        · decide
        · decide
      rw [rangeCode, if_neg (not_or.mpr ⟨h₂, hne.1⟩), if_neg h₃, if_neg hne.2]
    rcases h₄ with h | h
    · exact begin_step hck hfed ⟨(0xE1, 0xEC), [(0x80, 0xBF), (0x80, 0xBF)]⟩ (by decide) h rfl rfl
        hcode
    · refine begin_step hck hfed ⟨(0xEE, 0xEF), [(0x80, 0xBF), (0x80, 0xBF)]⟩ (by decide) ?_ rfl rfl
        hcode
      rcases h with rfl | rfl <;> exact ⟨by decide, by decide⟩
  · subst h₅
    exact begin_step hck hfed ⟨(0xF0, 0xF0), [(0x90, 0xBF), (0x80, 0xBF), (0x80, 0xBF)]⟩ (by decide)
      (inRange_singleton _) rfl rfl rfl
  · subst h₆
    exact begin_step hck hfed ⟨(0xF4, 0xF4), [(0x80, 0x8F), (0x80, 0xBF), (0x80, 0xBF)]⟩ (by decide)
      (inRange_singleton _) rfl rfl rfl
  · refine begin_step hck hfed ⟨(0xF1, 0xF3), [(0x80, 0xBF), (0x80, 0xBF), (0x80, 0xBF)]⟩ (by decide)
      h₇ rfl rfl ?_
    rw [rangeCode, if_neg (not_or.mpr ⟨h₂, h₅⟩), if_neg h₃, if_neg h₆]
  · obtain ⟨hfailed, hcode, herr⟩ := @set_spec ck .utf8Overlong fed.length hck (by decide)
    refine .inr ⟨hfailed, fun rest => ?_⟩
    rw [hcode, herr]
    exact .overlongLead fed rest b hfed h₈
  · obtain ⟨hfailed, hcode, herr⟩ := @set_spec ck .utf8InvalidLead fed.length hck (by decide)
    refine .inr ⟨hfailed, fun rest => ?_⟩
    rw [hcode, herr]
    refine .lead fed rest b hfed ?_
    -- the bytes that no branch takes
    simp only [InRange, UInt8.le_iff_toNat_le, not_and, not_or, ← UInt8.toNat_inj,
      UInt8.reduceToNat] at *
    omega

theorem forall₂_lowest {ranges : List (UInt8 × UInt8)} (h : ∀ range ∈ ranges, range.1 ≤ range.2) :
    List.Forall₂ InRange (ranges.map (·.1)) ranges := by
  induction ranges with
  | nil => exact .nil
  | cons range rest ih =>
      rw [List.forall_mem_cons] at h
      exact .cons ⟨UInt8.le_refl _, h.1⟩ (ih h.2)

/-- The lowest bytes of the ranges that are left complete the sequence. -/
theorem unfinished_inside {conts : Bytes} {row : Row} {lead : UInt8}
    {done left : List (UInt8 × UInt8)} (hrow : row ∈ table) (hlead : InRange lead row.lead)
    (hconts : List.Forall₂ InRange conts done) (hsplit : row.conts = done ++ left)
    (hleft : left ≠ []) : Unfinished (lead :: conts) := by
  refine ⟨List.cons_ne_nil _ _, left.map (·.1), fun h => hleft (List.map_eq_nil_iff.mp h), ?_⟩
  refine .mk row lead _ hrow hlead ?_
  rw [hsplit]
  refine List.rel_append hconts (forall₂_lowest fun range hmem => ?_)
  exact ranges_ordered row hrow range (hsplit ▸ List.mem_append_right _ hmem)

/-- Inside a sequence, where the byte is none that the caller rejects. -/
theorem feedContinuation_step {good conts : Bytes} {row : Row} {lead : UInt8}
    {done left : List (UInt8 × UInt8)} (hck : ck.failed = false) (hgood : WellFormed good)
    (hrow : row ∈ table) (hlead : InRange lead row.lead) (hconts : List.Forall₂ InRange conts done)
    (hsplit : row.conts = done ++ left) (hleft : left ≠ []) (hneed : ck.need = left.length)
    (hpos : ck.lead = good.length)
    (hfirst : conts = [] → left.head? = some (ck.c1lo, ck.c1hi) ∧ ck.failCode = rangeCode lead)
    (hb : 0x20 ≤ b) :
    StepOf (ck.feedContinuation b (good ++ lead :: conts).length) (good ++ lead :: conts) b := by
  obtain ⟨range, left', rfl⟩ := List.exists_cons_of_ne_nil hleft
  have hunfinished : Unfinished (lead :: conts) :=
    unfinished_inside hrow hlead hconts hsplit hleft
  have hnext : InRange b range → StepOf { ck with need := ck.need - 1 } (good ++ lead :: conts) b := by
    intro hin
    have hconts' : List.Forall₂ InRange (conts ++ [b]) (done ++ [range]) :=
      List.rel_append hconts (.cons hin .nil)
    have hsplit' : row.conts = (done ++ [range]) ++ left' := by
      rw [hsplit, List.append_assoc]
      rfl
    have hneed' : ck.need - 1 = left'.length := by rw [hneed, List.length_cons, Nat.add_sub_cancel]
    refine .inl ?_
    rw [List.append_assoc, List.cons_append]
    cases left' with
    | nil =>
        rw [List.append_nil] at hsplit'
        exact .whole hck hneed'
          (hgood.append (wellFormed_sequence (.mk row lead _ hrow hlead (hsplit' ▸ hconts'))))
    | cons other left' =>
        refine .inside hck hgood hrow hlead hconts' hsplit' (List.cons_ne_nil _ _) hneed' hpos ?_
        exact fun hnil => absurd hnil (List.append_ne_nil_of_right_ne_nil _ (List.cons_ne_nil _ _))
  have hcontinuation : ¬InRange b (0x80, 0xBF) →
      StepOf (ck.set .utf8InvalidContinuation (good ++ lead :: conts).length)
        (good ++ lead :: conts) b := by
    intro hout
    obtain ⟨hfailed, hcode, herr⟩ := @set_spec ck .utf8InvalidContinuation
      (good ++ lead :: conts).length hck (by decide)
    refine .inr ⟨hfailed, fun rest => ?_⟩
    rw [hcode, herr, List.length_append, List.append_assoc]
    exact .continuation good (lead :: conts) rest b hgood hunfinished hout
  have hout : ∀ {range : UInt8 × UInt8}, b < range.1 ∨ range.2 < b ↔ ¬InRange b range := by
    intro range
    rw [InRange, not_and_or, UInt8.not_le, UInt8.not_le]
  have hlength : (good ++ lead :: conts).length = ck.lead + 1 ↔ conts = [] := by
    rw [hpos, List.length_append, List.length_cons, ← List.length_eq_zero_iff]
    omega
  rw [Utf8Checker.feedContinuation, if_neg (UInt8.not_lt.mpr hb)]
  split_ifs with hone hbyte hrange hbyte
  · exact hcontinuation ((@hout (0x80, 0xBF)).mp hbyte)
  · -- the first continuation byte, outside the range of its lead byte
    obtain rfl := hlength.mp hone
    obtain ⟨hhead, hcode⟩ := hfirst rfl
    obtain rfl := Option.some.inj hhead
    cases hconts
    have hin : InRange b (0x80, 0xBF) := by
      by_contra h
      exact hbyte ((@hout (0x80, 0xBF)).mpr h)
    have hnot : ¬InRange b (ck.c1lo, ck.c1hi) := (@hout (ck.c1lo, ck.c1hi)).mp hrange
    have hhead' : row.conts.head? = some (ck.c1lo, ck.c1hi) := by
      rw [hsplit]
      rfl
    have hsome : ck.failCode ≠ .none := by
      have hmem := rangeCode_mem hrow hlead hhead' hin hnot
      rw [← hcode] at hmem
      intro hnone
      rw [hnone] at hmem
      exact absurd hmem (by decide)
    obtain ⟨hfailed, hcode', herr⟩ := @set_spec ck ck.failCode ck.lead hck hsome
    refine .inr ⟨hfailed, fun rest => ?_⟩
    rw [hcode', herr, hcode, hpos, List.append_assoc]
    exact .range good rest row lead b _ hgood hrow hlead hhead' hin hnot
  · obtain rfl := hlength.mp hone
    obtain rfl := Option.some.inj (hfirst rfl).1
    refine hnext ?_
    by_contra h
    exact hrange ((@hout (ck.c1lo, ck.c1hi)).mpr h)
  · exact hcontinuation ((@hout (0x80, 0xBF)).mp hbyte)
  · refine hnext ?_
    have hmem : range ∈ row.conts.tail := by
      cases hconts with
      | nil => exact absurd (hlength.mpr rfl) hone
      | cons _ _ =>
          rw [hsplit, List.cons_append, List.tail_cons]
          exact List.mem_append_right _ List.mem_cons_self
    rw [conts_tail row hrow range hmem]
    by_contra h
    exact hbyte ((@hout (0x80, 0xBF)).mpr h)

/-- One byte. The caller rejects control bytes itself, and the machine relies on that inside a
sequence. -/
theorem feed_step (h : Fed ck fed) (hb : ck.need = 0 ∨ 0x20 ≤ b) :
    StepOf (ck.feed b fed.length) fed b := by
  have hck := h.not_failed
  rw [Utf8Checker.feed, if_neg (by rw [hck]; exact Bool.false_ne_true)]
  cases h with
  | whole _ hneed hfed =>
      rw [if_pos hneed]
      exact feedLead_step hck hneed hfed
  | inside _ hgood hrow hlead hconts hsplit hleft hneed hpos hfirst =>
      have hne : ck.need ≠ 0 := by
        rw [hneed]
        exact fun hzero => hleft (List.length_eq_zero_iff.mp hzero)
      rw [if_neg hne]
      exact feedContinuation_step hck hgood hrow hlead hconts hsplit hleft hneed hpos hfirst
        (hb.resolve_left hne)

/-- After an ASCII byte the machine is between two sequences. -/
theorem Fed.ascii (h : Fed ck (fed ++ [b])) (hb : b ≤ 0x7F) :
    ck.need = 0 ∧ WellFormed (fed ++ [b]) := by
  obtain ⟨text, htext⟩ : ∃ text, text = fed ++ [b] := ⟨_, rfl⟩
  rw [← htext] at h
  cases h with
  | whole _ hneed hfed => exact ⟨hneed, htext ▸ hfed⟩
  | @inside good conts row lead done left _ _ hrow hlead hconts hsplit hleft _ _ _ =>
      exfalso
      obtain ⟨-, more, hmore, hwhole⟩ := unfinished_inside hrow hlead hconts hsplit hleft
      have hlast : (lead :: conts).getLast? = some b := by
        have hboth := congrArg List.getLast? htext
        rwa [List.getLast?_append_cons, List.getLast?_append_cons, List.getLast?_singleton] at hboth
      rw [List.cons_append] at hwhole
      cases conts with
      | nil =>
          obtain rfl := Option.some.inj hlast
          exact hmore (hwhole.ascii hb)
      | cons c conts =>
          rw [List.getLast?_cons_cons] at hlast
          have hmem := List.mem_append_left more (List.mem_of_getLast? hlast)
          exact absurd (UInt8.le_trans (hwhole.cont b hmem).1 hb) (by decide)

/-- The end of the content. -/
theorem finish_step (h : Fed ck fed) : (ck.finish = ck ∧ WellFormed fed) ∨
    ck.finish.failed = true ∧ Violation fed ck.finish.code ck.finish.err := by
  have hck := h.not_failed
  rw [Utf8Checker.finish]
  cases h with
  | whole _ hneed hfed => exact .inl ⟨if_neg fun hboth => hboth.1 hneed, hfed⟩
  | inside _ hgood hrow hlead hconts hsplit hleft hneed hpos hfirst =>
      have hne : ck.need ≠ 0 := by
        rw [hneed]
        exact fun hzero => hleft (List.length_eq_zero_iff.mp hzero)
      rw [if_pos ⟨hne, hck⟩]
      obtain ⟨hfailed, hcode, herr⟩ := @set_spec ck .utf8Truncated ck.lead hck (by decide)
      refine .inr ⟨hfailed, ?_⟩
      rw [hcode, herr, hpos]
      exact .truncated _ _ hgood (unfinished_inside hrow hlead hconts hsplit hleft)

/-- A failed machine stays as it is. -/
theorem feedRange_failed (h : ck.failed = true) (text : Bytes) (pos : Nat) :
    ck.feedRange text pos = ck := by
  cases text with
  | nil => rfl
  | cons c text => rw [Utf8Checker.feedRange, if_pos h]

theorem finish_failed (h : ck.failed = true) : ck.finish = ck := by
  rw [Utf8Checker.finish, if_neg]
  rintro ⟨-, hok⟩
  rw [h] at hok
  cases hok

/-- A machine that gets through a text gets through its first byte. -/
theorem feedRange_cons {text : Bytes} {pos : Nat} (h : (ck.feedRange (b :: text) pos).failed = false) :
    (ck.feed b pos).failed = false ∧
      ck.feedRange (b :: text) pos = (ck.feed b pos).feedRange text (pos + 1) := by
  by_cases hck : ck.failed = true
  · rw [feedRange_failed hck, hck] at h
    cases h
  · have hstep : ck.feedRange (b :: text) pos = (ck.feed b pos).feedRange text (pos + 1) := by
      rw [Utf8Checker.feedRange, if_neg hck]
    refine ⟨?_, hstep⟩
    by_contra hfailed
    rw [Bool.not_eq_false] at hfailed
    rw [hstep, feedRange_failed hfailed, hfailed] at h
    cases h

/-- The plain bytes of a string, up to their end or to the first violation. -/
theorem feedRange_steps {text : Bytes} (h : Fed ck fed) (htext : ∀ c ∈ text, 0x20 ≤ c) :
    Fed (ck.feedRange text fed.length) (fed ++ text) ∨
      (ck.feedRange text fed.length).failed = true ∧ ∀ rest, Violation (fed ++ text ++ rest)
        (ck.feedRange text fed.length).code (ck.feedRange text fed.length).err := by
  induction text generalizing ck fed with
  | nil =>
      rw [List.append_nil]
      exact .inl h
  | cons c text ih =>
      rw [List.forall_mem_cons] at htext
      rw [Utf8Checker.feedRange, if_neg (by rw [h.not_failed]; exact Bool.false_ne_true)]
      rcases feed_step h (.inr htext.1) with hfed | ⟨hfailed, hviolation⟩
      · have hrest := ih hfed htext.2
        rwa [← List.append_cons, List.length_append] at hrest
      · rw [feedRange_failed hfailed]
        refine .inr ⟨hfailed, fun rest => ?_⟩
        rw [List.append_assoc]
        exact hviolation (text ++ rest)

end Feed

/-- The gate on a text with no control bytes. -/
theorem checkUtf8Strict_iff {text : Bytes} (htext : ∀ c ∈ text, 0x20 ≤ c) :
    (checkUtf8Strict text).failed = false ↔ WellFormed text := by
  have hsteps := feedRange_steps fed_start htext
  have hcheck : checkUtf8Strict text = (({} : Utf8Checker).feedRange text 0).finish := rfl
  rw [List.length_nil] at hsteps
  rw [hcheck]
  generalize ({} : Utf8Checker).feedRange text 0 = ck at hsteps
  rcases hsteps with hfed | ⟨hfailed, hviolation⟩
  · rcases finish_step hfed with ⟨hsame, hwell⟩ | ⟨hfailed, hviolation⟩
    · rw [hsame]
      exact iff_of_true hfed.not_failed hwell
    · rw [hfailed]
      exact iff_of_false (by simp) hviolation.not_wellFormed
  · have hviolation := hviolation []
    rw [List.append_nil] at hviolation
    rw [finish_failed hfailed, hfailed]
    exact iff_of_false (by simp) hviolation.not_wellFormed

end PjhJson
