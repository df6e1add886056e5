import Mathlib

/-! Well-formed UTF-8, as the table of its byte sequences has it: the ranges of the lead byte and of
the continuation bytes that may follow it. -/

namespace Utf8

/-- The byte is in the range, its ends included. -/
def InRange (c : UInt8) (range : UInt8 × UInt8) : Prop := range.1 ≤ c ∧ c ≤ range.2

instance (c : UInt8) (range : UInt8 × UInt8) : Decidable (InRange c range) :=
  inferInstanceAs (Decidable (_ ∧ _))

structure Row where
  lead : UInt8 × UInt8
  conts : List (UInt8 × UInt8)
  deriving DecidableEq, Repr

/-- The well-formed byte sequences. -/
def table : List Row :=
  [⟨(0x00, 0x7F), []⟩,
   ⟨(0xC2, 0xDF), [(0x80, 0xBF)]⟩,
   ⟨(0xE0, 0xE0), [(0xA0, 0xBF), (0x80, 0xBF)]⟩,
   ⟨(0xE1, 0xEC), [(0x80, 0xBF), (0x80, 0xBF)]⟩,
   ⟨(0xED, 0xED), [(0x80, 0x9F), (0x80, 0xBF)]⟩,
   ⟨(0xEE, 0xEF), [(0x80, 0xBF), (0x80, 0xBF)]⟩,
   ⟨(0xF0, 0xF0), [(0x90, 0xBF), (0x80, 0xBF), (0x80, 0xBF)]⟩,
   ⟨(0xF1, 0xF3), [(0x80, 0xBF), (0x80, 0xBF), (0x80, 0xBF)]⟩,
   ⟨(0xF4, 0xF4), [(0x80, 0x8F), (0x80, 0xBF), (0x80, 0xBF)]⟩]

/-- One row of the table. -/
inductive Sequence : List UInt8 → Prop where
  | mk (row : Row) (lead : UInt8) (conts : List UInt8) : row ∈ table → InRange lead row.lead →
      List.Forall₂ InRange conts row.conts → Sequence (lead :: conts)

inductive WellFormed : List UInt8 → Prop where
  | nil : WellFormed []
  | cons (first rest : List UInt8) : Sequence first → WellFormed rest → WellFormed (first ++ rest)

/-- A sequence that was begun and lacks bytes. -/
def Unfinished (part : List UInt8) : Prop := part ≠ [] ∧ ∃ more, more ≠ [] ∧ Sequence (part ++ more)

theorem wellFormed_sequence {text : List UInt8} (h : Sequence text) : WellFormed text := by
  rw [← List.append_nil text]
  exact .cons text [] h .nil

theorem sequence_ascii {c : UInt8} (hc : c ≤ 0x7F) : Sequence [c] :=
  .mk ⟨(0x00, 0x7F), []⟩ c [] List.mem_cons_self ⟨UInt8.zero_le, hc⟩ .nil

theorem WellFormed.append {first second : List UInt8} (h : WellFormed first)
    (h' : WellFormed second) : WellFormed (first ++ second) := by
  induction h with
  | nil => exact h'
  | cons first rest hfirst _ ih =>
      rw [List.append_assoc]
      exact .cons _ _ hfirst ih

theorem wellFormed_ascii {text : List UInt8} (h : ∀ c ∈ text, c ≤ 0x7F) : WellFormed text := by
  induction text with
  | nil => exact .nil
  | cons c rest ih =>
      rw [List.forall_mem_cons] at h
      exact .cons [c] rest (sequence_ascii h.1) (ih h.2)

/-- The continuation ranges of the table are within those bounds and not empty. -/
theorem conts_bounds : ∀ row ∈ table, (row.conts.all fun range =>
    decide (0x80 ≤ range.1) && decide (range.2 ≤ 0xBF) && decide (range.1 ≤ range.2)) = true := by
  decide

theorem conts_range : ∀ row ∈ table, ∀ range ∈ row.conts, 0x80 ≤ range.1 ∧ range.2 ≤ 0xBF := by
  intro row hrow range hrange
  have hbounds := List.all_eq_true.mp (conts_bounds row hrow) range hrange
  rw [Bool.and_eq_true, Bool.and_eq_true] at hbounds
  exact ⟨of_decide_eq_true hbounds.1.1, of_decide_eq_true hbounds.1.2⟩

theorem ranges_ordered : ∀ row ∈ table, ∀ range ∈ row.conts, range.1 ≤ range.2 := by
  intro row hrow range hrange
  have hbounds := List.all_eq_true.mp (conts_bounds row hrow) range hrange
  rw [Bool.and_eq_true] at hbounds
  exact of_decide_eq_true hbounds.2

theorem tail_bounds : ∀ row ∈ table, (row.conts.tail.all (· == (0x80, 0xBF))) = true := by
  decide

/-- Only the first continuation range depends on the lead byte. -/
theorem conts_tail : ∀ row ∈ table, ∀ range ∈ row.conts.tail, range = (0x80, 0xBF) := by
  intro row hrow range hrange
  exact beq_iff_eq.mp (List.all_eq_true.mp (tail_bounds row hrow) range hrange)

theorem forall₂_cont {conts : List UInt8} {ranges : List (UInt8 × UInt8)}
    (hranges : ∀ range ∈ ranges, 0x80 ≤ range.1 ∧ range.2 ≤ 0xBF)
    (h : List.Forall₂ InRange conts ranges) : ∀ c ∈ conts, InRange c (0x80, 0xBF) := by
  induction h with
  | nil => exact fun _ hmem => absurd hmem List.not_mem_nil
  | cons hc _ ih =>
      rw [List.forall_mem_cons] at hranges ⊢
      exact ⟨⟨UInt8.le_trans hranges.1.1 hc.1, UInt8.le_trans hc.2 hranges.1.2⟩, ih hranges.2⟩

/-- After the lead byte come continuation bytes. -/
theorem Sequence.cont {lead : UInt8} {conts : List UInt8} (h : Sequence (lead :: conts)) :
    ∀ c ∈ conts, InRange c (0x80, 0xBF) := by
  cases h with
  | mk row _ _ hrow _ hconts => exact forall₂_cont (conts_range row hrow) hconts

/-- Only the first row has an ASCII lead byte. -/
theorem Sequence.ascii {lead : UInt8} {conts : List UInt8} (h : Sequence (lead :: conts))
    (hlead : lead ≤ 0x7F) : conts = [] := by
  cases h with
  | mk row _ _ hrow hrange hconts =>
      have hfirst : ∀ row ∈ table, row.lead.1 ≤ 0x7F → row.conts = [] := by decide
      rw [hfirst row hrow (UInt8.le_trans hrange.1 hlead)] at hconts
      cases hconts
      rfl

/-- Well-formed text splits before and behind every ASCII byte. -/
theorem WellFormed.split {text : List UInt8} (h : WellFormed text) :
    ∀ {before after : List UInt8} {c : UInt8}, c ≤ 0x7F → text = before ++ c :: after →
      WellFormed before ∧ WellFormed after := by
  induction h with
  | nil =>
      intro before after c _ heq
      cases before <;> cases heq
  | cons first rest hfirst hrest ih =>
      intro before after c hc heq
      rcases List.append_eq_append_iff.mp heq with ⟨middle, hbefore, hmiddle⟩ | ⟨middle, hfirst', hmiddle⟩
      · obtain ⟨hmiddle', hafter⟩ := ih hc hmiddle
        exact ⟨hbefore ▸ .cons first middle hfirst hmiddle', hafter⟩
      · -- the byte would be in the first sequence
        cases middle with
        | nil =>
            rw [List.append_nil] at hfirst'
            obtain ⟨-, hafter⟩ := @ih [] after c hc hmiddle.symm
            exact ⟨hfirst' ▸ wellFormed_sequence hfirst, hafter⟩
        | cons b middle =>
            obtain ⟨rfl, rfl⟩ := List.cons.inj hmiddle
            cases before with
            | nil =>
                rw [hfirst', List.nil_append] at hfirst
                rw [hfirst.ascii hc]
                exact ⟨.nil, hrest⟩
            | cons lead before =>
                rw [hfirst', List.cons_append] at hfirst
                have hcont := hfirst.cont c (List.mem_append_right _ List.mem_cons_self)
                exact absurd (UInt8.le_trans hcont.1 hc) (show ¬(0x80 : UInt8) ≤ 0x7F by decide)

/-! ### Unique reading -/

/-- The lead byte determines the row. -/
theorem row_unique {row row' : Row} (hrow : row ∈ table) (hrow' : row' ∈ table) {lead : UInt8}
    (h : InRange lead row.lead) (h' : InRange lead row'.lead) : row = row' := by
  have hapart : ∀ row ∈ table, ∀ row' ∈ table,
      row = row' ∨ row.lead.2 < row'.lead.1 ∨ row'.lead.2 < row.lead.1 := by decide
  rcases hapart row hrow row' hrow' with heq | hlt | hlt
  · exact heq
  · exact absurd (UInt8.le_trans h'.1 h.2) (UInt8.not_le.mpr hlt)
  · exact absurd (UInt8.le_trans h.1 h'.2) (UInt8.not_le.mpr hlt)

theorem Sequence.ne_nil {text : List UInt8} (h : Sequence text) : text ≠ [] := by
  cases h
  exact List.cons_ne_nil _ _

/-- Two sequences that start with the same byte have the same length. -/
theorem Sequence.length_eq {lead : UInt8} {conts conts' : List UInt8} (h : Sequence (lead :: conts))
    (h' : Sequence (lead :: conts')) : conts.length = conts'.length := by
  cases h with
  | mk row _ _ hrow hlead hconts =>
      cases h' with
      | mk row' _ _ hrow' hlead' hconts' =>
          obtain rfl := row_unique hrow hrow' hlead hlead'
          rw [hconts.length_eq, hconts'.length_eq]

/-- No sequence is a proper beginning of another one. -/
theorem Sequence.unique {first first' rest rest' : List UInt8} (h : Sequence first)
    (h' : Sequence first') (heq : first ++ rest = first' ++ rest') : first = first' ∧ rest = rest' := by
  refine List.append_inj heq ?_
  cases first with
  | nil => exact absurd rfl h.ne_nil
  | cons lead conts =>
      cases first' with
      | nil => exact absurd rfl h'.ne_nil
      | cons lead' conts' =>
          rw [List.cons_append, List.cons_append] at heq
          obtain ⟨rfl, -⟩ := List.cons.inj heq
          rw [List.length_cons, List.length_cons, h.length_eq h']

/-- What is well-formed behind well-formed text. -/
theorem WellFormed.right {good : List UInt8} (h : WellFormed good) :
    ∀ {rest : List UInt8}, WellFormed (good ++ rest) → WellFormed rest := by
  induction h with
  | nil => exact fun h => h
  | cons first more hfirst _ ih =>
      intro rest h
      obtain ⟨text, htext⟩ : ∃ text, text = first ++ more ++ rest := ⟨_, rfl⟩
      rw [← htext] at h
      cases h with
      | nil =>
          have hnil := List.append_eq_nil_iff.mp htext.symm
          exact absurd (List.append_eq_nil_iff.mp hnil.1).1 hfirst.ne_nil
      | cons first' rest' hfirst' hrest' =>
          rw [List.append_assoc] at htext
          obtain ⟨-, rfl⟩ := hfirst'.unique hfirst htext
          exact ih hrest'

theorem WellFormed.cases {text : List UInt8} (h : WellFormed text) (hne : text ≠ []) :
    ∃ first rest, text = first ++ rest ∧ Sequence first ∧ WellFormed rest := by
  cases h with
  | nil => exact absurd rfl hne
  | cons first rest hfirst hrest => exact ⟨first, rest, rfl, hfirst, hrest⟩

theorem Unfinished.not_wellFormed {part : List UInt8} (h : Unfinished part) : ¬WellFormed part := by
  intro hpart
  obtain ⟨hne, more, hmore, hwhole⟩ := h
  obtain ⟨first, rest, rfl, hfirst, -⟩ := hpart.cases hne
  have heq : first ++ (rest ++ more) = (first ++ rest ++ more) ++ [] := by
    rw [List.append_nil, List.append_assoc]
  have hboth := (hfirst.unique hwhole heq).2
  exact hmore (List.append_eq_nil_iff.mp hboth).2

/-- Behind an unfinished sequence comes a continuation byte. -/
theorem Unfinished.next {part rest : List UInt8} {b : UInt8} (h : Unfinished part)
    (htext : WellFormed (part ++ b :: rest)) : InRange b (0x80, 0xBF) := by
  obtain ⟨hne, more, hmore, hwhole⟩ := h
  obtain ⟨first, rest', heq, hfirst, -⟩ :=
    htext.cases (List.append_ne_nil_of_right_ne_nil _ (List.cons_ne_nil _ _))
  cases part with
  | nil => exact absurd rfl hne
  | cons lead conts =>
      cases first with
      | nil => exact absurd rfl hfirst.ne_nil
      | cons lead' conts' =>
          rw [List.cons_append, List.cons_append] at heq
          obtain ⟨rfl, hrest⟩ := List.cons.inj heq
          rw [List.cons_append] at hwhole
          have hlength := hfirst.length_eq hwhole
          have hpos : 0 < more.length := List.length_pos_iff.mpr hmore
          rw [List.length_append] at hlength
          have hget : (conts' ++ rest')[conts.length]? = some b := by
            rw [← hrest, List.getElem?_append_right (Nat.le_refl _), Nat.sub_self]
            rfl
          rw [List.getElem?_append_left (by omega)] at hget
          exact hfirst.cont b (List.mem_of_getElem? hget)

/-- The byte behind a lead byte is in the first range of its row. -/
theorem WellFormed.second {row : Row} {lead b : UInt8} {rest : List UInt8} {range : UInt8 × UInt8}
    (hrow : row ∈ table) (hlead : InRange lead row.lead) (hrange : row.conts.head? = some range)
    (h : WellFormed (lead :: b :: rest)) : InRange b range := by
  obtain ⟨first, rest', heq, hfirst, -⟩ := h.cases (List.cons_ne_nil _ _)
  cases hfirst with
  | mk row' lead' conts hrow' hlead' hconts =>
      rw [List.cons_append] at heq
      obtain ⟨rfl, hrest⟩ := List.cons.inj heq
      obtain rfl := row_unique hrow hrow' hlead hlead'
      obtain ⟨ranges, hranges⟩ : ∃ ranges, ranges = row.conts := ⟨_, rfl⟩
      rw [← hranges] at hconts hrange
      cases hconts with
      | nil => cases hrange
      | cons hc _ =>
          obtain ⟨rfl, -⟩ := List.cons.inj hrest
          obtain rfl := Option.some.inj hrange
          exact hc

/-! ### Characters -/

theorem inRange_ofNat {n : Nat} {range : UInt8 × UInt8} (hlo : range.1.toNat ≤ n)
    (hhi : n ≤ range.2.toNat) : InRange (UInt8.ofNat n) range := by
  have hn : (UInt8.ofNat n).toNat = n := by
    rw [UInt8.toNat_ofNat']
    exact Nat.mod_eq_of_lt (Nat.lt_of_le_of_lt hhi range.2.toNat_lt)
  rw [InRange, UInt8.le_iff_toNat_le, UInt8.le_iff_toNat_le, hn]
  exact ⟨hlo, hhi⟩

/-- A character is encoded as one row of the table. -/
theorem sequence_encode (c : Char) : Sequence (String.utf8EncodeChar c) := by
  have hvalid := c.valid
  rw [UInt32.isValidChar, Nat.isValidChar] at hvalid
  obtain ⟨v, hv⟩ : ∃ v, v = c.val.toNat := ⟨_, rfl⟩
  have hrow : ∀ (row : Row) {lead : Nat} {conts : List UInt8}, row ∈ table →
      row.lead.1.toNat ≤ lead → lead ≤ row.lead.2.toNat → List.Forall₂ InRange conts row.conts →
      Sequence (UInt8.ofNat lead :: conts) := fun row _ _ hmem hlo hhi hconts =>
    .mk row _ _ hmem (inRange_ofNat hlo hhi) hconts
  have htail : ∀ n : Nat, InRange (UInt8.ofNat (n % 64 + 128)) (0x80, 0xBF) := fun n =>
    inRange_ofNat (by simp) (by simp; omega)
  rw [String.utf8EncodeChar, ← hv]
  rw [← hv] at hvalid
  split
  · exact sequence_ascii (@inRange_ofNat v (0x00, 0x7F) (Nat.zero_le v) ‹v ≤ 0x7F›).2
  split
  · exact hrow ⟨(0xC2, 0xDF), [(0x80, 0xBF)]⟩ (by decide) (by simp; omega) (by simp; omega)
      (.cons (htail v) .nil)
  split
  · have hlow := htail v
    have hsecond : ∀ range : UInt8 × UInt8, range.1.toNat ≤ v / 64 % 64 + 128 →
        v / 64 % 64 + 128 ≤ range.2.toNat → List.Forall₂ InRange
          [UInt8.ofNat (v / 64 % 64 + 128), UInt8.ofNat (v % 64 + 128)] [range, (0x80, 0xBF)] :=
      fun range hlo hhi => .cons (inRange_ofNat hlo hhi) (.cons hlow .nil)
    rcases Nat.lt_or_ge v 0x1000 with hlt | hge
    · exact hrow ⟨(0xE0, 0xE0), [(0xA0, 0xBF), (0x80, 0xBF)]⟩ (by decide) (by simp) (by simp; omega)
        (hsecond (0xA0, 0xBF) (by simp; omega) (by simp; omega))
    rcases Nat.lt_or_ge v 0xD000 with hlt | hge'
    · exact hrow ⟨(0xE1, 0xEC), [(0x80, 0xBF), (0x80, 0xBF)]⟩ (by decide) (by simp; omega)
        (by simp; omega) (hsecond (0x80, 0xBF) (by simp) (by simp; omega))
    rcases Nat.lt_or_ge v 0xE000 with hlt | hge''
    · exact hrow ⟨(0xED, 0xED), [(0x80, 0x9F), (0x80, 0xBF)]⟩ (by decide) (by simp; omega)
        (by simp; omega) (hsecond (0x80, 0x9F) (by simp) (by simp; omega))
    · exact hrow ⟨(0xEE, 0xEF), [(0x80, 0xBF), (0x80, 0xBF)]⟩ (by decide) (by simp; omega)
        (by simp; omega) (hsecond (0x80, 0xBF) (by simp) (by simp; omega))
  · have hlow := htail v
    have hmiddle := htail (v / 64)
    have hsecond : ∀ range : UInt8 × UInt8, range.1.toNat ≤ v / 4096 % 64 + 128 →
        v / 4096 % 64 + 128 ≤ range.2.toNat → List.Forall₂ InRange
          [UInt8.ofNat (v / 4096 % 64 + 128), UInt8.ofNat (v / 64 % 64 + 128),
            UInt8.ofNat (v % 64 + 128)] [range, (0x80, 0xBF), (0x80, 0xBF)] :=
      fun range hlo hhi => .cons (inRange_ofNat hlo hhi) (.cons hmiddle (.cons hlow .nil))
    rcases Nat.lt_or_ge v 0x40000 with hlt | hge
    · exact hrow ⟨(0xF0, 0xF0), [(0x90, 0xBF), (0x80, 0xBF), (0x80, 0xBF)]⟩ (by decide) (by simp)
        (by simp; omega) (hsecond (0x90, 0xBF) (by simp; omega) (by simp; omega))
    rcases Nat.lt_or_ge v 0x100000 with hlt | hge'
    · exact hrow ⟨(0xF1, 0xF3), [(0x80, 0xBF), (0x80, 0xBF), (0x80, 0xBF)]⟩ (by decide)
        (by simp; omega) (by simp; omega) (hsecond (0x80, 0xBF) (by simp) (by simp; omega))
    · exact hrow ⟨(0xF4, 0xF4), [(0x80, 0x8F), (0x80, 0xBF), (0x80, 0xBF)]⟩ (by decide)
        (by simp; omega) (by simp; omega) (hsecond (0x80, 0x8F) (by simp) (by simp; omega))

end Utf8
