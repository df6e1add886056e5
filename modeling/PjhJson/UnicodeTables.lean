import Mathlib.Data.Set.Basic
import PjhJson.LibSearch
import PjhJson.Unicode

/-! The range tables of `unicode.hpp`: the binary search of `in_ranges` decides membership in any sorted
table, and the two shipped tables are sorted and have no code point in common. -/

namespace PjhJson.Unicode

/-- The code points of a table. -/
def covered (ranges : List (Nat × Nat)) : Set Nat :=
  {cp | ∃ range ∈ ranges, range.1 ≤ cp ∧ cp ≤ range.2}

/-- A table of inclusive ranges in order: no range is empty, and each ends before the next ones begin. -/
structure SortedRanges (ranges : List (Nat × Nat)) : Prop where
  nonempty : ∀ range ∈ ranges, range.1 ≤ range.2
  sorted : ranges.Pairwise fun r s => r.2 < s.1

/-- The ASCII letters, the underscore and the dollar sign. -/
def asciiLetters : Set Nat :=
  {cp | (0x41 ≤ cp ∧ cp ≤ 0x5A) ∨ (0x61 ≤ cp ∧ cp ≤ 0x7A) ∨ cp = 0x5F ∨ cp = 0x24}

def asciiDigits : Set Nat := {cp | 0x30 ≤ cp ∧ cp ≤ 0x39}

/-- On which side of the entry at a position a code point lies. -/
def probeRange (ranges : List (Nat × Nat)) (cp : Nat) (pos : Nat) : Ordering :=
  if cp < (ranges.getD pos (0, 0)).1 then .lt
  else if (ranges.getD pos (0, 0)).2 < cp then .gt
  else .eq

/-- The loop of `in_ranges` is the bisection; it gives up with `false`. -/
theorem inRangesLoop_eq (ranges : List (Nat × Nat)) (cp fuel lo hi : Nat) :
    inRangesLoop ranges cp fuel lo hi =
      (Search.bisect (probeRange ranges cp) fuel lo hi).getD false := by
  induction fuel generalizing lo hi with
  | zero => rfl
  | succ fuel ih =>
      rw [inRangesLoop, Search.bisect]
      by_cases hlt : lo < hi
      · simp only [if_pos hlt, probeRange]
        split
        · exact ih _ _
        · split
          · exact ih _ _
          · rfl
      · rw [if_neg hlt, if_neg hlt]
        rfl

theorem probeRange_eq_iff {ranges : List (Nat × Nat)} {cp pos : Nat} (hpos : pos < ranges.length) :
    probeRange ranges cp pos = .eq ↔ ranges[pos].1 ≤ cp ∧ cp ≤ ranges[pos].2 := by
  rw [probeRange, List.getD_eq_getElem _ _ hpos]
  split
  · next hlt => exact iff_of_false (by decide) (by omega)
  · split
    · next hgt => exact iff_of_false (by decide) (by omega)
    · next hlt hgt => exact iff_of_true rfl (by omega)

theorem probeRange_lt_iff {ranges : List (Nat × Nat)} {cp pos : Nat} (hpos : pos < ranges.length) :
    probeRange ranges cp pos = .lt ↔ cp < ranges[pos].1 := by
  rw [probeRange, List.getD_eq_getElem _ _ hpos]
  split
  · next hlt => exact iff_of_true rfl hlt
  · next hlt =>
      refine iff_of_false ?_ hlt
      split <;> decide

theorem probeRange_gt_iff {ranges : List (Nat × Nat)} {cp pos : Nat} (hpos : pos < ranges.length)
    (hrange : ranges[pos].1 ≤ ranges[pos].2) :
    probeRange ranges cp pos = .gt ↔ ranges[pos].2 < cp := by
  rw [probeRange, List.getD_eq_getElem _ _ hpos]
  split
  · next hlt => exact iff_of_false (by decide) (by omega)
  · split
    · next hgt => exact iff_of_true rfl hgt
    · next hgt => exact iff_of_false (by decide) hgt

/-- In a sorted table the entries before one end before it, and those after one begin after it. -/
theorem SortedRanges.guides {ranges : List (Nat × Nat)} (hsorted : SortedRanges ranges) (cp : Nat) :
    Search.Guides (probeRange ranges cp) ranges.length where
  below := by
    intro i j hij hj hlt
    rw [probeRange_lt_iff (by omega)] at hlt
    rw [probeRange_lt_iff hj]
    obtain rfl | hne := Nat.eq_or_lt_of_le hij
    · exact hlt
    · have horder := List.pairwise_iff_getElem.mp hsorted.sorted i j (by omega) hj hne
      have hrange := hsorted.nonempty _ (List.getElem_mem (by omega : i < ranges.length))
      omega
  above := by
    intro i j hij hj hgt
    have hi : i < ranges.length := by omega
    rw [probeRange_gt_iff hj (hsorted.nonempty _ (List.getElem_mem hj))] at hgt
    rw [probeRange_gt_iff hi (hsorted.nonempty _ (List.getElem_mem hi))]
    obtain rfl | hne := Nat.eq_or_lt_of_le hij
    · exact hgt
    · have horder := List.pairwise_iff_getElem.mp hsorted.sorted i j hi hj hne
      have hrange := hsorted.nonempty _ (List.getElem_mem hj)
      omega

theorem exists_probeRange_iff {ranges : List (Nat × Nat)} {cp : Nat} :
    (∃ pos, 0 ≤ pos ∧ pos < ranges.length ∧ probeRange ranges cp pos = .eq) ↔ cp ∈ covered ranges := by
  constructor
  · intro ⟨pos, _, hpos, hprobe⟩
    exact ⟨_, List.getElem_mem hpos, (probeRange_eq_iff hpos).mp hprobe⟩
  · intro ⟨range, hmem, hbounds⟩
    obtain ⟨pos, hpos, hget⟩ := List.getElem_of_mem hmem
    exact ⟨pos, Nat.zero_le pos, hpos, (probeRange_eq_iff hpos).mpr (hget ▸ hbounds)⟩

/-- The search ends within a logarithmic number of rounds, on the answer of `in_ranges`, and that is
membership. -/
theorem inRanges_spec {ranges : List (Nat × Nat)} (hsorted : SortedRanges ranges) (cp : Nat) :
    Search.bisect (probeRange ranges cp) (ranges.length.log2 + 2) 0 ranges.length =
        some (inRanges ranges cp) ∧
      (inRanges ranges cp = true ↔ cp ∈ covered ranges) := by
  obtain ⟨found, hfound, hiff⟩ := @Search.bisect_spec _ _ (hsorted.guides cp)
    (ranges.length.log2 + 1) 0 ranges.length Nat.lt_log2_self (Nat.le_refl _)
  obtain ⟨found', hfound', hiff'⟩ := @Search.bisect_spec _ _ (hsorted.guides cp)
    ranges.length 0 ranges.length Nat.lt_two_pow_self (Nat.le_refl _)
  have hin : inRanges ranges cp = found' := by
    rw [inRanges, inRangesLoop_eq, hfound']
    rfl
  have hsame : found = found' := by
    rw [Bool.eq_iff_iff, hiff, hiff']
  rw [hin]
  exact ⟨hsame ▸ hfound, hiff'.trans exists_probeRange_iff⟩

/-- The ranges are in order, from a bound on. -/
def inOrder (bound : Nat) : List (Nat × Nat) → Bool
  | [] => true
  | range :: ranges => bound ≤ range.1 && range.1 ≤ range.2 && inOrder (range.2 + 1) ranges

/-- No range of one table meets a range of the other; both are followed in order. -/
def apart : Nat → List (Nat × Nat) → List (Nat × Nat) → Bool
  | _, [], _ => true
  | _, _, [] => true
  | 0, _, _ => false
  | fuel + 1, r :: rs, s :: ss =>
    if r.2 < s.1 then apart fuel rs (s :: ss)
    else if s.2 < r.1 then apart fuel (r :: rs) ss
    else false

theorem sortedRanges_nil : SortedRanges [] where
  nonempty _ h := absurd h List.not_mem_nil
  sorted := .nil

theorem sortedRanges_cons {range : Nat × Nat} {ranges : List (Nat × Nat)} :
    SortedRanges (range :: ranges) ↔
      range.1 ≤ range.2 ∧ (∀ next ∈ ranges, range.2 < next.1) ∧ SortedRanges ranges := by
  constructor
  · intro ⟨hnonempty, hsorted⟩
    rw [List.pairwise_cons] at hsorted
    exact ⟨hnonempty _ List.mem_cons_self, hsorted.1,
      fun next hnext => hnonempty next (List.mem_cons_of_mem _ hnext), hsorted.2⟩
  · intro ⟨hrange, hnext, hranges⟩
    exact ⟨List.forall_mem_cons.mpr ⟨hrange, hranges.nonempty⟩,
      List.pairwise_cons.mpr ⟨hnext, hranges.sorted⟩⟩

theorem sortedRanges_of_inOrder {bound : Nat} {ranges : List (Nat × Nat)}
    (horder : inOrder bound ranges = true) :
    SortedRanges ranges ∧ ∀ range ∈ ranges, bound ≤ range.1 := by
  induction ranges generalizing bound with
  | nil => exact ⟨sortedRanges_nil, fun _ h => absurd h List.not_mem_nil⟩
  | cons range ranges ih =>
      rw [inOrder, Bool.and_eq_true, Bool.and_eq_true, decide_eq_true_iff, decide_eq_true_iff] at horder
      obtain ⟨⟨hbound, hrange⟩, hrest⟩ := horder
      obtain ⟨hsorted, hafter⟩ := ih hrest
      refine ⟨sortedRanges_cons.mpr ⟨hrange, hafter, hsorted⟩, ?_⟩
      rw [List.forall_mem_cons]
      refine ⟨hbound, fun next hnext => ?_⟩
      have hle := hafter next hnext
      omega

theorem mem_covered_cons {range : Nat × Nat} {ranges : List (Nat × Nat)} {cp : Nat} :
    cp ∈ covered (range :: ranges) ↔ (range.1 ≤ cp ∧ cp ≤ range.2) ∨ cp ∈ covered ranges := by
  simp only [covered, Set.mem_ofPred_eq, List.exists_mem_cons_iff]

/-- A sorted table covers nothing before its first range. -/
theorem le_of_mem_covered {range : Nat × Nat} {ranges : List (Nat × Nat)} {cp : Nat}
    (hsorted : SortedRanges (range :: ranges)) (hcp : cp ∈ covered (range :: ranges)) : range.1 ≤ cp := by
  obtain ⟨hrange, hnext, -⟩ := sortedRanges_cons.mp hsorted
  obtain hhere | ⟨next, hmem, hle, -⟩ := mem_covered_cons.mp hcp
  · exact hhere.1
  · have hlt := hnext next hmem
    omega

theorem not_mem_covered_nil (cp : Nat) : cp ∉ covered [] := by
  intro ⟨range, hmem, _⟩
  cases hmem

/-- Two sorted tables that are apart have no code point in common. -/
theorem disjoint_of_apart {fuel : Nat} {rs ss : List (Nat × Nat)} (hrs : SortedRanges rs)
    (hss : SortedRanges ss) (hapart : apart fuel rs ss = true) : Disjoint (covered rs) (covered ss) := by
  rw [Set.disjoint_left]
  intro cp hleft hright
  induction fuel, rs, ss using apart.induct with
  | case1 => exact not_mem_covered_nil cp hleft
  | case2 => exact not_mem_covered_nil cp hright
  | case3 rs ss hrs' hss' => cases rs <;> cases ss <;> simp_all [apart]
  | case4 fuel r rs s ss hbefore ih =>
      rw [apart, if_pos hbefore] at hapart
      have hle := le_of_mem_covered hss hright
      obtain hhere | hrest := mem_covered_cons.mp hleft
      · omega
      · exact ih (sortedRanges_cons.mp hrs).2.2 hss hapart hrest hright
  | case5 fuel r rs s ss hbefore hafter ih =>
      rw [apart, if_neg hbefore, if_pos hafter] at hapart
      have hle := le_of_mem_covered hrs hleft
      obtain hhere | hrest := mem_covered_cons.mp hright
      · omega
      · exact ih hrs (sortedRanges_cons.mp hss).2.2 hapart hleft hrest
  | case6 fuel r rs s ss hbefore hafter =>
      rw [apart, if_neg hbefore, if_neg hafter] at hapart
      cases hapart

theorem sortedRanges_identifierStart :
    SortedRanges kIdentifierStartRanges ∧ ∀ range ∈ kIdentifierStartRanges, 0x80 ≤ range.1 :=
  sortedRanges_of_inOrder (by decide +kernel)

theorem sortedRanges_identifierContinueExtra :
    SortedRanges kIdentifierContinueExtraRanges ∧
      ∀ range ∈ kIdentifierContinueExtraRanges, 0x80 ≤ range.1 :=
  sortedRanges_of_inOrder (by decide +kernel)

theorem disjoint_identifierTables :
    Disjoint (covered kIdentifierStartRanges) (covered kIdentifierContinueExtraRanges) :=
  @disjoint_of_apart 2000 _ _ sortedRanges_identifierStart.1 sortedRanges_identifierContinueExtra.1
    (by decide +kernel)

/-- The tables have no ASCII code point. -/
theorem not_ascii_of_covered {ranges : List (Nat × Nat)} (hascii : ∀ range ∈ ranges, 0x80 ≤ range.1)
    {cp : Nat} (hcp : cp ∈ covered ranges) : 0x7F < cp := by
  obtain ⟨range, hmem, hle, -⟩ := hcp
  have hbound := hascii range hmem
  omega

theorem isIdentifierStart_ascii {cp : Nat} (hcp : cp ≤ 0x7F) :
    Grammar.isIdentifierStart cp.toUInt8 = true ↔ cp ∈ asciiLetters := by
  have hall : ∀ cp < 0x80, Grammar.isIdentifierStart (Nat.toUInt8 cp) = true ↔
      (0x41 ≤ cp ∧ cp ≤ 0x5A) ∨ (0x61 ≤ cp ∧ cp ≤ 0x7A) ∨ cp = 0x5F ∨ cp = 0x24 := by
    decide +kernel
  exact hall cp (by omega)

theorem isIdentifierContinue_ascii {cp : Nat} (hcp : cp ≤ 0x7F) :
    Grammar.isIdentifierContinue cp.toUInt8 = true ↔ cp ∈ asciiLetters ∪ asciiDigits := by
  have hdigit : ∀ cp < 0x80, Grammar.isDigit (Nat.toUInt8 cp) = true ↔ 0x30 ≤ cp ∧ cp ≤ 0x39 := by
    decide +kernel
  rw [Grammar.isIdentifierContinue, Bool.or_eq_true, isIdentifierStart_ascii hcp, Set.mem_union]
  exact or_congr_right (hdigit cp (by omega))

theorem isIdentifierStart_iff (cp : Nat) :
    isIdentifierStart cp = true ↔ cp ∈ asciiLetters ∪ covered kIdentifierStartRanges := by
  rw [isIdentifierStart]
  obtain ⟨hsorted, hascii⟩ := sortedRanges_identifierStart
  split
  · next hcp =>
      rw [isIdentifierStart_ascii hcp, Set.mem_union, or_iff_left]
      intro hcovered
      have hlt := not_ascii_of_covered hascii hcovered
      omega
  · next hcp =>
      rw [(inRanges_spec hsorted cp).2, Set.mem_union, or_iff_right]
      simp only [asciiLetters, Set.mem_ofPred_eq]
      omega

theorem isIdentifierContinue_iff (cp : Nat) :
    isIdentifierContinue cp = true ↔
      cp ∈ asciiLetters ∪ asciiDigits ∪ covered kIdentifierStartRanges ∪
        covered kIdentifierContinueExtraRanges ∪ {0x200C, 0x200D} := by
  rw [isIdentifierContinue]
  obtain ⟨hstart, hstart'⟩ := sortedRanges_identifierStart
  obtain ⟨hextra, hextra'⟩ := sortedRanges_identifierContinueExtra
  split
  · next hcp =>
      have hne : cp ∉ covered kIdentifierStartRanges := fun hcovered => by
        have hlt := not_ascii_of_covered hstart' hcovered
        omega
      have hne' : cp ∉ covered kIdentifierContinueExtraRanges := fun hcovered => by
        have hlt := not_ascii_of_covered hextra' hcovered
        omega
      have hjoiner : cp ∉ ({0x200C, 0x200D} : Set Nat) := by
        simp only [Set.mem_insert_iff, Set.mem_singleton_iff]
        omega
      simp only [isIdentifierContinue_ascii hcp, Set.mem_union, hne, hne', hjoiner, or_false]
  · next hcp =>
      have hletters : cp ∉ asciiLetters := by
        simp only [asciiLetters, Set.mem_ofPred_eq]
        omega
      have hdigits : cp ∉ asciiDigits := by
        simp only [asciiDigits, Set.mem_ofPred_eq]
        omega
      simp only [Bool.or_eq_true, (inRanges_spec hstart cp).2, (inRanges_spec hextra cp).2, beq_iff_eq,
        Set.mem_union, hletters, hdigits, false_or, Set.mem_insert_iff, Set.mem_singleton_iff, or_assoc]

/-- In every sorted table of ranges the binary search ends, on membership. The shipped tables are sorted
and have no code point in common, so the identifier classes are the sets they describe. -/
theorem identifier_classes :
    (∀ ranges, SortedRanges ranges → ∀ cp,
      Search.bisect (probeRange ranges cp) (ranges.length.log2 + 2) 0 ranges.length =
          some (inRanges ranges cp) ∧
        (inRanges ranges cp = true ↔ cp ∈ covered ranges)) ∧
    SortedRanges kIdentifierStartRanges ∧ SortedRanges kIdentifierContinueExtraRanges ∧
    Disjoint (covered kIdentifierStartRanges) (covered kIdentifierContinueExtraRanges) ∧
    (∀ cp, isIdentifierStart cp = true ↔ cp ∈ asciiLetters ∪ covered kIdentifierStartRanges) ∧
    ∀ cp, isIdentifierContinue cp = true ↔
      cp ∈ asciiLetters ∪ asciiDigits ∪ covered kIdentifierStartRanges ∪
        covered kIdentifierContinueExtraRanges ∪ {0x200C, 0x200D} :=
  ⟨fun _ hsorted cp => inRanges_spec hsorted cp, sortedRanges_identifierStart.1,
    sortedRanges_identifierContinueExtra.1, disjoint_identifierTables, isIdentifierStart_iff,
    isIdentifierContinue_iff⟩

theorem identifier_classes_two_ranges : inRanges [(3, 5), (8, 8)] 8 = true :=
  (identifier_classes.1 [(3, 5), (8, 8)] ⟨by decide, by decide⟩ 8).2.mpr ⟨(8, 8), by decide, by decide⟩

end PjhJson.Unicode
