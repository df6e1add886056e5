import Mathlib

/-! Binary search over positions. A probe tells on which side of a position the target lies; the loop
halves an interval of positions, and running out of rounds is visible in its result. -/

namespace Search

/-- Whether a position of `[lo, hi)` is the target's, in at most so many rounds. -/
def bisect (probe : Nat → Ordering) : Nat → Nat → Nat → Option Bool
  | 0, _, _ => none
  | rounds + 1, lo, hi =>
    if lo < hi then
      match probe (lo + (hi - lo) / 2) with
      | .lt => bisect probe rounds lo (lo + (hi - lo) / 2)
      | .gt => bisect probe rounds (lo + (hi - lo) / 2 + 1) hi
      | .eq => some true
    else some false

/-- The probes of the first `size` positions agree on where the target lies. -/
structure Guides (probe : Nat → Ordering) (size : Nat) : Prop where
  below : ∀ {i j}, i ≤ j → j < size → probe i = .lt → probe j = .lt
  above : ∀ {i j}, i ≤ j → j < size → probe j = .gt → probe i = .gt

/-- An interval shorter than `2 ^ rounds` is decided in `rounds + 1` rounds. -/
theorem bisect_spec {probe : Nat → Ordering} {size : Nat} (hguides : Guides probe size)
    {rounds lo hi : Nat} (hwidth : hi - lo < 2 ^ rounds) (hhi : hi ≤ size) :
    ∃ found, bisect probe (rounds + 1) lo hi = some found ∧
      (found = true ↔ ∃ i, lo ≤ i ∧ i < hi ∧ probe i = .eq) := by
  induction rounds generalizing lo hi with
  | zero =>
      have hempty : ¬lo < hi := by
        rw [Nat.pow_zero] at hwidth
        omega
      refine ⟨false, by rw [bisect, if_neg hempty], ?_⟩
      constructor
      · intro h
        cases h
      · intro ⟨i, hlo, hlt, _⟩
        omega
  | succ rounds ih =>
      rw [bisect]
      by_cases hlt : lo < hi
      · rw [if_pos hlt]
        rw [Nat.pow_succ] at hwidth
        cases hmid : probe (lo + (hi - lo) / 2) with
        | lt =>
            obtain ⟨found, hfound, hiff⟩ := @ih lo (lo + (hi - lo) / 2) (by omega) (by omega)
            refine ⟨found, hfound, hiff.trans ⟨?_, ?_⟩⟩
            · intro ⟨i, hi₁, hi₂, hprobe⟩
              exact ⟨i, hi₁, by omega, hprobe⟩
            · intro ⟨i, hi₁, hi₂, hprobe⟩
              refine ⟨i, hi₁, Nat.lt_of_not_le fun hle => ?_, hprobe⟩
              rw [hguides.below hle (by omega) hmid] at hprobe
              cases hprobe
        | eq =>
            refine ⟨true, rfl, fun _ => ⟨_, ?_, ?_, hmid⟩, fun _ => rfl⟩
            · omega
            · omega
        | gt =>
            obtain ⟨found, hfound, hiff⟩ := @ih (lo + (hi - lo) / 2 + 1) hi (by omega) hhi
            refine ⟨found, hfound, hiff.trans ⟨?_, ?_⟩⟩
            · intro ⟨i, hi₁, hi₂, hprobe⟩
              exact ⟨i, by omega, hi₂, hprobe⟩
            · intro ⟨i, hi₁, hi₂, hprobe⟩
              refine ⟨i, Nat.lt_of_not_le fun hle => ?_, hi₂, hprobe⟩
              rw [hguides.above hle (by omega) hmid] at hprobe
              cases hprobe
      · rw [if_neg hlt]
        refine ⟨false, rfl, ?_⟩
        constructor
        · intro h
          cases h
        · intro ⟨i, hlo, hlt', _⟩
          omega

end Search
