import Mathlib

/-! Numbers rounded to the points of a grid. A rounding is bracketed when it picks the point below the
number or the next one, and the number itself where it is a point: no point is ever passed on the way. -/

namespace Grid

variable {α : Type} [LinearOrder α] {grid : Nat → α}

/-- `r` is the point `below`, or the next one; the number lies between them. -/
structure Brackets (grid : Nat → α) (x : α) (below r : Nat) : Prop where
  le : grid below ≤ x
  lt : x < grid (below + 1)
  near : r = below ∨ r = below + 1
  exact : x = grid below → r = below

variable {x : α} {below r j : Nat}

/-- The rounding does not fall below a point that the number reaches. -/
theorem Brackets.le_of_grid_le (h : Brackets grid x below r) (hmono : StrictMono grid)
    (hj : grid j ≤ x) : j ≤ r := by
  have hlt : j < below + 1 := hmono.lt_iff_lt.mp (hj.trans_lt h.lt)
  obtain rfl | rfl := h.near
  · omega
  · omega

/-- Nor does it rise above a point that bounds the number. -/
theorem Brackets.le_of_le_grid (h : Brackets grid x below r) (hmono : StrictMono grid)
    (hj : x ≤ grid j) : r ≤ j := by
  have hle : below ≤ j := hmono.le_iff_le.mp (h.le.trans hj)
  obtain hexact | hlt := h.le.eq_or_lt
  · exact (h.exact hexact.symm).trans_le hle
  · have hlt' : below < j := hmono.lt_iff_lt.mp (hlt.trans_le hj)
    obtain rfl | rfl := h.near
    · exact hle
    · exact hlt'

/-- A point is rounded to itself. -/
theorem Brackets.eq_of_grid (h : Brackets grid (grid j) below r) (hmono : StrictMono grid) : r = j :=
  Nat.le_antisymm (h.le_of_le_grid hmono le_rfl) (h.le_of_grid_le hmono le_rfl)

end Grid
