import Mathlib

/-! A memory is the list of its cells, and an address is an index into it. `overlay` writes a run of
cells in place and `slice` reads one; `blockScan` looks for the first cell that meets a test and
loads a block of cells at a time, as vectorised code does. -/

namespace Memory

variable {α : Type}

/-- The `length` cells from `offset` on. -/
def slice (memory : List α) (offset length : Nat) : List α := (memory.drop offset).take length

/-- Write `cells` over the cells from `pos` on. -/
def overlay (memory : List α) (pos : Nat) (cells : List α) : List α :=
  memory.take pos ++ cells ++ memory.drop (pos + cells.length)

/-- The address of the first cell from `pos` on that meets `hit`, found `width` cells at a time.
There is none when a load would leave the memory, or after `fuel` loads. -/
def blockScan (width : Nat) (hit : α → Bool) (memory : List α) : Nat → Nat → Option Nat
  | 0, _ => none
  | fuel + 1, pos =>
    if pos + width ≤ memory.length then
      match (slice memory pos width).findIdx? hit with
      | some lane => some (pos + lane)
      | none => blockScan width hit memory fuel (pos + width)
    else none

/-! ### Writing in place -/

theorem length_overlay {memory : List α} {pos : Nat} {cells : List α}
    (h : pos + cells.length ≤ memory.length) : (overlay memory pos cells).length = memory.length := by
  simp only [overlay, List.length_append, List.length_take, List.length_drop]
  omega

theorem take_overlay {memory : List α} {pos n : Nat} (cells : List α) (hn : n ≤ pos)
    (hpos : pos ≤ memory.length) : (overlay memory pos cells).take n = memory.take n := by
  have hlen : n ≤ (memory.take pos).length := by rw [List.length_take]; omega
  rw [overlay, List.append_assoc, List.take_append_of_le_length hlen, List.take_take,
    Nat.min_eq_left hn]

theorem drop_overlay {memory : List α} {pos n : Nat} {cells : List α}
    (hn : pos + cells.length ≤ n) (hpos : pos ≤ memory.length) :
    (overlay memory pos cells).drop n = memory.drop n := by
  have hlen : (memory.take pos ++ cells).length = pos + cells.length := by
    rw [List.length_append, List.length_take, Nat.min_eq_left hpos]
  rw [overlay, List.drop_append, List.drop_eq_nil_of_le (by omega), List.nil_append, hlen,
    List.drop_drop]
  congr 1
  omega

/-- Reads below an address see only the cells below it. -/
theorem slice_congr {memory other : List α} {n offset length : Nat}
    (h : other.take n = memory.take n) (hle : offset + length ≤ n) :
    slice other offset length = slice memory offset length := by
  have hslice : ∀ cells : List α,
      slice cells offset length = ((cells.take n).drop offset).take length := by
    intro cells
    rw [slice, List.drop_take, List.take_take, Nat.min_eq_left (by omega)]
  rw [hslice, hslice, h]

/-- A write at the end of a slice extends it. -/
theorem slice_overlay {memory : List α} {start pos : Nat} (cells : List α) (hstart : start ≤ pos)
    (hpos : pos ≤ memory.length) :
    slice (overlay memory pos cells) start (pos + cells.length - start) =
      slice memory start (pos - start) ++ cells := by
  have hlen : (memory.take pos).length = pos := by rw [List.length_take, Nat.min_eq_left hpos]
  have hdrop : (memory.take pos ++ cells).drop start = (memory.take pos).drop start ++ cells :=
    List.drop_append_of_le_length (by omega)
  have htotal : ((memory.take pos).drop start ++ cells).length = pos + cells.length - start := by
    rw [List.length_append, List.length_drop, hlen]
    omega
  rw [slice, overlay, List.drop_append_of_le_length (by rw [List.length_append, hlen]; omega),
    hdrop, ← htotal, List.take_left, slice, List.drop_take]

/-! ### Scanning by blocks -/

/-- The block scan stops where a scan of single cells does, when the block around that cell can be
loaded. -/
theorem blockScan_eq {width : Nat} {hit : α → Bool} {memory plain more : List α} {cell : α}
    {fuel pos : Nat} (hwidth : 0 < width) (hplain : ∀ other ∈ plain, hit other = false)
    (hcell : hit cell = true) (hmemory : memory.drop pos = plain ++ cell :: more)
    (hroom : width ≤ more.length + 1) (hfuel : plain.length < fuel) :
    blockScan width hit memory fuel pos = some (pos + plain.length) := by
  induction fuel generalizing pos plain with
  | zero => omega
  | succ fuel ih =>
      have hlength : memory.length - pos = plain.length + (more.length + 1) := by
        rw [← List.length_drop, hmemory, List.length_append, List.length_cons]
      rw [blockScan, if_pos (by omega), slice, hmemory]
      by_cases hblock : width ≤ plain.length
      · -- the whole block is plain
        have hnone : ((plain ++ cell :: more).take width).findIdx? hit = none := by
          rw [List.take_append_of_le_length hblock, List.findIdx?_eq_none_iff]
          intro other hmem
          exact hplain other (List.mem_of_mem_take hmem)
        rw [hnone]
        have hnext : memory.drop (pos + width) = plain.drop width ++ cell :: more := by
          rw [← List.drop_drop, hmemory, List.drop_append_of_le_length hblock]
        have hdrop : (plain.drop width).length < fuel := by rw [List.length_drop]; omega
        have := ih (fun other hmem => hplain other (List.mem_of_mem_drop hmem)) hnext hdrop
        rw [List.length_drop] at this
        simp only [this]
        congr 1
        omega
      · have hsome : ((plain ++ cell :: more).take width).findIdx? hit = some plain.length := by
          obtain ⟨k, hk⟩ : ∃ k, width = plain.length + (k + 1) := ⟨width - plain.length - 1, by omega⟩
          have hnone : plain.findIdx? hit = none := List.findIdx?_eq_none_iff.mpr hplain
          rw [hk, List.take_append, List.take_of_length_le (by omega), Nat.add_sub_cancel_left,
            List.take_succ_cons, List.findIdx?_append, hnone, List.findIdx?_cons, hcell]
          simp
        rw [hsome]

end Memory
