import PjhJson.ObjectIndex

/-! The capacity that `index_build` chooses, in the arithmetic of its machine words: the doubling loop
counts in a 64-bit `size_t`, and the table is sized by what is left in a `uint32_t`. -/

namespace PjhJson

namespace Index

/-- `while (cap < m_data.size() * 2) cap <<= 1;` A capacity that has been shifted out is doubled for
ever: after 64 steps the loop does not end. -/
def growCapacity (target : UInt64) : Nat → UInt64 → Option UInt64
  | 0, _ => none
  | fuel + 1, cap => if cap < target then growCapacity target fuel (cap <<< 1) else some cap

/-- The capacity that `index_build` passes to the constructor of `Index`. -/
def indexCapacity (size : UInt64) : Option UInt32 :=
  (growCapacity (size * 2) 64 32).map fun cap => cap.toUInt32

/-- What the table relies on: the capacity is a power of two with room for twice the entries, the mask
of the probe addresses allocated slots only, and no position is truncated in its slot. -/
def CapacityFits (size : UInt64) : Prop :=
  ∃ cap, indexCapacity size = some cap ∧ (∃ k, cap.toNat = 2 ^ k) ∧ 32 ≤ cap.toNat ∧
    2 * size.toNat ≤ cap.toNat ∧
    (∀ hash, hash &&& (ofCapacity cap).mask < (ofCapacity cap).slots.length) ∧
    ∀ pos < size.toNat, (pos.toUInt32 + 1).toNat = pos + 1

/-- A target that a shift can reach is reached, and at the first power of two that does. -/
theorem growCapacity_spec {target : UInt64} (htarget : target.toNat ≤ 2 ^ 63) {fuel k : Nat}
    {cap : UInt64} (hcap : cap.toNat = 2 ^ k) (hk : k ≤ 63) (hfuel : 63 < fuel + k) :
    ∃ cap' m, growCapacity target fuel cap = some cap' ∧ cap'.toNat = 2 ^ m ∧ k ≤ m ∧
      target.toNat ≤ 2 ^ m ∧ ∀ j, k ≤ j → target.toNat ≤ 2 ^ j → m ≤ j := by
  induction fuel generalizing k cap with
  | zero => omega
  | succ fuel ih =>
      rw [growCapacity]
      by_cases hlt : cap < target
      · have hlt' : 2 ^ k < target.toNat := hcap ▸ UInt64.lt_iff_toNat_lt.mp hlt
        have hk' : k < 63 := (Nat.pow_lt_pow_iff_right (by decide)).mp (hlt'.trans_le htarget)
        have hpow : 2 ^ (k + 1) ≤ 2 ^ 63 := Nat.pow_le_pow_right (by decide) hk'
        have hnext : (cap <<< 1).toNat = 2 ^ (k + 1) := by
          rw [UInt64.toNat_shiftLeft, hcap]
          change 2 ^ k <<< 1 % 2 ^ 64 = _
          rw [Nat.shiftLeft_eq, ← Nat.pow_add, Nat.mod_eq_of_lt (by omega)]
        obtain ⟨cap', m, hgrow, hcap', hle, hreach, hfirst⟩ := ih hnext hk' (by omega)
        refine ⟨cap', m, by rw [if_pos hlt, hgrow], hcap', by omega, hreach, fun j hj hreach' => ?_⟩
        have hne : k ≠ j := by
          rintro rfl
          omega
        exact hfirst j (by omega) hreach'
      · have hle : target.toNat ≤ 2 ^ k :=
          hcap ▸ Nat.le_of_not_lt fun h => hlt (UInt64.lt_iff_toNat_lt.mpr h)
        exact ⟨cap, k, if_neg hlt, hcap, Nat.le_refl k, hle, fun j hj _ => hj⟩

/-- Where doubling the number of entries does not overflow, `build` sizes its table as the loop does. -/
theorem build_eq_refill {keys : List Bytes} (hlength : keys.length ≤ 2 ^ 62) :
    ∃ cap, indexCapacity keys.length.toUInt64 = some cap ∧ build keys = refill keys (ofCapacity cap) := by
  have hsize : (keys.length.toUInt64 * 2).toNat = keys.length * 2 := by
    have htwo : (2 : UInt64).toNat = 2 := rfl
    rw [UInt64.toNat_mul, Nat.toUInt64_eq, UInt64.toNat_ofNat', htwo]
    omega
  obtain ⟨cap, m, hgrow, hcap, hle, hreach, hfirst⟩ := @growCapacity_spec (keys.length.toUInt64 * 2)
    (by omega) 64 5 32 rfl (by decide) (by decide)
  obtain ⟨k, hk, hreach', hle'⟩ := @Probe.doubleUntil_spec (keys.length * 2) (keys.length * 2) 5 (by omega)
  have hmk : m = k := by
    refine Nat.le_antisymm (hfirst k hle' (by omega)) ?_
    have hmin := Probe.doubleUntil_le (keys.length * 2) (by omega : keys.length * 2 ≤ 2 ^ m) hle
    rw [hk] at hmin
    exact (Nat.pow_le_pow_iff_right (by decide)).mp hmin
  refine ⟨cap.toUInt32, by rw [indexCapacity, hgrow]; rfl, ?_⟩
  have hnarrow : cap.toUInt32 = (2 ^ k).toUInt32 := by
    apply UInt32.toNat_inj.mp
    rw [UInt64.toNat_toUInt32, hcap, hmk, Nat.toUInt32_eq, UInt32.toNat_ofNat']
  rw [build, show (32 : Nat) = 2 ^ 5 from rfl, hk, hnarrow]

/-- The capacity fits exactly up to `2 ^ 30` entries: the next one takes a capacity of `2 ^ 32`, of
which no bit is left. -/
theorem capacityFits_iff (size : UInt64) : CapacityFits size ↔ size.toNat ≤ kMaxIndexed := by
  rw [kMaxIndexed]
  constructor
  · rintro ⟨cap, -, ⟨k, hk⟩, -, hroom, -⟩
    have hlt := cap.toNat_lt
    have hexp : k < 32 := (Nat.pow_lt_pow_iff_right (by decide)).mp (hk ▸ hlt)
    have hle : 2 ^ k ≤ 2 ^ 31 := Nat.pow_le_pow_right (by decide) (by omega)
    omega
  · intro hmax
    have hsize : (size * 2).toNat = size.toNat * 2 := by
      rw [UInt64.toNat_mul]
      exact Nat.mod_eq_of_lt (by change size.toNat * 2 < _; omega)
    obtain ⟨cap, m, hgrow, hcap, hle, hreach, hfirst⟩ := @growCapacity_spec (size * 2)
      (by omega) 64 5 32 rfl (by decide) (by decide)
    have hm : m ≤ 31 := hfirst 31 (by decide) (by omega)
    have hpow : 2 ^ m ≤ 2 ^ 31 := Nat.pow_le_pow_right (by decide) hm
    have hpow' : 2 ^ 5 ≤ 2 ^ m := Nat.pow_le_pow_right (by decide) hle
    have hnarrow : cap.toUInt32.toNat = 2 ^ m := by
      rw [UInt64.toNat_toUInt32, hcap, Nat.mod_eq_of_lt (by omega)]
    refine ⟨cap.toUInt32, by rw [indexCapacity, hgrow]; rfl, ⟨m, hnarrow⟩, by omega, by omega, ?_, ?_⟩
    · intro hash
      have hmask : (ofCapacity cap.toUInt32).mask = 2 ^ m - 1 := by
        change (cap.toUInt32 - 1).toNat = _
        rw [UInt32.toNat_sub_of_le _ _ (by
          rw [UInt32.le_iff_toNat_le, hnarrow]
          exact Nat.one_le_two_pow), hnarrow]
        rfl
      rw [hmask, Probe.and_mask, ofCapacity, List.length_replicate, hnarrow]
      exact Nat.mod_lt _ (Nat.two_pow_pos m)
    · intro pos hpos
      have hone : (1 : UInt32).toNat = 1 := rfl
      rw [UInt32.toNat_add, Nat.toUInt32_eq, UInt32.toNat_ofNat', hone]
      omega

/-- One entry more than fits. -/
theorem not_capacityFits_large : indexCapacity (2 ^ 30 + 1) = some 0 ∧ ¬CapacityFits (2 ^ 30 + 1) :=
  ⟨by decide +kernel, fun h => by
    have hle := (capacityFits_iff _).mp h
    exact absurd hle (by decide)⟩

end Index

end PjhJson
