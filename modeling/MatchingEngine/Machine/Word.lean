import MatchingEngine.Machine.Checked

/-!
# 64-bit words as sets of bit positions

A word is read as the set of positions of its set bits. The masks built by
shifting and subtracting are characterized by their members, and the two scan
instructions by the extreme member they find. The zero word has no extreme
member, so a scan of it is a fault.
-/

namespace Machine

open Checked

abbrev Word := BitVec 64

/-- `1ULL << k`, for a shift below the width. -/
def bit (k : Nat) : Word := 1#64 <<< k

theorem getLsbD_bit {k : Nat} (hk : k < 64) (j : Nat) : (bit k).getLsbD j = decide (j = k) := by
  simp only [bit, BitVec.getLsbD_shiftLeft, BitVec.getLsbD_one]
  by_cases h : j = k
  · simp [h, hk]
  · have : ¬(k ≤ j ∧ j - k = 0) := by omega
    simp only [h, decide_false]
    by_cases hkj : j < k
    · simp [hkj]
    · have : j - k ≠ 0 := by omega
      simp [this]

theorem toNat_bit {k : Nat} (hk : k < 64) : (bit k).toNat = 2 ^ k := by
  have : 2 ^ k < 2 ^ 64 := Nat.pow_lt_pow_right (by decide) hk
  simp only [bit, BitVec.toNat_shiftLeft, Nat.shiftLeft_eq, BitVec.toNat_ofNat]
  rw [Nat.mod_eq_of_lt (by decide : 1 < 2 ^ 64), Nat.one_mul, Nat.mod_eq_of_lt this]

/-- `(1ULL << k) - 1` holds the positions below `k`. -/
theorem getLsbD_bit_sub_one {k : Nat} (hk : k < 64) (j : Nat) :
    (bit k - 1).getLsbD j = decide (j < k) := by
  have hpow : 2 ^ k < 2 ^ 64 := Nat.pow_lt_pow_right (by decide) hk
  have hpos : 0 < 2 ^ k := Nat.two_pow_pos k
  have value : (bit k - 1).toNat = 2 ^ k - 1 := by
    rw [BitVec.toNat_sub_of_le, toNat_bit hk]
    · rfl
    · rw [BitVec.le_def, toNat_bit hk]
      exact hpos
  rw [← BitVec.testBit_toNat, value, Nat.testBit_two_pow_sub_one]

/-- `(((1ULL << k) - 1) << 1) | 1` holds the positions up to and including `k`. -/
theorem getLsbD_bit_sub_one_shift {k : Nat} (hk : k < 64) {j : Nat} (hj : j < 64) :
    ((bit k - 1) <<< 1 ||| 1).getLsbD j = decide (j ≤ k) := by
  simp only [BitVec.getLsbD_or, BitVec.getLsbD_shiftLeft, getLsbD_bit_sub_one hk]
  cases j with
  | zero => simp
  | succ j =>
      have : (1 : Word).getLsbD (j + 1) = false := by
        change (1#64).getLsbD (j + 1) = false
        simp
      have hle : j < k ↔ j + 1 ≤ k := Nat.lt_iff_add_one_le
      simp only [this, hj, Nat.add_sub_cancel, decide_eq_decide.mpr hle]
      simp

theorem getLsbD_not_mask {mask : Word} {j : Nat} (hj : j < 64) (w : Word) :
    (w &&& ~~~mask).getLsbD j = (w.getLsbD j && !mask.getLsbD j) := by
  simp [hj]

/-- A word is zero exactly when it has no member. -/
theorem eq_zero_iff {w : Word} : w = 0 ↔ ∀ j < 64, w.getLsbD j = false := by
  constructor
  · rintro rfl j _
    simp
  · intro h
    apply BitVec.eq_of_getLsbD_eq
    intro j hj
    simpa using h j hj

theorem ne_zero_iff {w : Word} : w ≠ 0 ↔ ∃ j < 64, w.getLsbD j = true := by
  rw [Ne, eq_zero_iff]
  simp

theorem lt_of_getLsbD {w : Word} {j : Nat} (h : w.getLsbD j = true) : j < 64 := by
  by_contra hj
  rw [BitVec.getLsbD_of_ge w j (by omega)] at h
  cases h

/-! ## Scans -/

/-- `c` is the lowest member of the word. -/
def IsLowest (w : Word) (c : Nat) : Prop :=
  w.getLsbD c = true ∧ ∀ j, w.getLsbD j = true → c ≤ j

/-- `c` is the highest member of the word. -/
def IsHighest (w : Word) (c : Nat) : Prop :=
  w.getLsbD c = true ∧ ∀ j, w.getLsbD j = true → j ≤ c

/-- `std::countr_zero`, whose result indexes a bit only for a non-zero word. -/
def countrZero (w : Word) : Checked Nat :=
  if w ≠ 0 then .ok w.ctz.toNat else .error .zeroWord

/-- `std::countl_zero`. -/
def countlZero (w : Word) : Checked Nat :=
  if w ≠ 0 then .ok w.clz.toNat else .error .zeroWord

theorem isLowest_ctz {w : Word} (h : w ≠ 0) : IsLowest w w.ctz.toNat := by
  refine ⟨BitVec.getLsbD_true_ctz_of_ne_zero h, ?_⟩
  intro j hj
  by_contra hlt
  rw [BitVec.getLsbD_false_of_lt_ctz (by omega)] at hj
  cases hj

theorem isHighest_clz {w : Word} (h : w ≠ 0) : IsHighest w (63 - w.clz.toNat) := by
  refine ⟨BitVec.getLsbD_true_clz_of_ne_zero (by decide) h, ?_⟩
  intro j hj
  by_contra hlt
  have hw : w.toNat < 2 ^ (64 - w.clz.toNat) := BitVec.toNat_lt_two_pow_sub_clz
  have hbound : w.toNat < 2 ^ j :=
    Nat.lt_of_lt_of_le hw (Nat.pow_le_pow_right (by decide) (by omega))
  rw [← BitVec.testBit_toNat, Nat.testBit_lt_two_pow hbound] at hj
  cases hj

theorem clz_le {w : Word} (h : w ≠ 0) : w.clz.toNat ≤ 63 := by
  have hlt := BitVec.clz_lt_iff_ne_zero.mpr h
  rw [BitVec.lt_def] at hlt
  change w.clz.toNat < 64 at hlt
  omega

theorem countrZero_spec {w : Word} (h : w ≠ 0) :
    (countrZero w).Returns (fun c => c < 64 ∧ IsLowest w c) := by
  rw [countrZero, if_pos h]
  exact ⟨lt_of_getLsbD (isLowest_ctz h).1, isLowest_ctz h⟩

theorem countlZero_spec {w : Word} (h : w ≠ 0) :
    (countlZero w).Returns (fun z => z ≤ 63 ∧ IsHighest w (63 - z)) := by
  rw [countlZero, if_pos h]
  exact ⟨clz_le h, isHighest_clz h⟩

end Machine
