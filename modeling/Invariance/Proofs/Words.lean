import Invariance.Word
import Mathlib.Tactic

/-!
Words as numbers. Cutting a word to its low bits is reduction to the number of the same residue in the range of
the width, the width of a word is that of a range it lies in, and its bits are binary digits.
-/

namespace Invariance

/-- The numbers that `w` bits represent in two's complement. -/
def InRange (x : Int) (w : Nat) : Prop :=
  -2 ^ w ≤ 2 * x ∧ 2 * x < 2 ^ w

instance (x : Int) (w : Nat) : Decidable (InRange x w) :=
  inferInstanceAs (Decidable (_ ∧ _))

namespace InRange

variable {x y : Int} {v w : Nat}

theorem eq_of_dvd (hx : InRange x w) (hy : InRange y w) (h : (2 : Int) ^ w ∣ x - y) : x = y := by
  obtain ⟨hx₁, hx₂⟩ := hx
  obtain ⟨hy₁, hy₂⟩ := hy
  have hpos : (0 : Int) < 2 ^ w := by positivity
  have hzero : x - y = 0 := Int.eq_zero_of_abs_lt_dvd h (by rw [abs_lt]; constructor <;> omega)
  omega

theorem mono (h : InRange x v) (hvw : v ≤ w) : InRange x w := by
  obtain ⟨h₁, h₂⟩ := h
  have hpow : (2 : Int) ^ v ≤ 2 ^ w := pow_le_pow_right₀ (by decide) hvw
  exact ⟨by omega, by omega⟩

theorem bmod (hw : 1 ≤ w) : InRange (x.bmod (2 ^ w)) w := by
  obtain ⟨n, rfl⟩ : ∃ n, w = n + 1 := ⟨w - 1, by omega⟩
  have hpos : 0 < 2 ^ (n + 1) := by positivity
  have hle := Int.le_bmod (x := x) hpos
  have hlt := Int.bmod_lt (x := x) hpos
  have hcast : ((2 ^ (n + 1) : Nat) : Int) = 2 ^ (n + 1) := by norm_cast
  have hsucc : (2 : Int) ^ (n + 1) = 2 * 2 ^ n := by rw [Int.pow_succ]; ring
  rw [hcast] at hle hlt
  constructor <;> omega

/-- Reduction to the range of a width is the only number of the range with the same residue. -/
theorem bmod_eq (hw : 1 ≤ w) (hy : InRange y w) (h : (2 : Int) ^ w ∣ x - y) : x.bmod (2 ^ w) = y := by
  refine eq_of_dvd (bmod hw) hy ?_
  have hself : (2 : Int) ^ w ∣ x.bmod (2 ^ w) - x := by
    have := Int.dvd_bmod_sub_self (x := x) (m := 2 ^ w)
    rwa [show ((2 ^ w : Nat) : Int) = 2 ^ w by norm_cast] at this
  have hsum := dvd_add hself h
  rwa [sub_add_sub_cancel] at hsum

theorem bmod_eq_self (hw : 1 ≤ w) (hx : InRange x w) : x.bmod (2 ^ w) = x :=
  bmod_eq hw hx (by simp)

end InRange

theorem dvd_bmod_sub (x : Int) (w : Nat) : (2 : Int) ^ w ∣ x.bmod (2 ^ w) - x := by
  have := Int.dvd_bmod_sub_self (x := x) (m := 2 ^ w)
  rwa [show ((2 ^ w : Nat) : Int) = 2 ^ w by norm_cast] at this

namespace Word

variable {v : Int64} {w i : Nat} {x : Int}

theorem inRange_toInt (v : Int64) : InRange v.toInt 64 := by
  have h₁ := v.le_toInt
  have h₂ := v.toInt_lt
  constructor <;> norm_num at * <;> omega

/-- A shift by fewer than 64 places is a shift by that many places. -/
theorem smod_ofNat {n : Nat} (h : n < 64) : ((Int64.ofNat n).toBitVec.smod 64).toNat = n := by
  interval_cases n <;> rfl

theorem toInt_shiftRight {n : Nat} (h : n < 64) : (v >>> Int64.ofNat n).toInt = v.toInt / 2 ^ n := by
  change (v >>> Int64.ofNat n).toBitVec.toInt = _
  rw [Int64.toBitVec_shiftRight, BitVec.toInt_sshiftRight', smod_ofNat h, Int.shiftRight_eq_div_pow]
  norm_cast

theorem dvd_toInt_shiftLeft {n : Nat} (h : n < 64) :
    (2 : Int) ^ 64 ∣ (v <<< Int64.ofNat n).toInt - v.toInt * 2 ^ n := by
  have hleft : (v <<< Int64.ofNat n).toInt = ((v.toBitVec.toNat : Int) * 2 ^ n).bmod (2 ^ 64) := by
    change (v <<< Int64.ofNat n).toBitVec.toInt = _
    rw [Int64.toBitVec_shiftLeft, BitVec.shiftLeft_eq', smod_ofNat h, BitVec.toInt_shiftLeft,
      Nat.shiftLeft_eq, Nat.cast_mul, Nat.cast_pow, Nat.cast_ofNat]
  have hnat : (2 : Int) ^ 64 ∣ (v.toBitVec.toNat : Int) - v.toInt := by
    change (2 : Int) ^ 64 ∣ (v.toBitVec.toNat : Int) - v.toBitVec.toInt
    rw [BitVec.toInt_eq_toNat_bmod, ← dvd_neg, neg_sub]
    exact dvd_bmod_sub _ 64
  rw [hleft]
  have hsum := dvd_add (dvd_bmod_sub ((v.toBitVec.toNat : Int) * 2 ^ n) 64)
    (hnat.mul_right (2 ^ n))
  rwa [show ∀ a b c d : Int, a - b * d + (b - c) * d = a - c * d by intros; ring] at hsum

theorem toInt_truncate (h₁ : 1 ≤ w) (h₂ : w ≤ 64) : (truncate v w).toInt = v.toInt.bmod (2 ^ w) := by
  have hn : 64 - w < 64 := by omega
  have hsplit : (2 : Int) ^ 64 = 2 ^ (64 - w) * 2 ^ w := by rw [← pow_add]; congr 1; omega
  have hpos : (0 : Int) < 2 ^ (64 - w) := by positivity
  -- what the left shift leaves is a multiple of the power that the right shift divides by
  obtain ⟨q, hq⟩ := dvd_toInt_shiftLeft (v := v) hn
  rw [hsplit, mul_assoc, sub_eq_iff_eq_add, mul_comm v.toInt, ← mul_add] at hq
  have hrange := inRange_toInt (v <<< Int64.ofNat (64 - w))
  rw [truncate, toInt_shiftRight hn, hq, Int.mul_ediv_cancel_left _ hpos.ne']
  refine (InRange.bmod_eq h₁ ?_ ⟨-q, by ring⟩).symm
  rw [hq, InRange, hsplit] at hrange
  obtain ⟨hlow, hhigh⟩ := hrange
  constructor <;> nlinarith

theorem inRange_truncate (h₁ : 1 ≤ w) (h₂ : w ≤ 64) : InRange (truncate v w).toInt w := by
  rw [toInt_truncate h₁ h₂]
  exact .bmod h₁

theorem truncate_eq_self_iff (h₁ : 1 ≤ w) (h₂ : w ≤ 64) : truncate v w = v ↔ InRange v.toInt w := by
  refine ⟨fun h => h ▸ inRange_truncate h₁ h₂, fun h => Int64.toInt_inj.mp ?_⟩
  rw [toInt_truncate h₁ h₂, h.bmod_eq_self h₁]

theorem wrap_eq_ok (h₁ : 1 ≤ w) (h₂ : w ≤ 64) : wrap v w = .ok (truncate v w) :=
  if_pos ⟨h₁, h₂⟩

/-! ### Residues -/

/-- Arithmetic modulo `2 ^ 64` is right modulo every smaller power. -/
theorem toInt_modEq (hw : w ≤ 64) (h : v.toInt = x.bmod (2 ^ 64)) : v.toInt ≡ x [ZMOD 2 ^ w] := by
  have hword : v.toInt ≡ x [ZMOD 2 ^ 64] := by
    rw [h]
    exact (Int.modEq_iff_dvd.mpr (dvd_bmod_sub x 64)).symm
  exact hword.of_dvd (pow_dvd_pow 2 hw)

theorem truncate_modEq (h₁ : 1 ≤ w) (h₂ : w ≤ 64) : (truncate v w).toInt ≡ v.toInt [ZMOD 2 ^ w] := by
  rw [toInt_truncate h₁ h₂]
  exact (Int.modEq_iff_dvd.mpr (dvd_bmod_sub v.toInt w)).symm

/-- What is left of a word is the only number in the range of the width that has the residue of the word. -/
theorem toInt_truncate_eq_iff (h₁ : 1 ≤ w) (h₂ : w ≤ 64) :
    (truncate v w).toInt = x ↔ InRange x w ∧ x ≡ v.toInt [ZMOD 2 ^ w] := by
  constructor
  · rintro rfl
    exact ⟨inRange_truncate h₁ h₂, truncate_modEq h₁ h₂⟩
  · rintro ⟨hrange, hmod⟩
    exact (inRange_truncate h₁ h₂).eq_of_dvd hrange (Int.modEq_iff_dvd.mp (hmod.trans (truncate_modEq h₁ h₂).symm))

/-! ### The width of a word -/

theorem one_le_width (v : Int64) : 1 ≤ width v :=
  Nat.le_add_left 1 _

theorem lt_two_pow_digits (n : Nat) : n < 2 ^ digits n := by
  unfold digits
  split
  · next h => simp [h]
  · exact Nat.lt_log2_self

/-- The number whose digits count for the width of `v`. -/
theorem toInt_magnitude (v : Int64) :
    (if v < 0 then ~~~v else v).toInt = if v.toInt < 0 then -v.toInt - 1 else v.toInt := by
  have h₁ := v.le_toInt
  have h₂ := v.toInt_lt
  have hiff : v < 0 ↔ v.toInt < 0 := Int64.lt_iff_toInt_lt
  by_cases h : v.toInt < 0
  · rw [if_pos (hiff.mpr h), if_pos h, Int64.toInt_not]
    exact InRange.bmod_eq_self (w := 64) (by decide) (by constructor <;> norm_num at * <;> omega)
  · rw [if_neg (hiff.not.mpr h), if_neg h]

theorem inRange_width (v : Int64) : InRange v.toInt (width v) := by
  have hlt := lt_two_pow_digits (if v < 0 then ~~~v else v).toInt.toNat
  unfold width InRange
  rw [toInt_magnitude] at *
  generalize digits _ = d at *
  have hcast : (((2 : Nat) ^ d : Nat) : Int) = 2 ^ d := by norm_cast
  have hsucc : (2 : Int) ^ (d + 1) = 2 ^ d * 2 := pow_succ 2 d
  rw [hsucc]
  split at hlt <;> constructor <;> omega

theorem digits_le {n k : Nat} (h : n < 2 ^ k) : digits n ≤ k := by
  unfold digits
  split
  · exact Nat.zero_le k
  · next hn => exact (Nat.log2_lt hn).mpr h

/-- There is no smaller range that a word lies in. -/
theorem width_le_of_inRange (hw : 1 ≤ w) (h : InRange v.toInt w) : width v ≤ w := by
  obtain ⟨k, rfl⟩ : ∃ k, w = k + 1 := ⟨w - 1, by omega⟩
  have hlt : (if v < 0 then ~~~v else v).toInt.toNat < 2 ^ k := by
    obtain ⟨hlow, hhigh⟩ := h
    have hcast : (((2 : Nat) ^ k : Nat) : Int) = 2 ^ k := by norm_cast
    rw [pow_succ] at hlow hhigh
    rw [toInt_magnitude]
    split <;> omega
  exact Nat.succ_le_succ (digits_le hlt)

theorem width_le (v : Int64) : width v ≤ 64 :=
  width_le_of_inRange (by decide) (inRange_toInt v)

/-- The larger of two widths is a width. -/
theorem width_max {m n : Nat} (hm : 1 ≤ m ∧ m ≤ 64) (hn : 1 ≤ n ∧ n ≤ 64) : 1 ≤ max m n ∧ max m n ≤ 64 := by
  omega

/-! ### Bits -/

theorem bit_eq_ok (h : i < 64) : bit v i = .ok (decide (v.toInt / 2 ^ i % 2 = 1)) := by
  rw [bit, if_pos h]
  congr 1
  rw [Bool.eq_iff_iff, beq_iff_eq, decide_eq_true_iff, ← toInt_shiftRight h]
  generalize v >>> Int64.ofNat i = x
  rw [← Int64.toBitVec_inj, Int64.toBitVec_and]
  have hmod : x.toInt % 2 = ((x.toBitVec.toNat % 2 : Nat) : Int) := by
    change x.toBitVec.toInt % 2 = _
    rw [BitVec.toInt_eq_toNat_bmod, Int.natCast_emod, Int.bmod_def]
    split <;> omega
  rw [hmod, ← BitVec.toNat_inj, BitVec.toNat_and]
  simp only [show Int64.toBitVec 1 = 1#64 from rfl, BitVec.toNat_ofNat,
    show 1 % 2 ^ 64 = 1 from rfl, Nat.and_one_is_mod]
  omega

end Word

end Invariance
