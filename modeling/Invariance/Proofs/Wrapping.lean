import Invariance.Proofs.Words

/-!
Wrapping, up to the limits of 64 bits. To wrap a word at a width takes it to the number of the same residue in the range of
the width, so sums, differences and negatives may be wrapped late; what wrapping leaves alone are the words that the width
holds.
-/

namespace Invariance

theorem inRange_iff_bounds {x : Int} {w : Nat} (hw : 1 ≤ w) : InRange x w ↔ -2 ^ (w - 1) ≤ x ∧ x < 2 ^ (w - 1) := by
  obtain ⟨n, rfl⟩ : ∃ n, w = n + 1 := ⟨w - 1, by omega⟩
  have hsucc : (2 : Int) ^ (n + 1) = 2 * 2 ^ n := by rw [Int.pow_succ]; ring
  rw [InRange, Nat.add_sub_cancel, hsucc]
  omega

namespace Word

variable {a b v : Int64} {x y : Int} {w : Nat}

/-! ### Arithmetic on what is left of words -/

/-- Of an operation, wrapping sees nothing but the residue of the exact result. -/
theorem truncate_congr (h₁ : 1 ≤ w) (h₂ : w ≤ 64) (ha : a.toInt = x.bmod (2 ^ 64)) (hb : b.toInt = y.bmod (2 ^ 64))
    (h : x ≡ y [ZMOD 2 ^ w]) : truncate a w = truncate b w := by
  have hresidue : (truncate b w).toInt ≡ a.toInt [ZMOD 2 ^ w] :=
    calc (truncate b w).toInt
        ≡ b.toInt [ZMOD 2 ^ w] := truncate_modEq h₁ h₂
      _ ≡ y [ZMOD 2 ^ w] := toInt_modEq h₂ hb
      _ ≡ x [ZMOD 2 ^ w] := h.symm
      _ ≡ a.toInt [ZMOD 2 ^ w] := (toInt_modEq h₂ ha).symm
  exact Int64.toInt_inj.mp ((toInt_truncate_eq_iff h₁ h₂).mpr ⟨inRange_truncate h₁ h₂, hresidue⟩)

theorem truncate_add (h₁ : 1 ≤ w) (h₂ : w ≤ 64) (a b : Int64) :
    truncate (a + b) w = truncate (truncate a w + truncate b w) w := by
  have hsum : a.toInt + b.toInt ≡ (truncate a w).toInt + (truncate b w).toInt [ZMOD 2 ^ w] :=
    (truncate_modEq h₁ h₂).symm.add (truncate_modEq h₁ h₂).symm
  exact truncate_congr h₁ h₂ (Int64.toInt_add _ _) (Int64.toInt_add _ _) hsum

theorem truncate_sub (h₁ : 1 ≤ w) (h₂ : w ≤ 64) (a b : Int64) :
    truncate (a - b) w = truncate (truncate a w - truncate b w) w := by
  have hdifference : a.toInt - b.toInt ≡ (truncate a w).toInt - (truncate b w).toInt [ZMOD 2 ^ w] :=
    (truncate_modEq h₁ h₂).symm.sub (truncate_modEq h₁ h₂).symm
  exact truncate_congr h₁ h₂ (Int64.toInt_sub _ _) (Int64.toInt_sub _ _) hdifference

theorem truncate_neg (h₁ : 1 ≤ w) (h₂ : w ≤ 64) (a : Int64) : truncate (-a) w = truncate (-truncate a w) w := by
  have hnegative : -a.toInt ≡ -(truncate a w).toInt [ZMOD 2 ^ w] := (truncate_modEq h₁ h₂).symm.neg
  exact truncate_congr h₁ h₂ (Int64.toInt_neg _) (Int64.toInt_neg _) hnegative

/-! ### Widths -/

/-- A width holds the words whose own width is no larger. -/
theorem truncate_eq_self_iff_width_le (h₁ : 1 ≤ w) (h₂ : w ≤ 64) : truncate v w = v ↔ width v ≤ w :=
  (truncate_eq_self_iff h₁ h₂).trans ⟨width_le_of_inRange h₁, (inRange_width v).mono⟩

theorem digits_toNat (x : BitVec 64) : digits x.toNat = 64 - x.clz.toNat := by
  refine le_antisymm (digits_le BitVec.toNat_lt_two_pow_sub_clz) ?_
  by_cases hx : x = 0#64
  · rw [BitVec.clz_eq_iff_eq_zero.mpr hx, hx]
    decide
  · have hne : x.toNat ≠ 0 := fun h => hx (BitVec.eq_of_toNat_eq h)
    have hlog : 64 - 1 - x.clz.toNat ≤ x.toNat.log2 :=
      (Nat.le_log2 hne).mpr (BitVec.two_pow_sub_clz_le_toNat_of_ne_zero (by decide) hx)
    rw [digits, if_neg hne]
    omega

/-- The width of a word, by the zeros that stand before its digits or those of its complement. -/
theorem width_eq_sub_clz (v : Int64) : width v = 65 - (if v < 0 then ~~~v else v).toBitVec.clz.toNat := by
  have hmagnitude := toInt_magnitude v
  rw [width]
  generalize (if v < 0 then ~~~v else v) = m at *
  have hnat : m.toInt.toNat = m.toBitVec.toNat := by
    have hnonneg : 0 ≤ m.toInt := by rw [hmagnitude]; split <;> omega
    have hsigned : m.toInt = _ := BitVec.toInt_eq_toNat_cond m.toBitVec
    split at hsigned <;> omega
  have hle : m.toBitVec.clz.toNat ≤ 64 := BitVec.clz_le
  rw [hnat, digits_toNat]
  omega

/-- Words are wrapped and measured exactly. Wrapping has one result, the only number in the range of the width that is
congruent to the word; it leaves just those words alone whose own width is no larger; that width lies between 1 and 64, and
is what the leading zeros of the word, or of its complement, leave of 65; and it makes no difference to a sum, a difference
or a negative whether the operands were wrapped before. -/
theorem wrapping_exact (v : Int64) (hw : 1 ≤ w ∧ w ≤ 64) :
    (∃ r, wrap v w = .ok r ∧ ∀ z : Int, z = r.toInt ↔
      (-2 ^ (w - 1) ≤ z ∧ z < 2 ^ (w - 1)) ∧ z ≡ v.toInt [ZMOD 2 ^ w]) ∧
    (wrap v w = .ok v ↔ width v ≤ w) ∧
    (1 ≤ width v ∧ width v ≤ 64 ∧ width v = 65 - (if v < 0 then ~~~v else v).toBitVec.clz.toNat) ∧
    (∀ a b, wrap (a + b) w = (do wrap ((← wrap a w) + (← wrap b w)) w)) ∧
    (∀ a b, wrap (a - b) w = (do wrap ((← wrap a w) - (← wrap b w)) w)) ∧
    ∀ a, wrap (-a) w = (do wrap (-(← wrap a w)) w) := by
  obtain ⟨h₁, h₂⟩ := hw
  refine ⟨⟨truncate v w, wrap_eq_ok h₁ h₂, fun z => ?_⟩, ?_, ⟨one_le_width v, width_le v, width_eq_sub_clz v⟩,
    fun a b => ?_, fun a b => ?_, fun a => ?_⟩
  · rw [← inRange_iff_bounds h₁, ← toInt_truncate_eq_iff h₁ h₂, eq_comm]
  · rw [wrap_eq_ok h₁ h₂, Except.ok.injEq, truncate_eq_self_iff_width_le h₁ h₂]
  · simp only [wrap_eq_ok h₁ h₂, truncate_add h₁ h₂ a b]
    rfl
  · simp only [wrap_eq_ok h₁ h₂, truncate_sub h₁ h₂ a b]
    rfl
  · simp only [wrap_eq_ok h₁ h₂, truncate_neg h₁ h₂ a]
    rfl

/-- Nothing is left of the least word at 63 bits, and the operands of a sum that overflows to it may be wrapped before. -/
theorem wrapping_exact_least :
    (1 ≤ 63 ∧ 63 ≤ 64) ∧ wrap Int64.minValue 63 = .ok 0 ∧ ¬width Int64.minValue ≤ 63 ∧ width Int64.minValue ≤ 64 ∧
      wrap (Int64.maxValue + 1) 63 = (do wrap ((← wrap Int64.maxValue 63) + (← wrap 1 63)) 63) := by
  have hw : 1 ≤ 63 ∧ 63 ≤ 64 := by decide
  obtain ⟨⟨r, hr, hunique⟩, hkept, ⟨-, hwidth, -⟩, hadd, -, -⟩ := wrapping_exact Int64.minValue hw
  have hzero : wrap Int64.minValue 63 = .ok 0 := by
    have hresidue : (-2 ^ (63 - 1) ≤ (0 : Int) ∧ (0 : Int) < 2 ^ (63 - 1)) ∧ 0 ≡ Int64.minValue.toInt [ZMOD 2 ^ 63] := by
      decide
    have hr0 : r = 0 := Int64.toInt_inj.mp ((hunique 0).mpr hresidue).symm
    rw [hr, hr0]
  refine ⟨hw, hzero, fun hle => ?_, hwidth, hadd _ _⟩
  rw [← hkept, hzero] at hle
  exact absurd (Except.ok.inj hle) (by decide)

end Word

end Invariance
