import Invariance.Bits.Allocation
import Invariance.Proofs.Words

/-!
Lists of bits as signed numbers, the least significant bit first and the last bit the sign. A number within the range
of a width has one such list of that length.
-/

namespace Invariance.Bits

open Allocation

variable {b c d x y : Bool} {bs cs xs ys : List Bool} {i n w : Nat} {v : Int}

/-- The number with the given bits, of which the last is the sign. -/
def signed : List Bool → Int
  | [] => 0
  | [b] => -b.toNat
  | b :: c :: bs => b.toNat + 2 * signed (c :: bs)

theorem signed_cons (h : bs ≠ []) : signed (b :: bs) = b.toNat + 2 * signed bs := by
  cases bs with
  | nil => exact absurd rfl h
  | cons c bs => rfl

/-- Induction over words that have a sign. -/
theorem word_induction {P : (bs : List Bool) → bs ≠ [] → Prop} (sign : ∀ b h, P [b] h)
    (cons : ∀ b bs hbs h, P bs hbs → P (b :: bs) h) (bs : List Bool) (h : bs ≠ []) : P bs h := by
  induction bs with
  | nil => exact absurd rfl h
  | cons b bs ih =>
      by_cases hbs : bs = []
      · subst hbs
        exact sign b h
      · exact cons b bs hbs h (ih hbs)

theorem inRange_signed (h : bs ≠ []) : InRange (signed bs) bs.length := by
  induction bs, h using word_induction with
  | sign b => cases b <;> simp [signed, InRange]
  | cons b bs hbs _ ih =>
      obtain ⟨hlow, hhigh⟩ := ih
      obtain ⟨n, hn⟩ : ∃ n, bs.length = n + 1 := ⟨bs.length - 1, by have := List.length_pos_iff.mpr hbs; omega⟩
      rw [signed_cons hbs, List.length_cons, hn, InRange]
      rw [hn] at hlow hhigh
      rw [pow_succ] at hlow hhigh
      rw [pow_succ, pow_succ]
      have hb := b.toNat_le
      omega

/-- Words of one length are told apart by their numbers. -/
theorem eq_of_signed_eq (h : signed bs = signed cs) (hlen : bs.length = cs.length) : bs = cs := by
  induction bs generalizing cs with
  | nil => exact (List.length_eq_zero_iff.mp hlen.symm).symm
  | cons b bs ih =>
      cases cs with
      | nil => simp at hlen
      | cons c cs =>
          rw [List.length_cons, List.length_cons, Nat.succ_inj] at hlen
          by_cases hbs : bs = []
          · subst hbs
            obtain rfl := List.length_eq_zero_iff.mp hlen.symm
            cases b <;> cases c <;> simp [signed] at h ⊢
          · have hcs : cs ≠ [] := fun hnil => hbs (List.length_eq_zero_iff.mp (by simpa [hnil] using hlen))
            rw [signed_cons hbs, signed_cons hcs] at h
            have hbit : b = c := by cases b <;> cases c <;> simp at h ⊢ <;> omega
            rw [hbit, ih (by rw [hbit] at h; omega) hlen]

/-- The sign may be repeated. -/
theorem signed_append_replicate (h : bs.getLast? = some b) : signed (bs ++ List.replicate n b) = signed bs := by
  have hne : bs ≠ [] := by
    rintro rfl
    simp at h
  induction bs, hne using word_induction with
  | sign c =>
      obtain rfl : c = b := by simpa using h
      clear h
      induction n with
      | zero => rfl
      | succ n ih =>
          rw [List.singleton_append] at ih ⊢
          rw [signed_cons (by simp), List.replicate_succ, ih, signed]
          omega
  | cons c bs hbs _ ih =>
      rw [List.getLast?_cons_of_ne_nil hbs] at h
      rw [List.cons_append, signed_cons (by simp [hbs]), ih h, signed_cons hbs]

theorem signed_replicate_false (n : Nat) : signed (List.replicate n false) = 0 := by
  induction n with
  | zero => rfl
  | succ n ih =>
      rw [List.replicate_succ]
      by_cases hn : List.replicate n false = []
      · rw [hn]
        rfl
      · rw [signed_cons hn, ih]
        rfl

theorem signed_map_not (h : bs ≠ []) : signed (bs.map (!·)) = -1 - signed bs := by
  induction bs, h using word_induction with
  | sign b => cases b <;> rfl
  | cons b bs hbs _ ih =>
      rw [List.map_cons, signed_cons (by simpa using hbs), ih, signed_cons hbs]
      cases b <;> simp <;> ring

/-- A bit of a sum, and a sum of what lies above it with the carry out of it. -/
theorem dvd_sum_cons {X Y R : Int} (hbit : (b.toNat : Int) + 2 * d.toNat = x.toNat + y.toNat + c.toNat)
    (h : (2 : Int) ^ n ∣ R - (X + Y + d.toNat)) :
    (2 : Int) ^ (n + 1) ∣ b.toNat + 2 * R - (x.toNat + 2 * X + (y.toNat + 2 * Y) + c.toNat) := by
  obtain ⟨k, hk⟩ := h
  refine ⟨k, ?_⟩
  rw [pow_succ]
  linear_combination 2 * hk + hbit

/-! ### Bits of numbers -/

theorem number_modEq_signed (h : bs ≠ []) : (2 : Int) ^ bs.length ∣ number bs - signed bs := by
  induction bs, h using word_induction with
  | sign b => cases b <;> simp [number, signed]
  | cons b bs hbs _ ih =>
      obtain ⟨k, hk⟩ := ih
      refine ⟨k, ?_⟩
      rw [signed_cons hbs, number, List.length_cons, pow_succ]
      push_cast
      linear_combination 2 * hk

/-- The bits of a number in two's complement. -/
def bitsOf (v : Int) (w : Nat) : List Bool :=
  (List.range w).map fun i => decide (v / 2 ^ i % 2 = 1)

@[simp] theorem length_bitsOf : (bitsOf v w).length = w := by
  simp [bitsOf]

theorem getElem?_bitsOf (h : i < w) : (bitsOf v w)[i]? = some (decide (v / 2 ^ i % 2 = 1)) := by
  simp [bitsOf, h]

theorem bitsOf_succ : bitsOf v (w + 1) = decide (v % 2 = 1) :: bitsOf (v / 2) w := by
  rw [bitsOf, List.range_succ_eq_map, List.map_cons, List.map_map, bitsOf]
  congr 1
  · simp
  · refine List.map_congr_left fun i _ => ?_
    rw [Function.comp, Nat.succ_eq_add_one, pow_succ', Int.ediv_ediv_of_nonneg (by decide)]

theorem signed_bitsOf (hw : 1 ≤ w) (h : InRange v w) : signed (bitsOf v w) = v := by
  induction w, hw using Nat.le_induction generalizing v with
  | base =>
      obtain ⟨hlow, hhigh⟩ := h
      obtain rfl | rfl : v = 0 ∨ v = -1 := by omega
      · rfl
      · rfl
  | succ w hw ih =>
      obtain ⟨n, rfl⟩ : ∃ n, w = n + 1 := ⟨w - 1, by omega⟩
      obtain ⟨hlow, hhigh⟩ := h
      rw [pow_succ, pow_succ] at hlow hhigh
      have hhalf : InRange (v / 2) (n + 1) := by
        rw [InRange, pow_succ]
        omega
      rw [bitsOf_succ, signed_cons (by simp [bitsOf]), ih hhalf]
      by_cases hodd : v % 2 = 1
      · simp only [hodd, decide_true, Bool.toNat_true]
        omega
      · simp only [hodd, decide_false, Bool.toNat_false]
        omega

theorem bitsOf_signed (h : bs ≠ []) : bitsOf (signed bs) bs.length = bs :=
  eq_of_signed_eq (signed_bitsOf (List.length_pos_iff.mpr h) (inRange_signed h)) length_bitsOf

end Invariance.Bits
