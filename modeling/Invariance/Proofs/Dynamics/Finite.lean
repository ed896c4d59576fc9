import Invariance.Proofs.Dynamics.Frames
import Mathlib.Algebra.BigOperators.Group.Finset.Basic
import Mathlib.Data.Fintype.BigOperators

/-! The states of a system are finitely many, at most as many as their bits can tell apart. -/

namespace Invariance

/-- How many bits the values of the variables take together. -/
def totalBits (xs : List Variable) : Nat :=
  (xs.map fun x => x.domain.bits).sum

/-- A value within a domain as a number of as many bits. -/
def Value.toFin {d : Domain} (v : {v : Value // v.fits d}) : Fin (2 ^ d.bits) :=
  Fin.ofNat (2 ^ d.bits) (v.1.number % 2 ^ d.bits).toNat

theorem Value.toFin_injective {d : Domain} : Function.Injective (Value.toFin (d := d)) := by
  rintro ⟨v, hv⟩ ⟨w, hw⟩ h
  have hpos : (0 : Int) < 2 ^ d.bits := Int.pow_pos (by decide)
  have hmod : v.number % 2 ^ d.bits = w.number % 2 ^ d.bits := by
    have hval := congrArg Fin.val h
    simp only [toFin, Fin.val_ofNat] at hval
    have hlt : ∀ x : Int, (x % 2 ^ d.bits).toNat < 2 ^ d.bits := fun x => by
      have := Int.emod_lt_of_pos x hpos
      have hcast : ((2 ^ d.bits : Nat) : Int) = 2 ^ d.bits := by norm_cast
      omega
    rw [Nat.mod_eq_of_lt (hlt _), Nat.mod_eq_of_lt (hlt _)] at hval
    have hv₀ := Int.emod_nonneg v.number hpos.ne'
    have hw₀ := Int.emod_nonneg w.number hpos.ne'
    omega
  match v, w, d, hv, hw with
  | .bool a, .bool b, .bool, _, _ =>
      cases a <;> cases b <;> first | rfl | simp [number, Domain.bits] at hmod
  | .int x, .int y, .int k, hx, hy =>
      have hxy := (inRange_of_fits hx).eq_of_dvd (inRange_of_fits hy) (Int.ModEq.dvd hmod.symm)
      cases Int64.toInt_inj.mp hxy
      rfl

instance {d : Domain} : Finite {v : Value // v.fits d} :=
  Finite.of_injective _ Value.toFin_injective

theorem Value.card_le (d : Domain) : Nat.card {v : Value // v.fits d} ≤ 2 ^ d.bits := by
  have h := Nat.card_le_card_of_injective _ (Value.toFin_injective (d := d))
  exact h.trans_eq (Nat.card_fin _)

instance {xs : List Variable} : Finite (State xs) :=
  inferInstanceAs (Finite ((x : {x // x ∈ xs}) → {v : Value // v.fits x.1.domain}))

theorem State.card_le {xs : List Variable} (h : xs.Nodup) : Nat.card (State xs) ≤ 2 ^ totalBits xs := by
  have hcard : Nat.card (State xs) = ∏ x : {x // x ∈ xs}, Nat.card {v : Value // v.fits x.1.domain} :=
    Nat.card_pi
  have hsum : ∑ x : {x // x ∈ xs}, x.1.domain.bits = totalBits xs := by
    have hcoe : ∑ x : {x // x ∈ xs.toFinset}, x.1.domain.bits = totalBits xs := by
      rw [Finset.sum_coe_sort xs.toFinset fun x => x.domain.bits]
      exact List.sum_toFinset _ h
    rw [← hcoe]
    exact Fintype.sum_equiv (Equiv.subtypeEquivRight fun x => List.mem_toFinset.symm) _ _ fun x => rfl
  rw [hcard, ← hsum, ← Finset.prod_pow_eq_pow_sum]
  exact Finset.prod_le_prod' fun x _ => Value.card_le x.1.domain

end Invariance
