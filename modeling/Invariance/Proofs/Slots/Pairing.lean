import Invariance.Slots.Pairing
import Mathlib.Data.Nat.Pairing
import Mathlib.Data.Set.Function
import Mathlib.Tactic.Linarith

/-!
Codes of pairs and triples below the wrap. Where both numbers have 32 bits, the code of a pair is that of the pairing of
natural numbers: the shell of the pairs with maximum `m` gets the codes from `m ^ 2` up to the next square. So squares of
pairs fill the codes below their area, the largest square all of 64 bits.
-/

namespace Invariance.Slots

variable {a b c a' b' c' : UInt64} {n : Nat}

/-- Neither branch of the code of a pair leaves 64 bits. Every product and sum in it is part of one of these two. -/
structure Unwrapped (a b : UInt64) : Prop where
  less : b.toNat * b.toNat + a.toNat < 2 ^ 64
  atLeast : a.toNat * a.toNat + a.toNat + b.toNat < 2 ^ 64

theorem unwrapped_of_lt (ha : a.toNat < 2 ^ 32) (hb : b.toNat < 2 ^ 32) : Unwrapped a b := by
  constructor <;> nlinarith

theorem Unwrapped.toNat_pair (h : Unwrapped a b) : (pair a b).toNat = Nat.pair a.toNat b.toNat := by
  obtain ⟨hless, hatLeast⟩ := h
  have hsum : a.toNat * a.toNat + a.toNat < 2 ^ 64 := by omega
  have hproduct : a.toNat * a.toNat < 2 ^ 64 := by omega
  rw [pair, Nat.pair]
  simp only [UInt64.lt_iff_toNat_lt]
  split
  · rw [UInt64.toNat_add, UInt64.toNat_mul, Nat.mod_add_mod, Nat.mod_eq_of_lt hless]
  · rw [UInt64.toNat_add, UInt64.toNat_add, UInt64.toNat_mul, Nat.mod_eq_of_lt hproduct, Nat.mod_eq_of_lt hsum,
      Nat.mod_eq_of_lt hatLeast]

/-- The shells within a square have the codes below its area. -/
theorem natPair_lt_sq_iff {k l : Nat} : Nat.pair k l < n ^ 2 ↔ k < n ∧ l < n := by
  constructor
  · intro h
    have hmax : max k l ^ 2 < n ^ 2 := (Nat.le_of_add_right_le (Nat.max_sq_add_min_le_pair k l)).trans_lt h
    exact max_lt_iff.mp (lt_of_pow_lt_pow_left₀ 2 (Nat.zero_le n) hmax)
  · rintro ⟨hk, hl⟩
    have hshell : max k l + 1 ≤ n := max_lt hk hl
    exact (Nat.pair_lt_max_add_one_sq k l).trans_le (Nat.pow_le_pow_left hshell 2)

theorem toNat_pair_lt_sq_iff (ha : a.toNat < 2 ^ 32) (hb : b.toNat < 2 ^ 32) :
    (pair a b).toNat < n ^ 2 ↔ a.toNat < n ∧ b.toNat < n := by
  rw [(unwrapped_of_lt ha hb).toNat_pair, natPair_lt_sq_iff]

/-- Two numbers of 32 bits can be told from their code. -/
theorem pair_eq_pair_iff (h : a.toNat < 2 ^ 32 ∧ b.toNat < 2 ^ 32) (h' : a'.toNat < 2 ^ 32 ∧ b'.toNat < 2 ^ 32) :
    pair a b = pair a' b' ↔ a = a' ∧ b = b' := by
  rw [← UInt64.toNat_inj, (unwrapped_of_lt h.1 h.2).toNat_pair, (unwrapped_of_lt h'.1 h'.2).toNat_pair,
    Nat.pair_eq_pair, UInt64.toNat_inj, UInt64.toNat_inj]

/-- Every number of 64 bits is the code of two numbers of 32 bits. -/
theorem exists_pair_eq (c : UInt64) : ∃ a b : UInt64, (a.toNat < 2 ^ 32 ∧ b.toNat < 2 ^ 32) ∧ pair a b = c := by
  obtain ⟨hk, hl⟩ : c.toNat.unpair.1 < 2 ^ 32 ∧ c.toNat.unpair.2 < 2 ^ 32 := by
    rw [← natPair_lt_sq_iff, Nat.pair_unpair]
    exact c.toNat_lt
  have htoNat {k : Nat} (h : k < 2 ^ 32) : (UInt64.ofNat k).toNat = k :=
    UInt64.toNat_ofNat_of_lt' (h.trans (by decide))
  have hbounds : (UInt64.ofNat c.toNat.unpair.1).toNat < 2 ^ 32 ∧ (UInt64.ofNat c.toNat.unpair.2).toNat < 2 ^ 32 := by
    rw [htoNat hk, htoNat hl]
    exact ⟨hk, hl⟩
  refine ⟨_, _, hbounds, UInt64.toNat_inj.mp ?_⟩
  rw [(unwrapped_of_lt hbounds.1 hbounds.2).toNat_pair, htoNat hk, htoNat hl, Nat.pair_unpair]

/-- A square of pairs has its area in codes. -/
theorem bijOn_pair (hn : n ≤ 2 ^ 32) :
    Set.BijOn (fun p : UInt64 × UInt64 => pair p.1 p.2) {p | p.1.toNat < n ∧ p.2.toNat < n} {c | c.toNat < n ^ 2} := by
  have hwords {p : UInt64 × UInt64} (h : p.1.toNat < n ∧ p.2.toNat < n) :
      p.1.toNat < 2 ^ 32 ∧ p.2.toNat < 2 ^ 32 :=
    ⟨h.1.trans_le hn, h.2.trans_le hn⟩
  refine ⟨fun p h => ?_, fun p h q h' heq => ?_, fun c hc => ?_⟩
  · exact (toNat_pair_lt_sq_iff (hwords h).1 (hwords h).2).mpr h
  · exact Prod.ext_iff.mpr ((pair_eq_pair_iff (hwords h) (hwords h')).mp heq)
  · obtain ⟨a, b, hab, rfl⟩ := exists_pair_eq c
    exact ⟨(a, b), (toNat_pair_lt_sq_iff hab.1 hab.2).mp hc, rfl⟩

/-- Where the code of the first two has 32 bits again, three numbers can be told from their code. -/
theorem triple_eq_triple_iff (hab : a.toNat < 2 ^ 16 ∧ b.toNat < 2 ^ 16) (hc : c.toNat < 2 ^ 32)
    (hab' : a'.toNat < 2 ^ 16 ∧ b'.toNat < 2 ^ 16) (hc' : c'.toNat < 2 ^ 32) :
    triple a b c = triple a' b' c' ↔ a = a' ∧ b = b' ∧ c = c' := by
  have hwords {x y : UInt64} (h : x.toNat < 2 ^ 16 ∧ y.toNat < 2 ^ 16) : x.toNat < 2 ^ 32 ∧ y.toNat < 2 ^ 32 :=
    ⟨h.1.trans (by decide), h.2.trans (by decide)⟩
  have hcode {x y : UInt64} (h : x.toNat < 2 ^ 16 ∧ y.toNat < 2 ^ 16) : (pair x y).toNat < (2 ^ 16) ^ 2 :=
    (toNat_pair_lt_sq_iff (hwords h).1 (hwords h).2).mpr h
  rw [triple, triple, pair_eq_pair_iff ⟨hcode hab, hc⟩ ⟨hcode hab', hc'⟩,
    pair_eq_pair_iff (hwords hab) (hwords hab'), and_assoc]

/-- Below the wrap, codes are one to one. On a square of numbers of 32 bits the code of a pair is computed exactly, and it
takes the pairs one to one onto the numbers below the area of the square; so any two pairs of 32-bit words have different
codes. Triples have different codes if their first two numbers have 16 bits and the last has 32. -/
theorem codes_one_to_one (hn : n ≤ 2 ^ 32) :
    (∀ a b : UInt64, a.toNat < n → b.toNat < n → Unwrapped a b ∧ (pair a b).toNat = Nat.pair a.toNat b.toNat) ∧
    Set.BijOn (fun p : UInt64 × UInt64 => pair p.1 p.2) {p | p.1.toNat < n ∧ p.2.toNat < n} {c | c.toNat < n ^ 2} ∧
    (Function.Injective fun p : UInt32 × UInt32 => pair p.1.toUInt64 p.2.toUInt64) ∧
    Set.InjOn (fun t : UInt64 × UInt64 × UInt64 => triple t.1 t.2.1 t.2.2)
      {t | (t.1.toNat < 2 ^ 16 ∧ t.2.1.toNat < 2 ^ 16) ∧ t.2.2.toNat < 2 ^ 32} := by
  refine ⟨fun a b ha hb => ?_, bijOn_pair hn, fun p q heq => ?_, fun s hs t ht heq => ?_⟩
  · have h : Unwrapped a b := unwrapped_of_lt (ha.trans_le hn) (hb.trans_le hn)
    exact ⟨h, h.toNat_pair⟩
  · have hwords (p : UInt32 × UInt32) : p.1.toUInt64.toNat < 2 ^ 32 ∧ p.2.toUInt64.toNat < 2 ^ 32 :=
      ⟨p.1.toNat_lt, p.2.toNat_lt⟩
    obtain ⟨hfst, hsnd⟩ := (pair_eq_pair_iff (hwords p) (hwords q)).mp heq
    exact Prod.ext (UInt32.toUInt64_inj.mp hfst) (UInt32.toUInt64_inj.mp hsnd)
  · obtain ⟨hfst, hsnd, htrd⟩ := (triple_eq_triple_iff hs.1 hs.2 ht.1 ht.2).mp heq
    exact Prod.ext hfst (Prod.ext hsnd htrd)

/-- The largest square has all codes of 64 bits, the last of them at its corner. -/
theorem codes_one_to_one_words :
    2 ^ 32 ≤ 2 ^ 32 ∧ (pair 4294967295 4294967295).toNat = 2 ^ 64 - 1 ∧
      Set.BijOn (fun p : UInt64 × UInt64 => pair p.1 p.2) {p | p.1.toNat < 2 ^ 32 ∧ p.2.toNat < 2 ^ 32} Set.univ ∧
      triple 65535 65534 4294967295 ≠ triple 65534 65535 4294967295 := by
  obtain ⟨hexact, hbij, -, hinj⟩ := codes_one_to_one (n := 2 ^ 32) le_rfl
  refine ⟨le_rfl, ?_, ?_, fun heq => ?_⟩
  · rw [(hexact 4294967295 4294967295 (by decide) (by decide)).2]
    rfl
  · have hall : {c : UInt64 | c.toNat < (2 ^ 32) ^ 2} = Set.univ := Set.eq_univ_of_forall fun c => c.toNat_lt
    exact hall ▸ hbij
  · have hsame : ((65535, 65534, 4294967295) : UInt64 × UInt64 × UInt64) = (65534, 65535, 4294967295) :=
      hinj ⟨⟨by decide, by decide⟩, by decide⟩ ⟨⟨by decide, by decide⟩, by decide⟩ heq
    exact absurd hsame (by decide)

/-- One step past the largest square the product wraps. -/
example : pair 4294967296 0 = pair 0 65536 := by decide

end Invariance.Slots
