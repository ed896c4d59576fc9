import Invariance.Bits.Circuit
import Invariance.Proofs.Bits.Numerals
import Invariance.Proofs.Diagram.Choice
import Invariance.Proofs.Formula.Structure

/-!
Circuits compute with numbers. A word of functions stands for a number under each assignment of truth values, and
every circuit is specified by the numbers of its operands.
-/

namespace Invariance.Diagram.Manager

open Bits

variable {m m' : Manager} {ρ : Nat → Bool} {xs ys : Signals} {x c : Edge}

/-- All functions of a word are in the manager. -/
def ContainsAll (m : Manager) (xs : Signals) : Prop :=
  ∀ x ∈ xs, m.Contains x

/-- The number for which a word stands. -/
def numberOf (m : Manager) (ρ : Nat → Bool) (xs : Signals) : Int :=
  signed (xs.map (m.value ρ))

@[simp] theorem containsAll_cons : m.ContainsAll (x :: xs) ↔ m.Contains x ∧ m.ContainsAll xs :=
  List.forall_mem_cons

@[simp] theorem containsAll_nil : m.ContainsAll [] :=
  fun _ h => nomatch h

theorem Grows.containsAll (h : m.Grows m') (hx : m.ContainsAll xs) : m'.ContainsAll xs :=
  fun x hmem => h.contains (hx x hmem)

theorem Grows.map_value (hm : m.Valid) (h : m.Grows m') (hx : m.ContainsAll xs) :
    xs.map (m'.value ρ) = xs.map (m.value ρ) :=
  List.map_congr_left fun x hmem => h.value hm (hx x hmem)

theorem Grows.numberOf (hm : m.Valid) (h : m.Grows m') (hx : m.ContainsAll xs) :
    m'.numberOf ρ xs = m.numberOf ρ xs := by
  rw [Manager.numberOf, h.map_value hm hx, Manager.numberOf]

theorem numberOf_cons (h : xs ≠ []) : m.numberOf ρ (x :: xs) = (m.value ρ x).toNat + 2 * m.numberOf ρ xs := by
  rw [numberOf, List.map_cons, signed_cons (by simpa using h), numberOf]

theorem numberOf_singleton : m.numberOf ρ [x] = -(m.value ρ x).toNat :=
  rfl

theorem inRange_numberOf (h : xs ≠ []) : InRange (m.numberOf ρ xs) xs.length := by
  have hne : xs.map (m.value ρ) ≠ [] := by simpa using h
  have hrange := inRange_signed hne
  rwa [List.length_map] at hrange

end Invariance.Diagram.Manager

namespace Invariance.Bits.Signals

open Diagram Manager Build

variable {m m' : Manager} {ρ : Nat → Bool} {xs ys : Signals} {c x y test less : Edge} {w : Nat} {v : Int64}

/-! ### Words -/

theorem length_extend (h : xs ≠ []) (hw : xs.length ≤ w) : (xs.extend w).length = w := by
  unfold extend
  cases hlast : xs.getLast? with
  | none => exact absurd (List.getLast?_eq_none_iff.mp hlast) h
  | some sign =>
      simp only [List.length_append, List.length_replicate]
      omega

theorem containsAll_extend (h : m.ContainsAll xs) : m.ContainsAll (xs.extend w) := by
  unfold extend
  cases hlast : xs.getLast? with
  | none => exact h
  | some sign =>
      intro x hx
      rcases List.mem_append.mp hx with hx | hx
      · exact h x hx
      · rw [List.eq_of_mem_replicate hx]
        exact h sign (List.mem_of_getLast? hlast)

@[simp] theorem numberOf_extend : m.numberOf ρ (xs.extend w) = m.numberOf ρ xs := by
  unfold extend
  cases hlast : xs.getLast? with
  | none => rfl
  | some sign =>
      simp only [numberOf, List.map_append, List.map_replicate]
      exact signed_append_replicate (by rw [List.getLast?_map, hlast]; rfl)

theorem containsAll_complement (h : m.ContainsAll xs) : m.ContainsAll xs.complement := by
  intro x hx
  obtain ⟨y, hy, rfl⟩ := List.mem_map.mp hx
  exact contains_not.mpr (h y hy)

theorem numberOf_complement (h : m.ContainsAll xs) (hne : xs ≠ []) :
    m.numberOf ρ xs.complement = -1 - m.numberOf ρ xs := by
  have hmap : xs.complement.map (m.value ρ) = (xs.map (m.value ρ)).map (!·) := by
    rw [complement, List.map_map, List.map_map]
    exact List.map_congr_left fun x hx => value_not (h x hx)
  rw [numberOf, hmap, signed_map_not (by simpa using hne), numberOf]

theorem numberOf_zeros (hm : m.Valid) (n : Nat) : m.numberOf ρ (List.replicate n .zero) = 0 := by
  rw [numberOf, List.map_replicate, hm.tabled.value_zero, signed_replicate_false]

theorem exists_ofWord (hm : m.Valid) (hw : 1 ≤ w) (hw' : w ≤ 64) (hv : InRange v.toInt w) :
    ∃ xs, ofWord v w = .ok xs ∧ m.ContainsAll xs ∧ xs.length = w ∧ ∀ ρ, m.numberOf ρ xs = v.toInt := by
  refine ⟨(bitsOf v.toInt w).map fun b => if b then .one else .zero, ?_, ?_, by simp, fun ρ => ?_⟩
  · rw [ofWord, bitsOf, List.map_map]
    refine Formula.mapM_eq_ok (q := fun i => if decide (v.toInt / 2 ^ i % 2 = 1) then Edge.one else .zero) ?_
    intro i hi
    rw [Word.bit_eq_ok (by have := List.mem_range.mp hi; omega)]
    rfl
  · intro x hx
    obtain ⟨b, -, rfl⟩ := List.mem_map.mp hx
    split
    · exact hm.tabled.contains_one
    · exact hm.tabled.contains_zero
  · have hid : ∀ bs : List Bool, (bs.map fun b => if b then Edge.one else .zero).map (m.value ρ) = bs := fun bs => by
      rw [List.map_map]
      refine (List.map_congr_left fun b _ => ?_).trans (List.map_id bs)
      cases b <;> simp [hm.tabled.value_one, hm.tabled.value_zero]
    rw [numberOf, hid, signed_bitsOf hw hv]

/-! ### Arithmetic -/

/-- A full adder: the bit and the carry together count which of the three inputs are set. -/
private theorem meets_adder {α : Type} {g : Edge → Edge → Build α} {Q : α → Manager → Prop} (hm : m.Valid)
    (hx : m.Contains x) (hy : m.Contains y) (hc : m.Contains c)
    (hg : ∀ bit carry m', m.Grows m' → m'.Contains bit → m'.Contains carry →
      (∀ ρ, ((m'.value ρ bit).toNat : Int) + 2 * (m'.value ρ carry).toNat =
        (m.value ρ x).toNat + (m.value ρ y).toNat + (m.value ρ c).toNat) →
      Meets (g bit carry) m' Q fun _ _ => False) :
    Meets (Build.xor x y >>= fun half => Build.xor half c >>= fun bit => Build.and x y >>= fun both =>
      Build.and c half >>= fun through => Build.or both through >>= fun carry => g bit carry) m Q
      fun _ _ => False := by
  refine (meets_xor hm hx.denotes hy.denotes).bind ?_
  rintro half m₁ ⟨hg₁, hhalf⟩
  refine (meets_xor hg₁.valid hhalf (hg₁.denotes hm hc.denotes)).bind ?_
  rintro bit m₂ ⟨hb₂, hbit⟩
  have hg₂ := hg₁.trans hb₂
  refine (meets_and hg₂.valid (hg₂.denotes hm hx.denotes) (hg₂.denotes hm hy.denotes)).bind ?_
  rintro both m₃ ⟨hb₃, hboth⟩
  have hg₃ := hg₂.trans hb₃
  refine (meets_and hg₃.valid (hg₃.denotes hm hc.denotes) ((hb₂.trans hb₃).denotes hg₁.valid hhalf)).bind ?_
  rintro through m₄ ⟨hb₄, hthrough⟩
  have hg₄ := hg₃.trans hb₄
  refine (meets_or hg₄.valid (hb₄.denotes hg₃.valid hboth) hthrough).bind ?_
  rintro carry m₅ ⟨hb₅, hcarry⟩
  have hbit₅ := ((hb₃.trans hb₄).trans hb₅).denotes hg₂.valid hbit
  refine hg bit carry m₅ (hg₄.trans hb₅) hbit₅.contains hcarry.contains fun ρ => ?_
  rw [hbit₅.value, hcarry.value]
  cases m.value ρ x <;> cases m.value ρ y <;> cases m.value ρ c <;> rfl

/-- Words are added bit by bit, the carry of each bit going into the next. -/
theorem meets_sum (hm : m.Valid) (hc : m.Contains c) (hx : m.ContainsAll xs) (hy : m.ContainsAll ys)
    (hlen : xs.length = ys.length) (hne : xs ≠ []) :
    Meets (sum c xs ys) m
      (fun rs m' => m.Grows m' ∧ m'.ContainsAll rs ∧ rs.length = xs.length ∧
        ∀ ρ, (2 : Int) ^ xs.length ∣
          m'.numberOf ρ rs - (m.numberOf ρ xs + m.numberOf ρ ys + (m.value ρ c).toNat)) fun _ _ => False := by
  induction xs generalizing m c ys with
  | nil => exact absurd rfl hne
  | cons x xs ih =>
      cases ys with
      | nil => simp at hlen
      | cons y ys =>
          rw [containsAll_cons] at hx hy
          rw [List.length_cons, List.length_cons, Nat.succ_inj] at hlen
          rw [sum]
          refine meets_adder hm hx.1 hy.1 hc fun bit carry m₁ hg₁ hbit hcarry hadd => ?_
          by_cases hnil : xs = []
          · subst hnil
            obtain rfl := List.length_eq_zero_iff.mp hlen.symm
            refine ⟨hg₁, by simpa using hbit, rfl, fun ρ => ?_⟩
            have := hadd ρ
            simp only [numberOf_singleton, List.length_singleton, pow_one]
            omega
          · have hys : ys ≠ [] := fun h => hnil (List.length_eq_zero_iff.mp (by rw [hlen, h]; rfl))
            refine (ih hg₁.valid hcarry (hg₁.containsAll hx.2) (hg₁.containsAll hy.2) hlen hnil).bind ?_
            rintro rs m₂ ⟨hg₂, hrs, hlrs, hsum⟩
            have hrsne : rs ≠ [] := fun h => hnil (List.length_eq_zero_iff.mp (by rw [← hlrs, h]; rfl))
            refine ⟨hg₁.trans hg₂, containsAll_cons.mpr ⟨hg₂.contains hbit, hrs⟩, by simp [hlrs], fun ρ => ?_⟩
            have hρ := hsum ρ
            rw [hg₁.numberOf hm hx.2, hg₁.numberOf hm hy.2] at hρ
            rw [numberOf_cons hrsne, hg₂.value hg₁.valid hbit, numberOf_cons hnil, numberOf_cons hys]
            exact dvd_sum_cons (hadd ρ) hρ

/-! ### Comparison and choice -/

/-- Signs are compared the other way round than the bits below. -/
private theorem less_sign (b d l : Bool) :
    (if !b ^^ !d then !d else l) =
      (decide (-(b.toNat : Int) < -d.toNat) || decide (-(b.toNat : Int) = -d.toNat) && l) := by
  cases b <;> cases d <;> cases l <;> rfl

/-- A bit decides between words that are the same above it. -/
private theorem less_cons (X Y : Int) (b d l : Bool) :
    (decide (X < Y) || decide (X = Y) && (if b ^^ d then d else l)) =
      (decide (b.toNat + 2 * X < d.toNat + 2 * Y) || decide (b.toNat + 2 * X = d.toNat + 2 * Y) && l) := by
  rw [Bool.eq_iff_iff]
  cases b <;> cases d <;> cases l <;> simp <;> omega

theorem meets_lessFrom {l : (Nat → Bool) → Bool} (hm : m.Valid) (hl : m.Denotes less l) (hx : m.ContainsAll xs)
    (hy : m.ContainsAll ys) (hlen : xs.length = ys.length) (hne : xs ≠ []) :
    Meets (lessFrom less xs ys) m
      (fun r m' => m.Grows m' ∧ m'.Denotes r fun ρ =>
        decide (m.numberOf ρ xs < m.numberOf ρ ys) || decide (m.numberOf ρ xs = m.numberOf ρ ys) && l ρ)
      fun _ _ => False := by
  induction xs generalizing m less l ys with
  | nil => exact absurd rfl hne
  | cons x xs ih =>
      cases ys with
      | nil => simp at hlen
      | cons y ys =>
          rw [containsAll_cons] at hx hy
          rw [List.length_cons, List.length_cons, Nat.succ_inj] at hlen
          by_cases hnil : xs = []
          · subst hnil
            obtain rfl := List.length_eq_zero_iff.mp hlen.symm
            rw [lessFrom]
            refine (meets_xor hm hx.1.denotes.not hy.1.denotes.not).bind ?_
            rintro d m₁ ⟨hg₁, hd⟩
            refine (meets_ite hg₁.valid hd (hg₁.denotes hm hy.1.denotes.not) (hg₁.denotes hm hl)).imp ?_
            rintro r m₂ ⟨hg₂, hr⟩
            refine ⟨hg₁.trans hg₂, hr.congr fun ρ => ?_⟩
            exact less_sign _ _ _
          · have hys : ys ≠ [] := fun h => hnil (List.length_eq_zero_iff.mp (by rw [hlen, h]; rfl))
            rw [lessFrom]
            · refine (meets_xor hm hx.1.denotes hy.1.denotes).bind ?_
              rintro d m₁ ⟨hg₁, hd⟩
              refine (meets_ite hg₁.valid hd (hg₁.denotes hm hy.1.denotes) (hg₁.denotes hm hl)).bind ?_
              rintro r m₂ ⟨hb₂, hr⟩
              have hg₂ := hg₁.trans hb₂
              refine (ih hg₂.valid hr (hg₂.containsAll hx.2) (hg₂.containsAll hy.2) hlen hnil).imp ?_
              rintro r' m₃ ⟨hg₃, hr'⟩
              refine ⟨hg₂.trans hg₃, hr'.congr fun ρ => ?_⟩
              rw [hg₂.numberOf hm hx.2, hg₂.numberOf hm hy.2, numberOf_cons hnil, numberOf_cons hys, less_cons]
            · exact fun h _ => hnil h

theorem meets_less (hm : m.Valid) (hx : m.ContainsAll xs) (hy : m.ContainsAll ys) (hlen : xs.length = ys.length)
    (hne : xs ≠ []) :
    Meets (Signals.less xs ys) m
      (fun r m' => m.Grows m' ∧ m'.Denotes r fun ρ => decide (m.numberOf ρ xs < m.numberOf ρ ys)) fun _ _ => False := by
  refine (meets_lessFrom hm hm.denotes_zero hx hy hlen hne).imp fun r m' hr => ⟨hr.1, hr.2.congr fun ρ => ?_⟩
  simp

/-- Words are the same if all their bits are. -/
theorem meets_same (hm : m.Valid) (hx : m.ContainsAll xs) (hy : m.ContainsAll ys) (hlen : xs.length = ys.length) :
    Meets (same xs ys) m
      (fun r m' => m.Grows m' ∧ m'.Denotes r fun ρ => decide (m.numberOf ρ xs = m.numberOf ρ ys)) fun _ _ => False := by
  have hbits : List.Forall₂ (fun b d => ∀ m', m.Grows m' → Meets b m' (fun r m₁ => m'.Grows m₁ ∧ m₁.Denotes r d)
      fun _ _ => False) (List.zipWith Build.eq xs ys)
      (List.zipWith (fun x y ρ => m.value ρ x == m.value ρ y) xs ys) := by
    induction xs generalizing ys with
    | nil => exact .nil
    | cons x xs ih =>
        cases ys with
        | nil => exact .nil
        | cons y ys =>
            rw [containsAll_cons] at hx hy
            rw [List.length_cons, List.length_cons, Nat.succ_inj] at hlen
            refine .cons (fun m' hg => ?_) (ih hx.2 hy.2 hlen)
            exact meets_eq hg.valid (hg.denotes hm hx.1.denotes) (hg.denotes hm hy.1.denotes)
  refine (meets_andFrom hm.grows hm.denotes_one hbits).imp fun r m' hr => ⟨hr.1, hr.2.congr fun ρ => ?_⟩
  have hall : ∀ {xs ys : Signals}, xs.length = ys.length →
      (((List.zipWith (fun x y ρ => m.value ρ x == m.value ρ y) xs ys).all fun d => d ρ) = true ↔
        xs.map (m.value ρ) = ys.map (m.value ρ)) := by
    intro xs
    induction xs with
    | nil => intro ys hlen; simp [List.length_eq_zero_iff.mp hlen.symm]
    | cons x xs ih =>
        intro ys hlen
        cases ys with
        | nil => simp at hlen
        | cons y ys => simp [ih (by simpa using hlen)]
  rw [Bool.true_and, Bool.eq_iff_iff, hall hlen, decide_eq_true_iff]
  exact ⟨congrArg signed, fun h => eq_of_signed_eq h (by simpa using hlen)⟩

theorem meets_choose {a : (Nat → Bool) → Bool} (hm : m.Valid) (ht : m.Denotes test a) (hx : m.ContainsAll xs)
    (hy : m.ContainsAll ys) (hlen : xs.length = ys.length) :
    Meets (choose test xs ys) m
      (fun rs m' => m.Grows m' ∧ m'.ContainsAll rs ∧ rs.length = xs.length ∧
        ∀ ρ, m'.numberOf ρ rs = if a ρ then m.numberOf ρ xs else m.numberOf ρ ys) fun _ _ => False := by
  suffices h : Meets (choose test xs ys) m (fun rs m' => m.Grows m' ∧ m'.ContainsAll rs ∧ rs.length = xs.length ∧
      ∀ ρ, rs.map (m'.value ρ) = if a ρ then xs.map (m.value ρ) else ys.map (m.value ρ)) fun _ _ => False by
    refine h.imp fun rs m' hrs => ⟨hrs.1, hrs.2.1, hrs.2.2.1, fun ρ => ?_⟩
    rw [numberOf, hrs.2.2.2]
    split <;> rfl
  unfold choose
  induction xs generalizing m ys with
  | nil => exact ⟨hm.grows, containsAll_nil, rfl, fun ρ => by simp [List.length_eq_zero_iff.mp hlen.symm]⟩
  | cons x xs ih =>
      cases ys with
      | nil => simp at hlen
      | cons y ys =>
          rw [containsAll_cons] at hx hy
          rw [List.length_cons, List.length_cons, Nat.succ_inj] at hlen
          rw [List.zip_cons_cons, List.mapM_cons]
          refine (meets_ite hm ht hx.1.denotes hy.1.denotes).bind ?_
          rintro r m₁ ⟨hg₁, hr⟩
          refine (ih hg₁.valid (hg₁.denotes hm ht) (hg₁.containsAll hx.2) (hg₁.containsAll hy.2) hlen).bind ?_
          rintro rs m₂ ⟨hg₂, hrs, hlrs, hvalue⟩
          refine ⟨hg₁.trans hg₂, containsAll_cons.mpr ⟨hg₂.contains hr.contains, hrs⟩, by simp [hlrs], fun ρ => ?_⟩
          rw [List.map_cons, hvalue, hg₂.value hg₁.valid hr.contains, hr.value, hg₁.map_value hm hx.2,
            hg₁.map_value hm hy.2]
          split <;> rfl

end Invariance.Bits.Signals
