import Invariance.Diagram.Models
import Invariance.Proofs.Diagram.Support
import Mathlib.Data.Fintype.BigOperators
import Mathlib.Order.Interval.Finset.Nat

/-!
How many assignments satisfy a function. Below a decision, half of the assignments that satisfy either function have the
truth value that leads there. Twice the count of a node is, therefore, what its children count together, and nothing is
lost where a sum is halved.
-/

namespace Invariance.Diagram

/-- Truth values of the variables from 1 to `n`. -/
abbrev Truths (n : Nat) := Finset.Icc 1 n → Bool

namespace Truths

variable {n v : Nat}

/-- Truth values of all variables, false for those that are not among the first `n`. -/
def extend (ρ : Truths n) (v : Nat) : Bool :=
  if h : v ∈ Finset.Icc 1 n then ρ ⟨v, h⟩ else false

theorem extend_update (ρ : Truths n) (hv : v ∈ Finset.Icc 1 n) (b : Bool) :
    extend (Function.update ρ ⟨v, hv⟩ b) = Function.update ρ.extend v b := by
  funext u
  by_cases huv : u = v
  · subst huv
    simp only [extend, dif_pos hv, Function.update_self]
  · rw [Function.update_of_ne huv, extend, extend]
    split
    · exact Function.update_of_ne (by simpa using huv) _ _
    · rfl

/-- The truth values with that of one variable turned over. -/
def flip (i : Finset.Icc 1 n) (ρ : Truths n) : Truths n :=
  Function.update ρ i !(ρ i)

@[simp] theorem flip_self (i : Finset.Icc 1 n) (ρ : Truths n) : flip i ρ i = !(ρ i) :=
  Function.update_self ..

@[simp] theorem flip_flip (i : Finset.Icc 1 n) (ρ : Truths n) : flip i (flip i ρ) = ρ := by
  simp [flip]

end Truths

namespace Manager

variable {m : Manager} {e f low high : Edge} {i n v : Nat}

/-! ### Models -/

/-- The assignments to the variables from 1 to `n` that satisfy a function. -/
def models (m : Manager) (n : Nat) (e : Edge) : Finset (Truths n) :=
  {ρ | m.value ρ.extend e = true}

theorem mem_models {ρ : Truths n} : ρ ∈ m.models n e ↔ m.value ρ.extend e = true := by
  simp [models]

theorem card_models_zero (hm : m.Valid) (n : Nat) : (m.models n .zero).card = 0 := by
  simp [models, hm.tabled.value_zero]

theorem card_models_one (hm : m.Valid) (n : Nat) : (m.models n .one).card = 2 ^ n := by
  simp [models, hm.tabled.value_one]

/-- An assignment satisfies a function or its complement. -/
theorem card_models_not (he : m.Contains e) (n : Nat) : (m.models n e.not).card + (m.models n e).card = 2 ^ n := by
  have hnot : m.models n e.not = Finset.univ.filter fun ρ => ¬ m.value ρ.extend e = true := by
    ext ρ
    simp [mem_models, value_not he]
  rw [hnot, add_comm, models, Finset.card_filter_add_card_filter_not]
  simp

/-- Of the assignments that satisfy a function, half have either truth value for a variable that makes no difference. -/
theorem two_mul_card_filter (hf : ¬ m.DependsOn f v) (hv : v ∈ Finset.Icc 1 n) (b : Bool) :
    2 * ((m.models n f).filter fun ρ => ρ ⟨v, hv⟩ = b).card = (m.models n f).card := by
  have hflip : ∀ ρ ∈ m.models n f, Truths.flip ⟨v, hv⟩ ρ ∈ m.models n f := by
    intro ρ hρ
    rw [mem_models] at hρ ⊢
    rw [Truths.flip, Truths.extend_update, value_update hf, hρ]
  have hhalves : ((m.models n f).filter fun ρ => ρ ⟨v, hv⟩ = b).card =
      ((m.models n f).filter fun ρ => ¬ ρ ⟨v, hv⟩ = b).card := by
    refine Finset.card_nbij' (Truths.flip ⟨v, hv⟩) (Truths.flip ⟨v, hv⟩) ?_ ?_ (fun _ _ => Truths.flip_flip _ _)
      fun _ _ => Truths.flip_flip _ _
    · intro ρ hρ
      obtain ⟨hmodel, rfl⟩ := Finset.mem_filter.mp hρ
      exact Finset.mem_filter.mpr ⟨hflip ρ hmodel, by simp⟩
    · intro ρ hρ
      obtain ⟨hmodel, hne⟩ := Finset.mem_filter.mp hρ
      exact Finset.mem_filter.mpr ⟨hflip ρ hmodel, by simpa [Bool.eq_not] using hne⟩
  have hsum := Finset.card_filter_add_card_filter_not (s := m.models n f) fun ρ => ρ ⟨v, hv⟩ = b
  omega

/-- A decision counts for half of what its two functions count. -/
theorem Decides.card_models (hm : m.Valid) (h : m.Decides e v low high) (hv : v ≤ n) :
    (m.models n low).card + (m.models n high).card = 2 * (m.models n e).card := by
  have hmem : v ∈ Finset.Icc 1 n := Finset.mem_Icc.mpr ⟨h.pos, hv⟩
  have hindependent : ∀ {f}, m.Under v f → ¬ m.DependsOn f v :=
    fun hf hdep => absurd (hdep.lt_of_under hm hf) (Nat.lt_irrefl v)
  have hbranch : ∀ b, (m.models n e).filter (fun ρ => ρ ⟨v, hmem⟩ = b) =
      (m.models n (if b then high else low)).filter fun ρ => ρ ⟨v, hmem⟩ = b := by
    intro b
    ext ρ
    simp only [Finset.mem_filter, mem_models, and_congr_left_iff]
    rintro rfl
    rw [h.value, show ρ.extend v = ρ ⟨v, hmem⟩ from dif_pos hmem]
    split <;> rfl
  have htrue := two_mul_card_filter (n := n) (hindependent h.under.2) hmem true
  have hfalse := two_mul_card_filter (n := n) (hindependent h.under.1) hmem false
  have hsum := Finset.card_filter_add_card_filter_not (s := m.models n e) fun ρ => ρ ⟨v, hmem⟩ = true
  simp only [Bool.not_eq_true] at hsum
  rw [hbranch, hbranch] at hsum
  simp only [if_true, Bool.false_eq_true, if_false] at hsum
  omega

/-! ### The recursion -/

/-- Half of an even number. -/
def half (k : Nat) : Option Nat :=
  if k % 2 = 0 then some (k / 2) else none

theorem half_two_mul (k : Nat) : half (2 * k) = some k := by
  rw [half, if_pos (Nat.mul_mod_right 2 k), Nat.mul_div_cancel_left _ Nat.two_pos]

/-- The count of a complement is what is left of the total, of which no more can be taken than there is. -/
def complementIf (negated : Bool) (total k : Nat) : Option Nat :=
  if negated then if k ≤ total then some (total - k) else none else some k

/-- Counts as `countWithin` does, but only where no sum is odd and no more is to be taken away than there is. -/
def countExactly (m : Manager) (total : Nat) : Nat → Std.TreeMap Nat Nat → Edge → Option (Nat × Std.TreeMap Nat Nat)
  | 0, _, _ => none
  | k + 1, done, e => do
    if e = .zero then return (0, done)
    if e = .one then return (total, done)
    let (regular, done) ← match done[e.index]? with
      | some count => pure (count, done)
      | none => do
        let node ← (m.node e.index).toOption
        let (low, done) ← m.countExactly total k done node.low
        let (high, done) ← m.countExactly total k done node.high
        let count ← half (low + high)
        pure (count, done.insert e.index count)
    return (← complementIf e.negated total regular, done)

/-- The counts found so far are those of their nodes. -/
def Counted (m : Manager) (n : Nat) (done : Std.TreeMap Nat Nat) : Prop :=
  ∀ i c, done[i]? = some c → c = (m.models n (.ofNode i false)).card

/-- A complement counts for what is left of the total, which is not less. -/
theorem card_models_flipIf (he : m.Contains e) (t : Bool) (n : Nat) :
    (if t then Nat.pow 2 n - (m.models n e).card else (m.models n e).card) = (m.models n (e.flipIf t)).card ∧
      complementIf t (Nat.pow 2 n) (m.models n e).card = some (m.models n (e.flipIf t)).card := by
  cases t with
  | false => exact ⟨rfl, rfl⟩
  | true =>
      have hsum : (m.models n e.not).card + (m.models n e).card = Nat.pow 2 n := card_models_not he n
      rw [complementIf, if_pos rfl, if_pos rfl, if_pos (by omega), ← hsum, Nat.add_sub_cancel]
      exact ⟨rfl, rfl⟩

theorem exists_countWithin (hm : m.Valid) (k : Nat) (he : m.Contains e) (hk : e.index < k)
    (hvars : ∀ v, m.DependsOn e v → v ≤ n) {done : Std.TreeMap Nat Nat} (hdone : m.Counted n done) :
    ∃ done', m.countWithin (Nat.pow 2 n) k done e = .ok ((m.models n e).card, done') ∧
      m.countExactly (Nat.pow 2 n) k done e = some ((m.models n e).card, done') ∧ m.Counted n done' := by
  induction k generalizing e done with
  | zero => exact absurd hk (Nat.not_lt_zero _)
  | succ k ih =>
      rw [countWithin, countExactly]
      by_cases hzero : e = .zero
      · subst hzero
        exact ⟨done, by rw [card_models_zero hm]; rfl, by rw [card_models_zero hm]; rfl, hdone⟩
      by_cases hone : e = .one
      · subst hone
        exact ⟨done, by rw [card_models_one hm]; rfl, by rw [card_models_one hm]; rfl, hdone⟩
      have hindex := Edge.index_ne_one hone hzero
      obtain ⟨node, hnode⟩ := he.exists_node
      have hdec := decides_of_node hm hnode hindex
      have hregular := contains_ofNode hnode
      obtain ⟨hplain, hexact⟩ := card_models_flipIf hregular e.negated n
      rw [Edge.flipIf_negated he.1] at hplain hexact
      simp only [if_neg hzero, if_neg hone]
      cases hfound : done[e.index]? with
      | some c =>
          obtain rfl := hdone _ c hfound
          refine ⟨done, ?_, ?_, hdone⟩
          · exact congrArg (fun c => Except.ok (c, done)) hplain
          · simp only [pure, bind, Option.bind_some, hexact]
      | none =>
          have hlt := hdec.index
          rw [Edge.index_ofNode] at hlt
          have hdep : ∀ v, m.DependsOn (.ofNode e.index false) v → v ≤ n :=
            fun v hv => hvars v (dependsOn_iff_dependsAt.mpr hv)
          obtain ⟨done₁, hlow, hlow', hdone₁⟩ := ih (hdec.contains hm).1 (by omega)
            (fun v hv => hdep v (hdec.dependsOn_of_low hm hv)) hdone
          obtain ⟨done₂, hhigh, hhigh', hdone₂⟩ := ih (hdec.contains hm).2 (by omega)
            (fun v hv => hdep v (hdec.dependsOn_of_high hm hv)) hdone₁
          have hsum := hdec.card_models hm (hdep _ (hdec.dependsOn_var hm))
          refine ⟨done₂.insert e.index (m.models n (.ofNode e.index false)).card, ?_, ?_,
            forall_getElem?_insert hdone₂ rfl⟩
          · simp only [hnode, hlow, hhigh, pure, Except.pure, bind, Except.bind, hsum,
              Nat.mul_div_cancel_left _ Nat.two_pos, hplain]
          · simp only [hnode, Except.toOption, hlow', hhigh', pure, bind, Option.bind_some, hsum, half_two_mul, hexact]

/-- The number of assignments that satisfy a function is found, and nothing is lost on the way. -/
theorem satCount_exact (hm : m.Valid) (he : m.Contains e) (hvars : ∀ v, m.DependsOn e v → v ≤ n) :
    m.satCount e n = .ok (m.models n e).card ∧
      ∃ done, m.countExactly (Nat.pow 2 n) (e.index + 1) {} e = some ((m.models n e).card, done) := by
  have hempty : m.Counted n {} := fun i c h => by simp at h
  obtain ⟨done, hplain, hexact, -⟩ := exists_countWithin hm (e.index + 1) he (Nat.lt_succ_self _) hvars hempty
  refine ⟨?_, done, hexact⟩
  rw [satCount, hplain]
  rfl

end Manager

end Invariance.Diagram
