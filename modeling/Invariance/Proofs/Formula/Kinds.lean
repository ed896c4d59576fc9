import Invariance.Proofs.Formula.Meaning

/-!
Kinds of formulas. A formula of a kind has a value of that kind under every assignment, and a formula with a
value has a kind. What is asserted to solvers are predicates: formulas over symbols of the kind of truth values.
-/

namespace Invariance

/-- What a formula stands for: a truth value, or an integer of some width. -/
inductive Kind where
  | bool
  | int (width : Nat)
  deriving DecidableEq

def Kind.ofDomain : Domain → Kind
  | .bool => .bool
  | .int w => .int w.bits

/-- Values of a kind. Widths are those of words, and integers are in the range of their width. -/
inductive Sized.HasKind : Sized → Kind → Prop
  | bool (b : Bool) : HasKind (.bool b) .bool
  | int {v : Int64} {w : Nat} : 1 ≤ w → w ≤ 64 → InRange v.toInt w → HasKind (.int v w) (.int w)

namespace Formula

/-- The formula is well-sorted. -/
inductive HasKind : Formula → Kind → Prop
  | bool (b : Bool) : HasKind (.bool b) .bool
  | int (v : Int64) : HasKind (.int v) (.int (Word.width v))
  | var (x : Variable) : HasKind (.var x) (.ofDomain x.domain)
  | sym (s : Symbol) : HasKind (.sym s) (.ofDomain s.domain)
  | prime {e k} : HasKind e k → HasKind (.prime e) k
  | not {e} : HasKind e .bool → HasKind (.not e) .bool
  | and {es} : (∀ e ∈ es, HasKind e .bool) → HasKind (.and es) .bool
  | or {es} : (∀ e ∈ es, HasKind e .bool) → HasKind (.or es) .bool
  | imply {a b} : HasKind a .bool → HasKind b .bool → HasKind (.imply a b) .bool
  | iteBool {c a b} : HasKind c .bool → HasKind a .bool → HasKind b .bool → HasKind (.ite c a b) .bool
  | iteInt {c a b m n} : HasKind c .bool → HasKind a (.int m) → HasKind b (.int n) →
      HasKind (.ite c a b) (.int (max m n))
  | add {a b m n} : HasKind a (.int m) → HasKind b (.int n) → HasKind (.add a b) (.int (max m n))
  | sub {a b m n} : HasKind a (.int m) → HasKind b (.int n) → HasKind (.sub a b) (.int (max m n))
  | neg {e m} : HasKind e (.int m) → HasKind (.neg e) (.int m)
  | eqBool {a b} : HasKind a .bool → HasKind b .bool → HasKind (.eq a b) .bool
  | eqInt {a b m n} : HasKind a (.int m) → HasKind b (.int n) → HasKind (.eq a b) .bool
  | lt {a b m n} : HasKind a (.int m) → HasKind b (.int n) → HasKind (.lt a b) .bool
  | le {a b m n} : HasKind a (.int m) → HasKind b (.int n) → HasKind (.le a b) .bool
  | bit {e m i} : HasKind e (.int m) → i < m → HasKind (.bit e i) .bool

end Formula

/-! ### Values of a kind -/

theorem Sized.exists_bool {P : Sized → Prop} (h : ∃ v, P v ∧ v.HasKind .bool) : ∃ b, P (.bool b) := by
  obtain ⟨v, hv, hk⟩ := h
  cases hk with
  | bool b => exact ⟨b, hv⟩

theorem Sized.exists_int {P : Sized → Prop} {w : Nat} (h : ∃ v, P v ∧ v.HasKind (.int w)) :
    ∃ x, P (.int x w) ∧ (1 ≤ w ∧ w ≤ 64) ∧ InRange x.toInt w := by
  obtain ⟨v, hv, hk⟩ := h
  cases hk with
  | int h₁ h₂ hr => exact ⟨_, hv, ⟨h₁, h₂⟩, hr⟩

theorem Value.inRange_of_fits {v : Int64} {w : Width} (h : (Value.int v).fits (.int w)) :
    InRange v.toInt w.bits :=
  (Word.truncate_eq_self_iff w.pos (w.le.trans (by decide))).mp (beq_iff_eq.mp h)

theorem Sized.hasKind_ofValue {v : Value} {d : Domain} (h : v.fits d) :
    (Sized.ofValue v d).HasKind (.ofDomain d) := by
  match v, d, h with
  | .bool b, .bool, _ => exact .bool b
  | .int v, .int w, h => exact .int w.pos (w.le.trans (by decide)) (Value.inRange_of_fits h)

namespace Formula

variable {σ τ : Assignment} {e f : Formula} {k : Kind} {v : Sized} {g : Variable → Nat → Nat} {n : Nat}

theorem HasKind.retimeFrom (h : e.HasKind k) : (e.retimeFrom g n).HasKind k := by
  induction h generalizing n with
  | and _ ih | or _ ih =>
      simp only [Formula.retimeFrom, retimeEach_eq_map]
      first
      | refine .and fun f hf => ?_
      | refine .or fun f hf => ?_
      all_goals
        obtain ⟨e, he, rfl⟩ := List.mem_map.mp hf
        exact ih e he
  | bool b => exact .bool b
  | int v => exact .int v
  | var x => exact .sym ⟨x, g x n⟩
  | sym s => exact .sym ⟨s.base, _⟩
  | prime _ ih => exact ih
  | not _ ih => exact .not ih
  | imply _ _ iha ihb => exact .imply iha ihb
  | iteBool _ _ _ ihc iha ihb => exact .iteBool ihc iha ihb
  | iteInt _ _ _ ihc iha ihb => exact .iteInt ihc iha ihb
  | add _ _ iha ihb => exact .add iha ihb
  | sub _ _ iha ihb => exact .sub iha ihb
  | neg _ ih => exact .neg ih
  | eqBool _ _ iha ihb => exact .eqBool iha ihb
  | eqInt _ _ iha ihb => exact .eqInt iha ihb
  | lt _ _ iha ihb => exact .lt iha ihb
  | le _ _ iha ihb => exact .le iha ihb
  | bit _ hi ih => exact .bit ih hi

private theorem exists_forall₂ {α β : Type} {R : α → β → Prop} {l : List α} (h : ∀ a ∈ l, ∃ b, R a b) :
    ∃ m, List.Forall₂ R l m := by
  induction l with
  | nil => exact ⟨[], .nil⟩
  | cons a l ih =>
      obtain ⟨b, hb⟩ := h a List.mem_cons_self
      obtain ⟨m, hm⟩ := ih fun c hc => h c (List.mem_cons_of_mem _ hc)
      exact ⟨b :: m, .cons hb hm⟩

theorem hasKind_truncate {x : Int64} {w : Nat} (h : 1 ≤ w ∧ w ≤ 64) :
    (Sized.int (Word.truncate x w) w).HasKind (.int w) :=
  .int h.1 h.2 (Word.inRange_truncate h.1 h.2)

open Sized in
/-- A well-sorted formula over symbols has a value of its kind. -/
theorem HasKind.evaluates (h : e.HasKind k) (he : e.Timed) :
    ∃ v, e.Evaluates σ.reading true v ∧ v.HasKind k := by
  induction h with
  | bool b => exact ⟨.bool b, by simp, .bool b⟩
  | int v =>
      exact ⟨.int v (Word.width v), by simp, .int (Word.one_le_width v) (Word.width_le v) (Word.inRange_width v)⟩
  | var x => exact absurd (self_mem_subformulas _) (he.1 x)
  | sym s => exact ⟨_, evaluates_sym.mpr rfl, Sized.hasKind_ofValue (σ s.base s.generation).2⟩
  | prime => exact absurd (self_mem_subformulas _) (he.2 _)
  | and _ ih =>
      obtain ⟨ts, hts⟩ := exists_forall₂ fun e hmem => exists_bool (ih e hmem (he.child hmem))
      exact ⟨_, evaluates_and.mpr ⟨ts, hts, rfl⟩, .bool _⟩
  | or _ ih =>
      obtain ⟨ts, hts⟩ := exists_forall₂ fun e hmem => exists_bool (ih e hmem (he.child hmem))
      exact ⟨_, evaluates_or.mpr ⟨ts, hts, rfl⟩, .bool _⟩
  | not _ ih =>
      obtain ⟨t, ht⟩ := exists_bool (ih (he.child List.mem_cons_self))
      exact ⟨_, evaluates_not.mpr ⟨t, ht, rfl⟩, .bool _⟩
  | imply _ _ iha ihb =>
      obtain ⟨s, hs⟩ := exists_bool (iha (he.child (by simp [children])))
      obtain ⟨t, ht⟩ := exists_bool (ihb (he.child (by simp [children])))
      exact ⟨_, evaluates_imply.mpr ⟨s, t, hs, ht, rfl⟩, .bool _⟩
  | iteBool _ _ _ ihc iha ihb =>
      obtain ⟨z, hz⟩ := exists_bool (ihc (he.child (by simp [children])))
      obtain ⟨s, hs⟩ := exists_bool (iha (he.child (by simp [children])))
      obtain ⟨t, ht⟩ := exists_bool (ihb (he.child (by simp [children])))
      exact ⟨_, evaluates_ite.mpr (.inl ⟨z, s, t, hz, hs, ht, rfl⟩), .bool _⟩
  | iteInt _ _ _ ihc iha ihb =>
      obtain ⟨z, hz⟩ := exists_bool (ihc (he.child (by simp [children])))
      obtain ⟨x, hx, hm, hxr⟩ := exists_int (iha (he.child (by simp [children])))
      obtain ⟨y, hy, hn, hyr⟩ := exists_int (ihb (he.child (by simp [children])))
      refine ⟨_, evaluates_ite.mpr (.inr ⟨z, x, _, y, _, hz, hx, hy, rfl⟩),
        .int (Word.width_max hm hn).1 (Word.width_max hm hn).2 ?_⟩
      cases z with
      | true => exact hxr.mono (Nat.le_max_left _ _)
      | false => exact hyr.mono (Nat.le_max_right _ _)
  | add _ _ iha ihb =>
      obtain ⟨x, hx, hm, -⟩ := exists_int (iha (he.child (by simp [children])))
      obtain ⟨y, hy, hn, -⟩ := exists_int (ihb (he.child (by simp [children])))
      have hw := Word.width_max hm hn
      exact ⟨_, evaluates_add.mpr ⟨x, _, y, _, hx, hy, hw, rfl⟩, hasKind_truncate hw⟩
  | sub _ _ iha ihb =>
      obtain ⟨x, hx, hm, -⟩ := exists_int (iha (he.child (by simp [children])))
      obtain ⟨y, hy, hn, -⟩ := exists_int (ihb (he.child (by simp [children])))
      have hw := Word.width_max hm hn
      exact ⟨_, evaluates_sub.mpr ⟨x, _, y, _, hx, hy, hw, rfl⟩, hasKind_truncate hw⟩
  | neg _ ih =>
      obtain ⟨x, hx, hm, -⟩ := exists_int (ih (he.child List.mem_cons_self))
      exact ⟨_, evaluates_neg.mpr ⟨x, _, hx, hm, rfl⟩, hasKind_truncate hm⟩
  | eqBool _ _ iha ihb =>
      obtain ⟨s, hs⟩ := exists_bool (iha (he.child (by simp [children])))
      obtain ⟨t, ht⟩ := exists_bool (ihb (he.child (by simp [children])))
      exact ⟨_, evaluates_eq.mpr (.inl ⟨s, t, hs, ht, rfl⟩), .bool _⟩
  | eqInt _ _ iha ihb =>
      obtain ⟨x, hx, -⟩ := exists_int (iha (he.child (by simp [children])))
      obtain ⟨y, hy, -⟩ := exists_int (ihb (he.child (by simp [children])))
      exact ⟨_, evaluates_eq.mpr (.inr ⟨x, _, y, _, hx, hy, rfl⟩), .bool _⟩
  | lt _ _ iha ihb =>
      obtain ⟨x, hx, -⟩ := exists_int (iha (he.child (by simp [children])))
      obtain ⟨y, hy, -⟩ := exists_int (ihb (he.child (by simp [children])))
      exact ⟨_, evaluates_lt.mpr ⟨x, _, y, _, hx, hy, rfl⟩, .bool _⟩
  | le _ _ iha ihb =>
      obtain ⟨x, hx, -⟩ := exists_int (iha (he.child (by simp [children])))
      obtain ⟨y, hy, -⟩ := exists_int (ihb (he.child (by simp [children])))
      exact ⟨_, evaluates_le.mpr ⟨x, _, y, _, hx, hy, rfl⟩, .bool _⟩
  | bit _ hi ih =>
      obtain ⟨x, hx, hm, -⟩ := exists_int (ih (he.child List.mem_cons_self))
      exact ⟨_, evaluates_bit.mpr ⟨x, _, hx, hi, _, Word.bit_eq_ok (by omega), rfl⟩, .bool _⟩

private theorem forall_of_forall₂ {α β : Type} {R : α → β → Prop} {l : List α} {m : List β}
    (h : List.Forall₂ R l m) : ∀ a ∈ l, ∃ b, R a b := by
  induction h with
  | nil => exact fun _ ha => nomatch ha
  | cons hab _ ih =>
      intro c hc
      rcases List.mem_cons.mp hc with rfl | hc
      · exact ⟨_, hab⟩
      · exact ih c hc

/-- What has a value is made of formulas that have one. -/
theorem Evaluates.children {r : Reading} {p : Bool} (h : e.Evaluates r p v) (hop : e.isOperator) :
    ∀ c ∈ e.children, ∃ w, c.Evaluates r p w := by
  cases e with
  | var | prime | sym => cases hop
  | bool | int => simp [Formula.children]
  | and es =>
      obtain ⟨ts, hts, -⟩ := evaluates_and.mp h
      exact fun c hc => (forall_of_forall₂ hts c hc).imp' _ fun _ ht => ht
  | or es =>
      obtain ⟨ts, hts, -⟩ := evaluates_or.mp h
      exact fun c hc => (forall_of_forall₂ hts c hc).imp' _ fun _ ht => ht
  | not e =>
      obtain ⟨t, ht, -⟩ := evaluates_not.mp h
      simpa [Formula.children] using ⟨_, ht⟩
  | neg e =>
      obtain ⟨x, m, hx, -⟩ := evaluates_neg.mp h
      simpa [Formula.children] using ⟨_, hx⟩
  | bit e i =>
      obtain ⟨x, m, hx, -⟩ := evaluates_bit.mp h
      simpa [Formula.children] using ⟨_, hx⟩
  | imply a b =>
      obtain ⟨s, t, hs, ht, -⟩ := evaluates_imply.mp h
      simpa [Formula.children] using ⟨⟨_, hs⟩, _, ht⟩
  | ite c a b =>
      rcases evaluates_ite.mp h with ⟨z, s, t, hz, hs, ht, -⟩ | ⟨z, x, m, y, n, hz, hs, ht, -⟩ <;>
        simpa [Formula.children] using ⟨⟨_, hz⟩, ⟨_, hs⟩, _, ht⟩
  | add a b =>
      obtain ⟨x, m, y, n, hx, hy, -⟩ := evaluates_add.mp h
      simpa [Formula.children] using ⟨⟨_, hx⟩, _, hy⟩
  | sub a b =>
      obtain ⟨x, m, y, n, hx, hy, -⟩ := evaluates_sub.mp h
      simpa [Formula.children] using ⟨⟨_, hx⟩, _, hy⟩
  | eq a b =>
      rcases evaluates_eq.mp h with ⟨s, t, hs, ht, -⟩ | ⟨x, m, y, n, hs, ht, -⟩ <;>
        simpa [Formula.children] using ⟨⟨_, hs⟩, _, ht⟩
  | lt a b =>
      obtain ⟨x, m, y, n, hx, hy, -⟩ := evaluates_lt.mp h
      simpa [Formula.children] using ⟨⟨_, hx⟩, _, hy⟩
  | le a b =>
      obtain ⟨x, m, y, n, hx, hy, -⟩ := evaluates_le.mp h
      simpa [Formula.children] using ⟨⟨_, hx⟩, _, hy⟩

/-- A formula with a value speaks of symbols only. -/
theorem Evaluates.timed (h : e.Evaluates σ.reading true v) : e.Timed := by
  induction e using inductTimes generalizing v with
  | var x => simp [Assignment.reading] at h
  | prime e => simp at h
  | sym s => constructor <;> simp [PrimeFree, subformulas]
  | operator e hop ih =>
      apply timed_of_children hop
      intro c hc
      obtain ⟨w, hw⟩ := h.children hop c hc
      exact ih c hc hw

private theorem hasKind_bool {t : Bool} (h : ∃ k, e.HasKind k ∧ (Sized.bool t).HasKind k) : e.HasKind .bool := by
  obtain ⟨k, he, hk⟩ := h
  cases hk
  exact he

private theorem hasKind_int {x : Int64} {w : Nat} (h : ∃ k, e.HasKind k ∧ (Sized.int x w).HasKind k) :
    e.HasKind (.int w) ∧ (1 ≤ w ∧ w ≤ 64) ∧ InRange x.toInt w := by
  obtain ⟨k, he, hk⟩ := h
  cases hk with
  | int h₁ h₂ hr => exact ⟨he, ⟨h₁, h₂⟩, hr⟩

/-- A formula with a value is well-sorted. -/
theorem Evaluates.hasKind (h : e.Evaluates σ.reading true v) : ∃ k, e.HasKind k ∧ v.HasKind k := by
  induction e generalizing v with
  | bool b =>
      cases evaluates_bool.mp h
      exact ⟨.bool, .bool b, .bool b⟩
  | int x =>
      cases evaluates_int.mp h
      exact ⟨_, .int x, .int (Word.one_le_width x) (Word.width_le x) (Word.inRange_width x)⟩
  | var x => simp [Assignment.reading] at h
  | prime e => simp at h
  | sym s =>
      cases evaluates_sym.mp h
      exact ⟨_, .sym s, Sized.hasKind_ofValue (σ s.base s.generation).2⟩
  | not e ih =>
      obtain ⟨t, ht, rfl⟩ := evaluates_not.mp h
      exact ⟨_, .not (hasKind_bool (ih ht)), .bool _⟩
  | and es ih =>
      obtain ⟨ts, hts, rfl⟩ := evaluates_and.mp h
      refine ⟨_, .and fun e he => ?_, .bool _⟩
      obtain ⟨t, ht⟩ := forall_of_forall₂ hts e he
      exact hasKind_bool (ih e he ht)
  | or es ih =>
      obtain ⟨ts, hts, rfl⟩ := evaluates_or.mp h
      refine ⟨_, .or fun e he => ?_, .bool _⟩
      obtain ⟨t, ht⟩ := forall_of_forall₂ hts e he
      exact hasKind_bool (ih e he ht)
  | imply a b iha ihb =>
      obtain ⟨s, t, hs, ht, rfl⟩ := evaluates_imply.mp h
      exact ⟨_, .imply (hasKind_bool (iha hs)) (hasKind_bool (ihb ht)), .bool _⟩
  | ite c a b ihc iha ihb =>
      rcases evaluates_ite.mp h with ⟨z, s, t, hz, hs, ht, rfl⟩ | ⟨z, x, m, y, n, hz, hx, hy, rfl⟩
      · exact ⟨_, .iteBool (hasKind_bool (ihc hz)) (hasKind_bool (iha hs)) (hasKind_bool (ihb ht)), .bool _⟩
      · obtain ⟨ha, hm, hxr⟩ := hasKind_int (iha hx)
        obtain ⟨hb, hn, hyr⟩ := hasKind_int (ihb hy)
        refine ⟨_, .iteInt (hasKind_bool (ihc hz)) ha hb, .int (Word.width_max hm hn).1 (Word.width_max hm hn).2 ?_⟩
        cases z with
        | true => exact hxr.mono (Nat.le_max_left _ _)
        | false => exact hyr.mono (Nat.le_max_right _ _)
  | add a b iha ihb =>
      obtain ⟨x, m, y, n, hx, hy, hw, rfl⟩ := evaluates_add.mp h
      exact ⟨_, .add (hasKind_int (iha hx)).1 (hasKind_int (ihb hy)).1, hasKind_truncate hw⟩
  | sub a b iha ihb =>
      obtain ⟨x, m, y, n, hx, hy, hw, rfl⟩ := evaluates_sub.mp h
      exact ⟨_, .sub (hasKind_int (iha hx)).1 (hasKind_int (ihb hy)).1, hasKind_truncate hw⟩
  | neg e ih =>
      obtain ⟨x, m, hx, hw, rfl⟩ := evaluates_neg.mp h
      exact ⟨_, .neg (hasKind_int (ih hx)).1, hasKind_truncate hw⟩
  | eq a b iha ihb =>
      rcases evaluates_eq.mp h with ⟨s, t, hs, ht, rfl⟩ | ⟨x, m, y, n, hx, hy, rfl⟩
      · exact ⟨_, .eqBool (hasKind_bool (iha hs)) (hasKind_bool (ihb ht)), .bool _⟩
      · exact ⟨_, .eqInt (hasKind_int (iha hx)).1 (hasKind_int (ihb hy)).1, .bool _⟩
  | lt a b iha ihb =>
      obtain ⟨x, m, y, n, hx, hy, rfl⟩ := evaluates_lt.mp h
      exact ⟨_, .lt (hasKind_int (iha hx)).1 (hasKind_int (ihb hy)).1, .bool _⟩
  | le a b iha ihb =>
      obtain ⟨x, m, y, n, hx, hy, rfl⟩ := evaluates_le.mp h
      exact ⟨_, .le (hasKind_int (iha hx)).1 (hasKind_int (ihb hy)).1, .bool _⟩
  | bit e i ih =>
      obtain ⟨x, m, hx, hi, t, ht, rfl⟩ := evaluates_bit.mp h
      exact ⟨_, .bit (hasKind_int (ih hx)).1 hi, .bool _⟩

end Formula

end Invariance
