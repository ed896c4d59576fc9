import Invariance.Proofs.Formula.Outcomes
import Invariance.Proofs.Formula.Valuations
import Mathlib.Data.Int.Bitwise

/-!
What formulas denote over states, by rules in which there are integers instead of words. Sums, differences and negatives
are reduced to the range of their width, and everything else is exact. Evaluation follows these rules, and whatever states
it is given, the word arithmetic in it is used within its range.
-/

namespace Invariance

/-- The only number in the range of the width with the same residue. -/
structure Reduces (x : Int) (w : Nat) (z : Int) : Prop where
  range : InRange z w
  residue : x ≡ z [ZMOD 2 ^ w]

/-- A truth value, or an integer of some width. -/
inductive Exact where
  | bool (b : Bool)
  | int (z : Int) (width : Nat)

/-- The value as a number. -/
def Sized.exact : Sized → Exact
  | .bool b => .bool b
  | .int v w => .int v.toInt w

/-- What the state says of a variable, if that is in its domain. -/
inductive Valuation.Gives (s : Valuation) (x : Variable) : Exact → Prop
  | bool {b : Bool} : x.domain = .bool → s.get? x = some (.bool b) → Gives s x (.bool b)
  | int {v : Int64} {w : Width} : x.domain = .int w → s.get? x = some (.int v) → InRange v.toInt w.bits →
      Gives s x (.int v.toInt w.bits)

/-- The meaning of a formula in a state, or over a step if there is a next state. What stands below a prime is about the
next state. -/
inductive Formula.Denotes (s : Valuation) (next : Option Valuation) : Bool → Formula → Exact → Prop
  | bool {p : Bool} (b : Bool) : Denotes s next p (.bool b) (.bool b)
  | int {p : Bool} {v : Int64} {w : Nat} : IsLeast {w | 1 ≤ w ∧ InRange v.toInt w} w →
      Denotes s next p (.int v) (.int v.toInt w)
  | now {x : Variable} {m : Exact} : s.Gives x m → Denotes s next false (.var x) m
  | next {t : Valuation} {x : Variable} {m : Exact} : next = some t → t.Gives x m → Denotes s next true (.var x) m
  | prime {e : Formula} {m : Exact} : Denotes s next true e m → Denotes s next false (.prime e) m
  | not {p : Bool} {e : Formula} {a : Bool} : Denotes s next p e (.bool a) → Denotes s next p (.not e) (.bool !a)
  | and {p : Bool} {es : List Formula} (truth : Formula → Bool) :
      (∀ e ∈ es, Denotes s next p e (.bool (truth e))) → Denotes s next p (.and es) (.bool (es.all truth))
  | or {p : Bool} {es : List Formula} (truth : Formula → Bool) :
      (∀ e ∈ es, Denotes s next p e (.bool (truth e))) → Denotes s next p (.or es) (.bool (es.any truth))
  | imply {p : Bool} {d e : Formula} {a b : Bool} : Denotes s next p d (.bool a) → Denotes s next p e (.bool b) →
      Denotes s next p (.imply d e) (.bool (!a || b))
  | iteBool {p : Bool} {c d e : Formula} {z a b : Bool} : Denotes s next p c (.bool z) →
      Denotes s next p d (.bool a) → Denotes s next p e (.bool b) →
      Denotes s next p (.ite c d e) (.bool (if z then a else b))
  | iteInt {p : Bool} {c d e : Formula} {z : Bool} {x y : Int} {m n : Nat} : Denotes s next p c (.bool z) →
      Denotes s next p d (.int x m) → Denotes s next p e (.int y n) →
      Denotes s next p (.ite c d e) (.int (if z then x else y) (max m n))
  | add {p : Bool} {d e : Formula} {x y z : Int} {m n : Nat} : Denotes s next p d (.int x m) →
      Denotes s next p e (.int y n) → Reduces (x + y) (max m n) z → Denotes s next p (.add d e) (.int z (max m n))
  | sub {p : Bool} {d e : Formula} {x y z : Int} {m n : Nat} : Denotes s next p d (.int x m) →
      Denotes s next p e (.int y n) → Reduces (x - y) (max m n) z → Denotes s next p (.sub d e) (.int z (max m n))
  | neg {p : Bool} {e : Formula} {x z : Int} {n : Nat} : Denotes s next p e (.int x n) → Reduces (-x) n z →
      Denotes s next p (.neg e) (.int z n)
  | eqBool {p : Bool} {d e : Formula} {a b : Bool} : Denotes s next p d (.bool a) → Denotes s next p e (.bool b) →
      Denotes s next p (.eq d e) (.bool (a == b))
  | eqInt {p : Bool} {d e : Formula} {x y : Int} {m n : Nat} : Denotes s next p d (.int x m) →
      Denotes s next p e (.int y n) → Denotes s next p (.eq d e) (.bool (decide (x = y)))
  | lt {p : Bool} {d e : Formula} {x y : Int} {m n : Nat} : Denotes s next p d (.int x m) →
      Denotes s next p e (.int y n) → Denotes s next p (.lt d e) (.bool (decide (x < y)))
  | le {p : Bool} {d e : Formula} {x y : Int} {m n : Nat} : Denotes s next p d (.int x m) →
      Denotes s next p e (.int y n) → Denotes s next p (.le d e) (.bool (decide (x ≤ y)))
  | bit {p : Bool} {e : Formula} {x : Int} {n i : Nat} : Denotes s next p e (.int x n) → i < n →
      Denotes s next p (.bit e i) (.bool (x.testBit i))

/-! ### Words and numbers -/

theorem Reduces.unique {x z z' : Int} {w : Nat} (h : Reduces x w z) (h' : Reduces x w z') : z = z' :=
  InRange.eq_of_dvd h.range h'.range (Int.modEq_iff_dvd.mp (h'.residue.symm.trans h.residue))

/-- A machine word that is right up to multiples of `2 ^ 64` is enough to wrap at any width. -/
theorem Word.reduces_truncate {x : Int} {v : Int64} {w : Nat} (hw : 1 ≤ w ∧ w ≤ 64) (h : v.toInt = x.bmod (2 ^ 64)) :
    Reduces x w (truncate v w).toInt where
  range := inRange_truncate hw.1 hw.2
  residue := (toInt_modEq hw.2 h).symm.trans (truncate_modEq hw.1 hw.2).symm

theorem Word.isLeast_width (v : Int64) : IsLeast {w | 1 ≤ w ∧ InRange v.toInt w} (width v) :=
  ⟨⟨one_le_width v, inRange_width v⟩, fun _ hw => width_le_of_inRange hw.1 hw.2⟩

/-- The bits of a number in two's complement, of which there are infinitely many. -/
theorem testBit_eq_decide (z : Int) (i : Nat) : z.testBit i = decide (z / 2 ^ i % 2 = 1) := by
  cases z with
  | ofNat n =>
      rw [Bool.eq_iff_iff, decide_eq_true_iff, Int.testBit, Nat.testBit_eq_decide_div_mod_eq, decide_eq_true_iff,
        Int.ofNat_eq_natCast]
      norm_cast
  | negSucc n =>
      have hdiv : Int.negSucc n / 2 ^ i = Int.negSucc (n / 2 ^ i) := by
        rw [Int.negSucc_ediv n (by positivity)]
        norm_cast
      rw [hdiv, Int.testBit, Nat.testBit_eq_decide_div_mod_eq, Bool.eq_iff_iff]
      simp
      omega

theorem Word.bit_eq_testBit {v : Int64} {i : Nat} (h : i < 64) : bit v i = .ok (v.toInt.testBit i) := by
  rw [bit_eq_ok h, testBit_eq_decide]

theorem Sized.exact_injective : Function.Injective exact := by
  intro v w h
  cases v <;> cases w <;> simp_all [exact, Int64.toInt_inj]

@[simp] theorem Sized.exact_eq_bool_iff {v : Sized} {b : Bool} : v.exact = .bool b ↔ v = .bool b :=
  exact_injective.eq_iff (b := .bool b)

theorem Sized.exact_eq_int_iff {v : Sized} {z : Int} {w : Nat} :
    v.exact = .int z w ↔ ∃ x : Int64, v = .int x w ∧ x.toInt = z := by
  cases v <;> simp [exact, and_comm, eq_comm]

theorem Valuation.Gives.exists_exact {s : Valuation} {x : Variable} {m : Exact} (h : s.Gives x m) :
    ∃ v : Sized, v.exact = m := by
  cases h with
  | @bool b => exact ⟨.bool b, rfl⟩
  | @int v w => exact ⟨.int v w.bits, rfl⟩

/-! ### Readings of states -/

/-- The reading of one state, or of a state and the next one. -/
def Reading.ofStates (s : Valuation) : Option Valuation → Reading
  | none => ofState s
  | some t => ofStep s t

variable {s t : Valuation} {next : Option Valuation} {p : Bool} {e : Formula} {x : Variable} {v : Sized} {m : Exact}

theorem Reading.lookup_eq_ok_iff : lookup s x = .ok v ↔ s.Gives x v.exact := by
  constructor
  · intro h
    rw [lookup] at h
    split at h
    · cases h
    · next u hget =>
        split at h
        · next hfits =>
            cases h
            cases hd : x.domain with
            | bool =>
                rw [hd] at hfits
                cases u with
                | bool b => exact .bool hd hget
                | int y => cases hfits
            | int w =>
                rw [hd] at hfits
                cases u with
                | bool b => cases hfits
                | int y => exact .int hd hget (Value.inRange_of_fits hfits)
        · cases h
  · intro h
    generalize hm : v.exact = m at h
    cases h with
    | bool hd hget =>
        rw [Sized.exact_eq_bool_iff.mp hm]
        exact lookup_eq_ok hget (by rw [hd]; rfl)
    | @int y w hd hget hrange =>
        have hv : v = .int y w.bits := Sized.exact_injective hm
        have hfits : (Value.int y).fits x.domain := by
          rw [hd]
          exact beq_iff_eq.mpr ((Word.truncate_eq_self_iff w.pos (w.le.trans (by decide))).mpr hrange)
        rw [lookup_eq_ok hget hfits, hv, hd]
        rfl

theorem Reading.var_ofStates_eq_ok_iff :
    (ofStates s next).var p x = .ok v ↔ Formula.Denotes s next p (.var x) v.exact := by
  constructor
  · intro h
    cases next with
    | none =>
        cases p with
        | true => cases h
        | false => exact .now (lookup_eq_ok_iff.mp h)
    | some t =>
        cases p with
        | true => exact .next rfl (lookup_eq_ok_iff.mp h)
        | false => exact .now (lookup_eq_ok_iff.mp h)
  · intro h
    cases h with
    | now h => cases next <;> exact lookup_eq_ok_iff.mpr h
    | next ht h =>
        subst ht
        exact lookup_eq_ok_iff.mpr h

/-- A state may bind variables to anything, or not at all. -/
theorem Reading.yields_lookup : Formula.Yields Sized.Proper (fun _ => True) (Halt.ofError (lookup s x)) := by
  rw [lookup]
  split
  · exact .error trivial
  · split
    · next hfits => exact .ok ⟨_, Sized.hasKind_ofValue hfits⟩
    · exact .error trivial

theorem Reading.admits_ofStates : Formula.Admits (fun _ => True) (ofStates s next) e where
  var x _ p := by
    cases next with
    | none =>
        cases p with
        | true => exact .error trivial
        | false => exact yields_lookup
    | some t => cases p <;> exact yields_lookup
  sym g _ := by cases next <;> exact .error trivial

namespace Formula

theorem yields_ofStates : Yields Sized.Proper (fun _ => True) (e.evaluate (.ofStates s next) p) :=
  Reading.admits_ofStates.yields fun _ _ => trivial

/-- Integers are in the range of their width. -/
theorem Evaluates.proper (h : e.Evaluates (.ofStates s next) p v) : v.Proper :=
  Yields.of_ok (h ▸ yields_ofStates)

/-! ### Evaluation follows the rules -/

/-- The truth value of an operand depends on nothing but the operand, so that one function has all of them. -/
private theorem evaluates_each_iff {r : Reading} {es : List Formula} {ts : List Bool} :
    List.Forall₂ (fun e t => Evaluates r p e (.bool t)) es ts ↔
      ∃ truth : Formula → Bool, (∀ e ∈ es, Evaluates r p e (.bool (truth e))) ∧ ts = es.map truth := by
  classical
  constructor
  · intro h
    obtain ⟨truth, htruth⟩ : ∃ truth : Formula → Bool, ∀ e t, Evaluates r p e (.bool t) → truth e = t := by
      refine ⟨fun e => decide (Evaluates r p e (.bool true)), fun e t he => ?_⟩
      cases t with
      | true => simpa using he
      | false => simpa using fun htrue => nomatch he.unique htrue
    refine ⟨truth, ?_⟩
    induction h with
    | nil => simp
    | cons he _ ih =>
        rw [List.forall_mem_cons, List.map_cons, htruth _ _ he, ← ih.2]
        exact ⟨⟨he, ih.1⟩, rfl⟩
  · intro ⟨truth, h, hts⟩
    rw [hts, List.forall₂_map_right_iff, List.forall₂_same]
    exact h

private theorem evaluates_and_iff {r : Reading} {es : List Formula} :
    Evaluates r p (.and es) v ↔
      ∃ truth : Formula → Bool, (∀ e ∈ es, Evaluates r p e (.bool (truth e))) ∧ v = .bool (es.all truth) := by
  simp only [evaluates_and, evaluates_each_iff]
  constructor
  · rintro ⟨_, ⟨truth, h, rfl⟩, hv⟩
    exact ⟨truth, h, by simpa [Function.comp_def] using hv⟩
  · rintro ⟨truth, h, hv⟩
    exact ⟨_, ⟨truth, h, rfl⟩, by simpa [Function.comp_def] using hv⟩

private theorem evaluates_or_iff {r : Reading} {es : List Formula} :
    Evaluates r p (.or es) v ↔
      ∃ truth : Formula → Bool, (∀ e ∈ es, Evaluates r p e (.bool (truth e))) ∧ v = .bool (es.any truth) := by
  simp only [evaluates_or, evaluates_each_iff]
  constructor
  · rintro ⟨_, ⟨truth, h, rfl⟩, hv⟩
    exact ⟨truth, h, by simpa [Function.comp_def] using hv⟩
  · rintro ⟨truth, h, hv⟩
    exact ⟨_, ⟨truth, h, rfl⟩, by simpa [Function.comp_def] using hv⟩

theorem Evaluates.denotes (h : e.Evaluates (.ofStates s next) p v) : Denotes s next p e v.exact := by
  induction e generalizing p v with
  | bool b =>
      cases evaluates_bool.mp h
      exact .bool b
  | int x =>
      cases evaluates_int.mp h
      exact .int (Word.isLeast_width x)
  | var x => exact Reading.var_ofStates_eq_ok_iff.mp (evaluates_var.mp h)
  | sym g => cases next <;> cases evaluates_sym.mp h
  | prime e ih =>
      obtain ⟨rfl, he⟩ := evaluates_prime.mp h
      exact .prime (ih he)
  | not e ih =>
      obtain ⟨a, ha, rfl⟩ := evaluates_not.mp h
      exact .not (ih ha)
  | and es ih =>
      obtain ⟨truth, htruth, rfl⟩ := evaluates_and_iff.mp h
      exact .and truth fun e he => ih e he (htruth e he)
  | or es ih =>
      obtain ⟨truth, htruth, rfl⟩ := evaluates_or_iff.mp h
      exact .or truth fun e he => ih e he (htruth e he)
  | imply d e ihd ihe =>
      obtain ⟨a, b, hd, he, rfl⟩ := evaluates_imply.mp h
      exact .imply (ihd hd) (ihe he)
  | ite c d e ihc ihd ihe =>
      obtain ⟨z, a, b, hc, hd, he, rfl⟩ | ⟨z, x, m, y, n, hc, hd, he, rfl⟩ := evaluates_ite.mp h
      · exact .iteBool (ihc hc) (ihd hd) (ihe he)
      · have hite := Denotes.iteInt (ihc hc) (ihd hd) (ihe he)
        rwa [← apply_ite Int64.toInt] at hite
  | add d e ihd ihe =>
      obtain ⟨x, m, y, n, hd, he, hw, rfl⟩ := evaluates_add.mp h
      exact .add (ihd hd) (ihe he) (Word.reduces_truncate hw (Int64.toInt_add x y))
  | sub d e ihd ihe =>
      obtain ⟨x, m, y, n, hd, he, hw, rfl⟩ := evaluates_sub.mp h
      exact .sub (ihd hd) (ihe he) (Word.reduces_truncate hw (Int64.toInt_sub x y))
  | neg e ih =>
      obtain ⟨x, n, he, hw, rfl⟩ := evaluates_neg.mp h
      exact .neg (ih he) (Word.reduces_truncate hw (Int64.toInt_neg x))
  | eq d e ihd ihe =>
      obtain ⟨a, b, hd, he, rfl⟩ | ⟨x, m, y, n, hd, he, rfl⟩ := evaluates_eq.mp h
      · exact .eqBool (ihd hd) (ihe he)
      · rw [Sized.exact, Bool.beq_eq_decide_eq]
        simp only [← Int64.toInt_inj]
        exact .eqInt (ihd hd) (ihe he)
  | lt d e ihd ihe =>
      obtain ⟨x, m, y, n, hd, he, rfl⟩ := evaluates_lt.mp h
      simp only [Int64.lt_iff_toInt_lt]
      exact .lt (ihd hd) (ihe he)
  | le d e ihd ihe =>
      obtain ⟨x, m, y, n, hd, he, rfl⟩ := evaluates_le.mp h
      simp only [Int64.le_iff_toInt_le]
      exact .le (ihd hd) (ihe he)
  | bit e i ih =>
      obtain ⟨x, n, he, hi, t, ht, rfl⟩ := evaluates_bit.mp h
      obtain ⟨hw, -⟩ := Sized.proper_int_iff.mp he.proper
      rw [Word.bit_eq_testBit (hi.trans_le hw.2)] at ht
      cases ht
      exact .bit (ih he) hi

private theorem evaluates_of_exact_bool {b : Bool} (h : ∃ v, e.Evaluates (.ofStates s next) p v ∧ v.exact = .bool b) :
    e.Evaluates (.ofStates s next) p (.bool b) := by
  obtain ⟨v, hv, hb⟩ := h
  exact Sized.exact_eq_bool_iff.mp hb ▸ hv

private theorem evaluates_of_exact_int {z : Int} {w : Nat}
    (h : ∃ v, e.Evaluates (.ofStates s next) p v ∧ v.exact = .int z w) :
    ∃ x : Int64, e.Evaluates (.ofStates s next) p (.int x w) ∧ x.toInt = z ∧ 1 ≤ w ∧ w ≤ 64 := by
  obtain ⟨v, hv, hz⟩ := h
  obtain ⟨x, rfl, hx⟩ := Sized.exact_eq_int_iff.mp hz
  exact ⟨x, hv, hx, (Sized.proper_int_iff.mp hv.proper).1⟩

/-- What has a meaning has a value that stands for it. -/
theorem Denotes.exists_evaluates (h : Denotes s next p e m) :
    ∃ v, e.Evaluates (.ofStates s next) p v ∧ v.exact = m := by
  induction h with
  | bool b => exact ⟨.bool b, evaluates_bool.mpr rfl, rfl⟩
  | @int p v w hw =>
      rw [hw.unique (Word.isLeast_width v)]
      exact ⟨_, evaluates_int.mpr rfl, rfl⟩
  | now h =>
      obtain ⟨v, rfl⟩ := h.exists_exact
      exact ⟨v, evaluates_var.mpr (Reading.var_ofStates_eq_ok_iff.mpr (.now h)), rfl⟩
  | next ht h =>
      obtain ⟨v, rfl⟩ := h.exists_exact
      exact ⟨v, evaluates_var.mpr (Reading.var_ofStates_eq_ok_iff.mpr (.next ht h)), rfl⟩
  | prime _ ih =>
      obtain ⟨v, hv, hm⟩ := ih
      exact ⟨v, evaluates_prime.mpr ⟨rfl, hv⟩, hm⟩
  | not _ ih => exact ⟨_, evaluates_not.mpr ⟨_, evaluates_of_exact_bool ih, rfl⟩, rfl⟩
  | and truth _ ih =>
      have hes := fun e he => evaluates_of_exact_bool (ih e he)
      exact ⟨_, evaluates_and_iff.mpr ⟨truth, hes, rfl⟩, rfl⟩
  | or truth _ ih =>
      have hes := fun e he => evaluates_of_exact_bool (ih e he)
      exact ⟨_, evaluates_or_iff.mpr ⟨truth, hes, rfl⟩, rfl⟩
  | imply _ _ ihd ihe =>
      have hd := evaluates_of_exact_bool ihd
      have he := evaluates_of_exact_bool ihe
      exact ⟨_, evaluates_imply.mpr ⟨_, _, hd, he, rfl⟩, rfl⟩
  | iteBool _ _ _ ihc ihd ihe =>
      have hc := evaluates_of_exact_bool ihc
      have hd := evaluates_of_exact_bool ihd
      have he := evaluates_of_exact_bool ihe
      exact ⟨_, evaluates_ite.mpr (.inl ⟨_, _, _, hc, hd, he, rfl⟩), rfl⟩
  | iteInt _ _ _ ihc ihd ihe =>
      have hc := evaluates_of_exact_bool ihc
      obtain ⟨x, hd, rfl, -⟩ := evaluates_of_exact_int ihd
      obtain ⟨y, he, rfl, -⟩ := evaluates_of_exact_int ihe
      refine ⟨_, evaluates_ite.mpr (.inr ⟨_, x, _, y, _, hc, hd, he, rfl⟩), ?_⟩
      rw [Sized.exact, apply_ite Int64.toInt]
  | add _ _ hz ihd ihe =>
      obtain ⟨x, hd, rfl, hm⟩ := evaluates_of_exact_int ihd
      obtain ⟨y, he, rfl, hn⟩ := evaluates_of_exact_int ihe
      refine ⟨_, evaluates_add.mpr ⟨x, _, y, _, hd, he, Word.width_max hm hn, rfl⟩, ?_⟩
      rw [Sized.exact, hz.unique (Word.reduces_truncate (Word.width_max hm hn) (Int64.toInt_add x y))]
  | sub _ _ hz ihd ihe =>
      obtain ⟨x, hd, rfl, hm⟩ := evaluates_of_exact_int ihd
      obtain ⟨y, he, rfl, hn⟩ := evaluates_of_exact_int ihe
      refine ⟨_, evaluates_sub.mpr ⟨x, _, y, _, hd, he, Word.width_max hm hn, rfl⟩, ?_⟩
      rw [Sized.exact, hz.unique (Word.reduces_truncate (Word.width_max hm hn) (Int64.toInt_sub x y))]
  | neg _ hz ih =>
      obtain ⟨x, he, rfl, hn⟩ := evaluates_of_exact_int ih
      refine ⟨_, evaluates_neg.mpr ⟨x, _, he, hn, rfl⟩, ?_⟩
      rw [Sized.exact, hz.unique (Word.reduces_truncate hn (Int64.toInt_neg x))]
  | eqBool _ _ ihd ihe =>
      have hd := evaluates_of_exact_bool ihd
      have he := evaluates_of_exact_bool ihe
      exact ⟨_, evaluates_eq.mpr (.inl ⟨_, _, hd, he, rfl⟩), rfl⟩
  | eqInt _ _ ihd ihe =>
      obtain ⟨x, hd, rfl, -⟩ := evaluates_of_exact_int ihd
      obtain ⟨y, he, rfl, -⟩ := evaluates_of_exact_int ihe
      refine ⟨_, evaluates_eq.mpr (.inr ⟨x, _, y, _, hd, he, rfl⟩), ?_⟩
      simp only [Sized.exact, Bool.beq_eq_decide_eq, Int64.toInt_inj]
  | lt _ _ ihd ihe =>
      obtain ⟨x, hd, rfl, -⟩ := evaluates_of_exact_int ihd
      obtain ⟨y, he, rfl, -⟩ := evaluates_of_exact_int ihe
      refine ⟨_, evaluates_lt.mpr ⟨x, _, y, _, hd, he, rfl⟩, ?_⟩
      simp only [Sized.exact, Int64.lt_iff_toInt_lt]
  | le _ _ ihd ihe =>
      obtain ⟨x, hd, rfl, -⟩ := evaluates_of_exact_int ihd
      obtain ⟨y, he, rfl, -⟩ := evaluates_of_exact_int ihe
      refine ⟨_, evaluates_le.mpr ⟨x, _, y, _, hd, he, rfl⟩, ?_⟩
      simp only [Sized.exact, Int64.le_iff_toInt_le]
  | bit _ hi ih =>
      obtain ⟨x, he, rfl, hn⟩ := evaluates_of_exact_int ih
      exact ⟨_, evaluates_bit.mpr ⟨x, _, he, hi, _, Word.bit_eq_testBit (hi.trans_le hn.2), rfl⟩, rfl⟩

/-- The rules leave no choice, so that a value is the meaning and the meaning a value. -/
theorem evaluates_iff_denotes : e.Evaluates (.ofStates s next) p v ↔ Denotes s next p e v.exact := by
  constructor
  · exact Evaluates.denotes
  · intro h
    obtain ⟨w, hw, hexact⟩ := h.exists_evaluates
    rwa [← Sized.exact_injective hexact]

/-- The outcome of the whole formula is its meaning, as a truth value or as a number of some width. -/
structure Follows (s : Valuation) (next : Option Valuation) (e : Formula) (outcome : Evaluated Value) : Prop where
  noFault : ∀ f, outcome ≠ .error (.fault f)
  bool : ∀ b, outcome = .ok (.bool b) ↔ Denotes s next false e (.bool b)
  int : ∀ x : Int64, outcome = .ok (.int x) ↔ ∃ w, Denotes s next false e (.int x.toInt w)

theorem follows_ofStates (s : Valuation) (next : Option Valuation) (e : Formula) :
    Follows s next e ((e.evaluate (.ofStates s next) false).map Sized.toValue) := by
  have hmap : ∀ u : Value, (e.evaluate (.ofStates s next) false).map Sized.toValue = .ok u ↔
      ∃ v, e.Evaluates (.ofStates s next) false v ∧ v.toValue = u := fun _ => map_toValue_eq_ok
  refine ⟨?_, fun b => ?_, fun x => ?_⟩
  · have hyields : Yields (fun _ => True) (fun _ => True) ((e.evaluate (.ofStates s next) false).map Sized.toValue) :=
      yields_ofStates.map fun _ _ => trivial
    exact hyields.ne_fault
  · rw [hmap]
    constructor
    · rintro ⟨v | v, hv, hb⟩
      · cases hb
        exact hv.denotes
      · cases hb
    · intro h
      exact ⟨.bool b, evaluates_iff_denotes.mpr h, rfl⟩
  · rw [hmap]
    constructor
    · rintro ⟨v | ⟨v, w⟩, hv, hx⟩
      · cases hx
      · cases hx
        exact ⟨w, hv.denotes⟩
    · intro ⟨w, h⟩
      exact ⟨.int x w, evaluates_iff_denotes.mpr h, rfl⟩

/-- Every formula, and with it every part of one, is evaluated by the rules over all states there are: never out of the
range of word arithmetic, with integers in the range of their width. -/
theorem evaluation_exact (e : Formula) (s t : Valuation) (next : Option Valuation) (p : Bool) :
    Follows s none e (e.eval s) ∧ Follows s (some t) e (e.evalStep s t) ∧
    (∀ f, e.evaluate (.ofStates s next) p ≠ .error (.fault f)) ∧
    (∀ v, e.evaluate (.ofStates s next) p = .ok v ↔ Denotes s next p e v.exact) ∧
    ∀ x w, e.evaluate (.ofStates s next) p = .ok (.int x w) →
      (1 ≤ w ∧ w ≤ 64) ∧ -2 ^ (w - 1) ≤ x.toInt ∧ x.toInt < 2 ^ (w - 1) := by
  refine ⟨follows_ofStates s none e, follows_ofStates s (some t) e, yields_ofStates.ne_fault,
    fun v => evaluates_iff_denotes, fun x w h => ?_⟩
  obtain ⟨hw, hlow, hhigh⟩ := Sized.proper_int_iff.mp (Evaluates.proper h)
  obtain ⟨k, rfl⟩ : ∃ k, w = k + 1 := ⟨w - 1, by omega⟩
  rw [pow_succ] at hlow hhigh
  rw [Nat.add_sub_cancel]
  exact ⟨hw, by omega, by omega⟩

private def level : Variable :=
  ⟨"x", .int ⟨6, by decide, by decide⟩⟩

/-- The sum of 31 and 250, which is as wide as 250, wraps at 9 bits. -/
theorem evaluation_exact_level :
    (Formula.add (.var level) (.int 250)).eval (SortedMap.empty.insert level (.int 31)) = .ok (.int (-231)) := by
  generalize hs : (SortedMap.empty.insert level (.int 31) : Valuation) = s
  have hget : s.get? level = some (.int 31) := hs ▸ rfl
  obtain ⟨heval, -⟩ := evaluation_exact (.add (.var level) (.int 250)) s s none false
  have hvar : Denotes s none false (.var level) (.int (31 : Int64).toInt 6) := .now (.int rfl hget (by decide))
  have hint : Denotes s none false (.int 250) (.int (250 : Int64).toInt 9) := .int (Word.isLeast_width 250)
  exact (heval.int (-231)).mpr ⟨9, .add hvar hint ⟨by decide, by decide⟩⟩

end Formula

end Invariance
