import Invariance.Proofs.Formula.Meaning

/-!
Unfolding and folding undo each other. What unfolding loses of a formula is where its primes stood, since folding puts
them on the variables; no value depends on that. Folding fails at the first symbol before the clock.
-/

namespace Invariance.Formula

variable {e f : Formula} {c : Clock} {s : Symbol} {n : Nat}

/-! ### Primes on variables -/

mutual

/-- The formula with its primes moved down to its variables. The formula itself stands under `n` primes. -/
def inwardFrom (n : Nat) : Formula → Formula
  | .var x => primes n (.var x)
  | .prime e => inwardFrom (n + 1) e
  | .sym s => .sym s
  | .bool b => .bool b
  | .int v => .int v
  | .not e => .not (inwardFrom n e)
  | .neg e => .neg (inwardFrom n e)
  | .bit e i => .bit (inwardFrom n e) i
  | .and es => .and (inwardEach n es)
  | .or es => .or (inwardEach n es)
  | .imply a b => .imply (inwardFrom n a) (inwardFrom n b)
  | .add a b => .add (inwardFrom n a) (inwardFrom n b)
  | .sub a b => .sub (inwardFrom n a) (inwardFrom n b)
  | .eq a b => .eq (inwardFrom n a) (inwardFrom n b)
  | .lt a b => .lt (inwardFrom n a) (inwardFrom n b)
  | .le a b => .le (inwardFrom n a) (inwardFrom n b)
  | .ite a b c => .ite (inwardFrom n a) (inwardFrom n b) (inwardFrom n c)

def inwardEach (n : Nat) : List Formula → List Formula
  | [] => []
  | e :: es => inwardFrom n e :: inwardEach n es

end

attribute [local simp] inwardFrom inwardEach

/-- Every prime stands on a variable, or on another such prime. -/
def PrimesOnVariables (e : Formula) : Prop :=
  ∀ f, .prime f ∈ e.subformulas → ∃ k x, f = primes k (.var x)

private theorem inwardEach_eq_map (es : List Formula) : inwardEach n es = es.map (inwardFrom n) := by
  induction es with
  | nil => rfl
  | cons e es ih => simp [inwardEach, ih]

theorem inwardFrom_operator (h : e.isOperator) : e.inwardFrom n = e.mapChildren (inwardFrom n) := by
  cases e <;> simp_all [isOperator, inwardFrom, mapChildren, mapChildrenM, inwardEach_eq_map]

theorem inwardFrom_primes (x : Variable) (k : Nat) : (primes k (.var x)).inwardFrom n = primes (k + n) (.var x) := by
  induction k generalizing n with
  | zero => rw [primes, inwardFrom, Nat.zero_add]
  | succ k ih =>
      rw [primes, inwardFrom, ih]
      congr 1
      omega

/-- Primes that stand on variables stay where they are. -/
theorem inwardFrom_eq_self (h : e.PrimesOnVariables) : e.inwardFrom 0 = e := by
  induction e using inductTimes with
  | var x => rfl
  | sym s => rfl
  | prime e =>
      obtain ⟨k, x, rfl⟩ := h e (self_mem_subformulas _)
      rw [inwardFrom, inwardFrom_primes]
      rfl
  | operator e hop ih =>
      have hchild : ∀ d ∈ e.children, d.inwardFrom 0 = id d := fun d hd =>
        ih d hd fun f hf => h f (mem_subformulas_of_child hd hf)
      rw [inwardFrom_operator hop, mapChildren_congr hchild, mapChildren_id]

/-- Folding leads back from an unfolded formula, but for the places of its primes. -/
theorem fold_retimeFrom (he : e.SymbolFree) :
    (e.retimeFrom (fun x m => c.get x + m) n).fold c = .ok (e.inwardFrom n) := by
  induction e using inductTimes generalizing n with
  | var x =>
      rw [retimeFrom, fold, foldSymbol]
      simp only [Nat.not_lt.mpr (Nat.le_add_right _ _), if_false, Nat.add_sub_cancel_left, inwardFrom]
  | prime e ih => exact ih (he.child List.mem_cons_self)
  | sym s => exact absurd (self_mem_subformulas _) (he s)
  | operator e hop ih =>
      rw [fold_operator (isOperator_retimeFrom hop), retimeFrom_operator hop, mapChildrenM_mapChildren,
        inwardFrom_operator hop]
      exact mapChildrenM_eq_ok fun d hd => ih d hd (he.child hd)

/-! ### Values -/

section Values

variable {r : Reading} {p p' : Bool} {v : Sized} {F : Formula → Formula}

/-- An operator keeps its value if its operands keep theirs. -/
theorem Evaluates.mapChildren (hop : e.isOperator)
    (h : ∀ d ∈ e.children, ∀ v, d.Evaluates r p v → (F d).Evaluates r p' v) (hv : e.Evaluates r p v) :
    (e.mapChildren F).Evaluates r p' v := by
  cases e with
  | var | prime | sym => cases hop
  | bool b => exact evaluates_bool.mpr (evaluates_bool.mp hv)
  | int x => exact evaluates_int.mpr (evaluates_int.mp hv)
  | not a =>
      obtain ⟨t, ha, hval⟩ := evaluates_not.mp hv
      exact evaluates_not.mpr ⟨t, h a (by simp [children]) _ ha, hval⟩
  | neg a =>
      obtain ⟨x, m, ha, hval⟩ := evaluates_neg.mp hv
      exact evaluates_neg.mpr ⟨x, m, h a (by simp [children]) _ ha, hval⟩
  | bit a i =>
      obtain ⟨x, m, ha, hval⟩ := evaluates_bit.mp hv
      exact evaluates_bit.mpr ⟨x, m, h a (by simp [children]) _ ha, hval⟩
  | and es =>
      obtain ⟨ts, hts, hval⟩ := evaluates_and.mp hv
      simpa [Formula.mapChildren, mapChildrenM] using ⟨ts, forall₂_imp (fun d hd t => h d hd _) hts, hval⟩
  | or es =>
      obtain ⟨ts, hts, hval⟩ := evaluates_or.mp hv
      simpa [Formula.mapChildren, mapChildrenM] using ⟨ts, forall₂_imp (fun d hd t => h d hd _) hts, hval⟩
  | imply a b =>
      obtain ⟨s, t, ha, hb, hval⟩ := evaluates_imply.mp hv
      exact evaluates_imply.mpr ⟨s, t, h a (by simp [children]) _ ha, h b (by simp [children]) _ hb, hval⟩
  | add a b =>
      obtain ⟨x, m, y, k, ha, hb, hval⟩ := evaluates_add.mp hv
      exact evaluates_add.mpr ⟨x, m, y, k, h a (by simp [children]) _ ha, h b (by simp [children]) _ hb, hval⟩
  | sub a b =>
      obtain ⟨x, m, y, k, ha, hb, hval⟩ := evaluates_sub.mp hv
      exact evaluates_sub.mpr ⟨x, m, y, k, h a (by simp [children]) _ ha, h b (by simp [children]) _ hb, hval⟩
  | lt a b =>
      obtain ⟨x, m, y, k, ha, hb, hval⟩ := evaluates_lt.mp hv
      exact evaluates_lt.mpr ⟨x, m, y, k, h a (by simp [children]) _ ha, h b (by simp [children]) _ hb, hval⟩
  | le a b =>
      obtain ⟨x, m, y, k, ha, hb, hval⟩ := evaluates_le.mp hv
      exact evaluates_le.mpr ⟨x, m, y, k, h a (by simp [children]) _ ha, h b (by simp [children]) _ hb, hval⟩
  | eq a b =>
      have ha := h a (by simp [children])
      have hb := h b (by simp [children])
      rcases evaluates_eq.mp hv with ⟨s, t, hs, ht, hval⟩ | ⟨x, m, y, k, hx, hy, hval⟩
      · exact evaluates_eq.mpr (.inl ⟨s, t, ha _ hs, hb _ ht, hval⟩)
      · exact evaluates_eq.mpr (.inr ⟨x, m, y, k, ha _ hx, hb _ hy, hval⟩)
  | ite d a b =>
      have hd := h d (by simp [children])
      have ha := h a (by simp [children])
      have hb := h b (by simp [children])
      rcases evaluates_ite.mp hv with ⟨z, s, t, hz, hs, ht, hval⟩ | ⟨z, x, m, y, k, hz, hx, hy, hval⟩
      · exact evaluates_ite.mpr (.inl ⟨z, s, t, hd _ hz, ha _ hs, hb _ ht, hval⟩)
      · exact evaluates_ite.mpr (.inr ⟨z, x, m, y, k, hd _ hz, ha _ hx, hb _ hy, hval⟩)

/-- A value does not depend on where the primes stand. -/
theorem Evaluates.inwardFrom (hv : e.Evaluates r p v) : (e.inwardFrom p.toNat).Evaluates r false v := by
  induction e using inductTimes generalizing p v with
  | var x =>
      cases p with
      | false => exact hv
      | true => exact evaluates_prime.mpr ⟨rfl, hv⟩
  | sym s => exact evaluates_sym.mpr (evaluates_sym.mp hv)
  | prime e ih =>
      obtain ⟨rfl, he⟩ := evaluates_prime.mp hv
      exact ih he
  | operator e hop ih =>
      rw [inwardFrom_operator hop]
      exact hv.mapChildren hop fun d hd w hw => ih d hd hw

theorem eval_inwardFrom {s : Valuation} {w : Value} (h : e.eval s = .ok w) : (e.inwardFrom 0).eval s = .ok w := by
  obtain ⟨v, hv, hw⟩ := eval_eq_ok.mp h
  exact eval_eq_ok.mpr ⟨v, Evaluates.inwardFrom (p := false) hv, hw⟩

theorem evalStep_inwardFrom {s t : Valuation} {w : Value} (h : e.evalStep s t = .ok w) :
    (e.inwardFrom 0).evalStep s t = .ok w := by
  obtain ⟨v, hv, hw⟩ := evalStep_eq_ok.mp h
  exact evalStep_eq_ok.mpr ⟨v, Evaluates.inwardFrom (p := false) hv, hw⟩

end Values

/-! ### Symbols before a clock -/

/-- The first symbol, left to right, that lies before the clock. -/
def firstBelow (c : Clock) (e : Formula) : Option Symbol :=
  (e.subformulas.filterMap sym?).find? fun s => s.generation < c.get s.base

theorem firstBelow_eq_none_iff :
    e.firstBelow c = none ↔ ∀ s, .sym s ∈ e.subformulas → c.get s.base ≤ s.generation := by
  simp only [firstBelow, List.find?_eq_none, List.mem_filterMap, decide_eq_true_eq, Nat.not_lt]
  constructor
  · exact fun h s hs => h s ⟨_, hs, rfl⟩
  · rintro h s ⟨f, hf, hs⟩
    cases f <;> cases hs
    exact h s hf

/-- The first symbol below an operator is that of its first operand that has one. -/
theorem firstBelow_operator (hop : e.isOperator) : e.firstBelow c = e.children.findSome? (firstBelow c) := by
  have hself : e.sym? = none := by
    cases e <;> first | rfl | cases hop
  rw [firstBelow, subformulas_eq, List.filterMap_cons_none hself, List.filterMap_flatMap, List.find?_flatMap]
  rfl

private theorem mapM_eq_error {α β γ ε : Type} {p : α → Except ε β} {q : α → Option γ} {g : γ → ε} {l : List α}
    {y : γ} (herror : ∀ a ∈ l, ∀ y, q a = some y → p a = .error (g y))
    (hok : ∀ a ∈ l, q a = none → ∃ b, p a = .ok b) (h : l.findSome? q = some y) : l.mapM p = .error (g y) := by
  induction l with
  | nil => cases h
  | cons a l ih =>
      obtain ⟨hea, hel⟩ := List.forall_mem_cons.mp herror
      obtain ⟨hoa, hol⟩ := List.forall_mem_cons.mp hok
      rw [List.mapM_cons]
      rw [List.findSome?_cons] at h
      cases ha : q a with
      | some z =>
          rw [ha] at h
          cases h
          rw [hea y ha]
          rfl
      | none =>
          rw [ha] at h
          obtain ⟨b, hb⟩ := hoa ha
          rw [hb, ih hel hol h]
          rfl

theorem exists_fold_of_firstBelow_eq_none (he : e.Timed) (h : e.firstBelow c = none) : ∃ f, e.fold c = .ok f := by
  obtain ⟨f, hf, -⟩ := exists_fold_eq_ok he (firstBelow_eq_none_iff.mp h)
  exact ⟨f, hf⟩

/-- Folding fails at the first symbol before the clock. -/
theorem fold_eq_error (he : e.Timed) (h : e.firstBelow c = some s) :
    e.fold c = .error (.belowIndex s (c.get s.base)) := by
  induction e using inductTimes generalizing s with
  | var x => exact absurd (self_mem_subformulas _) (he.1 x)
  | prime e => exact absurd (self_mem_subformulas _) (he.2 e)
  | sym t =>
      change List.find? (fun u : Symbol => u.generation < c.get u.base) [t] = some s at h
      rw [List.find?_singleton] at h
      split at h
      · next hlt =>
          cases h
          rw [fold, foldSymbol]
          exact if_pos (of_decide_eq_true hlt)
      · cases h
  | operator e hop ih =>
      rw [firstBelow_operator hop] at h
      rw [fold_operator hop, mapChildrenM_eq_error_iff]
      exact mapM_eq_error (g := fun s => FrameError.belowIndex s (c.get s.base))
        (fun d hd t ht => ih d hd (he.child hd) ht)
        (fun d hd hnone => exists_fold_of_firstBelow_eq_none (he.child hd) hnone) h

/-- Unfolding leads back from a folded formula. -/
theorem exists_fold_unfold_self (he : e.Timed) (hb : e.InBounds) (h : e.firstBelow c = none) :
    ∃ f, e.fold c = .ok f ∧ f.unfold c = .ok e := by
  have hle := firstBelow_eq_none_iff.mp h
  have hback : ∀ s, .sym s ∈ e.subformulas → c.get s.base + (s.generation - c.get s.base) = s.generation :=
    fun s hs => Nat.add_sub_cancel' (hle s hs)
  obtain ⟨f, hf, hunfold⟩ := exists_fold_unfold_eq_ok (d := c) he hle fun s hs => by
    rw [hback s hs]
    exact hb s hs
  refine ⟨f, hf, hunfold.trans ?_⟩
  rw [retime_congr (h := fun _ m => m) he hback, retime_id he]

/-! ### Inverses -/

/-- Folding fails exactly if some symbol lies before the clock. -/
theorem exists_fold_eq_error_iff (he : e.Timed) :
    (∃ x, e.fold c = .error x) ↔ ∃ s, .sym s ∈ e.subformulas ∧ s.generation < c.get s.base := by
  constructor
  · rintro ⟨x, hx⟩
    by_contra hnone
    have hle : ∀ s, .sym s ∈ e.subformulas → c.get s.base ≤ s.generation :=
      fun s hs => Nat.not_lt.mp fun hlt => hnone ⟨s, hs, hlt⟩
    obtain ⟨f, hf⟩ := exists_fold_of_firstBelow_eq_none he (firstBelow_eq_none_iff.mpr hle)
    cases hx.symm.trans hf
  · rintro ⟨s, hs, hlt⟩
    cases hfirst : e.firstBelow c with
    | some t => exact ⟨_, fold_eq_error he hfirst⟩
    | none => exact absurd (firstBelow_eq_none_iff.mp hfirst s hs) (Nat.not_le.mpr hlt)

/-- What is left of a formula over variables when it is unfolded and folded again. -/
structure Recovers (e d : Formula) : Prop where
  eval : ∀ s v, e.eval s = .ok v → d.eval s = .ok v
  evalStep : ∀ s t v, e.evalStep s t = .ok v → d.evalStep s t = .ok v
  eq : e.PrimesOnVariables → d = e

/-- Folding recovers a formula over variables from what it is unfolded to. A formula over symbols is unfolded again from
what it is folded to, unless a symbol lies before the clock, which is reported for the first such symbol. -/
theorem fold_unfold_inverse (he : e.SymbolFree) (hc : e.unfold c ≠ .error .overflow) (hf : f.Timed)
    (hb : f.InBounds) :
    (∃ g d, e.unfold c = .ok g ∧ g.fold c = .ok d ∧ e.Recovers d) ∧
    ((∃ x, f.fold c = .error x) ↔ ∃ s, .sym s ∈ f.subformulas ∧ s.generation < c.get s.base) ∧
    (∀ s, f.firstBelow c = some s → f.fold c = .error (.belowIndex s (c.get s.base))) ∧
    (f.firstBelow c = none → ∃ d, f.fold c = .ok d ∧ d.unfold c = .ok f) := by
  refine ⟨?_, exists_fold_eq_error_iff hf, fun s hs => fold_eq_error hf hs, exists_fold_unfold_self hf hb⟩
  obtain ⟨g, hg⟩ := exists_unfold_eq_ok hc
  obtain ⟨rfl, -⟩ := of_unfold_eq_ok he hg
  exact ⟨_, _, hg, fold_retimeFrom he, fun _ _ => eval_inwardFrom, fun _ _ _ => evalStep_inwardFrom,
    inwardFrom_eq_self⟩

private def counter : Variable :=
  ⟨"x", .int ⟨8, by decide, by decide⟩⟩

/-- A prime above a sum, which folding moves down, and symbols after and before the clock, of which the first is
reported. -/
theorem fold_unfold_inverse_counter :
    let e : Formula := .eq (.prime (.add (.var counter) (.int 1))) (.var counter)
    let f : Formula := .eq (.sym ⟨counter, 4⟩) (.add (.sym ⟨counter, 1⟩) (.sym ⟨counter, 0⟩))
    (∃ g d, e.unfold (.all 2) = .ok g ∧ g.fold (.all 2) = .ok d ∧ e.Recovers d) ∧
      f.fold (.all 2) = .error (.belowIndex ⟨counter, 1⟩ 2) := by
  intro e f
  have he : e.SymbolFree := by simp [e, SymbolFree, subformulas]
  have hc : e.unfold (.all 2) ≠ .error .overflow := by
    rw [show e.unfold (.all 2) = .ok _ from rfl]
    exact nofun
  have hf : f.Timed := by constructor <;> simp [f, PrimeFree, subformulas]
  have hb : f.InBounds := by
    simp only [f, InBounds, subformulas, List.mem_cons, List.mem_append, List.not_mem_nil, reduceCtorEq, sym.injEq,
      or_false, false_or]
    rintro s (rfl | rfl | rfl) <;> decide
  obtain ⟨hleft, -, herror, -⟩ := fold_unfold_inverse he hc hf hb
  exact ⟨hleft, herror _ rfl⟩

end Invariance.Formula
