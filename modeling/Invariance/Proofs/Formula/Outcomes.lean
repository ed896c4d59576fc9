import Invariance.Proofs.Formula.Kinds

/-!
How evaluations end. There is a value in the range of its width, or a reason that lies in the formula or in what is
read; word arithmetic is never used outside its range. Only what is read of the variables and symbols that occur matters.
-/

namespace Invariance

/-- Integers are in the range of their width, which is that of a word. -/
def Sized.Proper (v : Sized) : Prop :=
  ∃ k, v.HasKind k

@[simp] theorem Sized.proper_bool {b : Bool} : (Sized.bool b).Proper :=
  ⟨.bool, .bool b⟩

@[simp] theorem Sized.proper_int_iff {x : Int64} {w : Nat} :
    (Sized.int x w).Proper ↔ (1 ≤ w ∧ w ≤ 64) ∧ InRange x.toInt w := by
  constructor
  · intro ⟨k, hk⟩
    cases hk with
    | int hpos hle hx => exact ⟨⟨hpos, hle⟩, hx⟩
  · intro ⟨hw, hx⟩
    exact ⟨_, .int hw.1 hw.2 hx⟩

/-- Reasons that the formula alone gives, whatever is read. -/
inductive FormulaError.Inherent : FormulaError → Prop
  | sortMismatch (e : Formula) : Inherent (.sortMismatch e)
  | bitOutOfRange (i w : Nat) : Inherent (.bitOutOfRange i w)
  | prime (e : Formula) : Inherent (.unindexed (.prime e))

namespace Formula

/-- The evaluation ends with such a value, or is refused for such a reason. -/
inductive Yields {α : Type} (P : α → Prop) (Q : FormulaError → Prop) : Evaluated α → Prop
  | ok {a : α} (h : P a) : Yields P Q (.ok a)
  | error {x : FormulaError} (h : Q x) : Yields P Q (.error (.error x))

variable {α β : Type} {P : α → Prop} {Q : FormulaError → Prop} {R : β → Prop} {x : Evaluated α}

theorem Yields.ne_fault (h : Yields P Q x) (f : Fault) : x ≠ .error (.fault f) := by
  cases h <;> simp

theorem Yields.of_ok {a : α} (h : Yields P Q (.ok a)) : P a := by
  cases h with
  | ok h => exact h

theorem Yields.of_error {y : FormulaError} (h : Yields P Q (.error (.error y))) : Q y := by
  cases h with
  | error h => exact h

theorem Yields.bind {f : α → Evaluated β} (h : Yields P Q x) (hf : ∀ a, P a → Yields R Q (f a)) :
    Yields R Q (x >>= f) := by
  cases h with
  | ok h => exact hf _ h
  | error h => exact .error h

theorem Yields.map {f : α → β} (h : Yields P Q x) (hf : ∀ a, P a → R (f a)) : Yields R Q (x.map f) := by
  cases h with
  | ok h => exact .ok (hf _ h)
  | error h => exact .error h

section Operands

variable (hQ : ∀ y, FormulaError.Inherent y → Q y) {u : Evaluated Sized} {v w : Sized} {a b c d : Formula} {i m n : Nat}

include hQ

private theorem Yields.asBool (h : Yields Sized.Proper Q u) : Yields (fun _ => True) Q (u >>= asBool d) := by
  apply h.bind
  intro v _
  cases v with
  | bool t => exact .ok trivial
  | int y n => exact .error (hQ _ (.sortMismatch d))

private theorem Yields.asInt (h : Yields Sized.Proper Q u) :
    Yields (fun y => (Sized.int y.1 y.2).Proper) Q (u >>= asInt d) := by
  apply h.bind
  intro v hv
  cases v with
  | bool t => exact .error (hQ _ (.sortMismatch d))
  | int y n => exact .ok hv

omit hQ in
private theorem yields_wrapAt (y : Int64) (hw : 1 ≤ n ∧ n ≤ 64) : Yields Sized.Proper Q (wrapAt y n) := by
  rw [wrapAt, Word.wrap_eq_ok hw.1 hw.2]
  exact .ok ⟨_, hasKind_truncate hw⟩

private theorem yields_chosen (t : Bool) (hv : v.Proper) (hw : w.Proper) : Yields Sized.Proper Q (chosen c a b t v w) := by
  cases v with
  | bool s =>
      cases w with
      | bool s' => exact .ok Sized.proper_bool
      | int y n => exact .error (hQ _ (.sortMismatch _))
  | int x m =>
      cases w with
      | bool s' => exact .error (hQ _ (.sortMismatch _))
      | int y n =>
          obtain ⟨hm, hx⟩ := Sized.proper_int_iff.mp hv
          obtain ⟨hn, hy⟩ := Sized.proper_int_iff.mp hw
          refine .ok (Sized.proper_int_iff.mpr ⟨Word.width_max hm hn, ?_⟩)
          cases t with
          | true => exact hx.mono (Nat.le_max_left m n)
          | false => exact hy.mono (Nat.le_max_right m n)

private theorem yields_compared : Yields Sized.Proper Q (compared a b v w) := by
  cases v with
  | bool s =>
      cases w with
      | bool s' => exact .ok Sized.proper_bool
      | int y n => exact .error (hQ _ (.sortMismatch _))
  | int x m =>
      cases w with
      | bool s' => exact .error (hQ _ (.sortMismatch _))
      | int y n => exact .ok Sized.proper_bool

private theorem yields_bitOf {y : Int64 × Nat} (h : (Sized.int y.1 y.2).Proper) :
    Yields Sized.Proper Q (bitOf i y) := by
  obtain ⟨⟨-, hle⟩, -⟩ := Sized.proper_int_iff.mp h
  unfold bitOf
  split
  · next hi =>
      rw [Word.bit_eq_ok (hi.trans_le hle)]
      exact .ok Sized.proper_bool
  · exact .error (hQ _ (.bitOutOfRange i y.2))

end Operands

variable {r r' : Reading} {p : Bool} {e : Formula}

/-- Whatever is read of the formula is a value that is proper, or is refused for such a reason. -/
structure Admits (Q : FormulaError → Prop) (r : Reading) (e : Formula) : Prop where
  var : ∀ x, .var x ∈ e.subformulas → ∀ q, Yields Sized.Proper Q (Halt.ofError (r.var q x))
  sym : ∀ g, .sym g ∈ e.subformulas → Yields Sized.Proper Q (Halt.ofError (r.sym g))

theorem Admits.child {c : Formula} (h : Admits Q r e) (hc : c ∈ e.children) : Admits Q r c where
  var x hx := h.var x (mem_subformulas_of_child hc hx)
  sym g hg := h.sym g (mem_subformulas_of_child hc hg)

private theorem yields_evaluateBools (hQ : ∀ y, FormulaError.Inherent y → Q y) {es : List Formula}
    (h : ∀ e ∈ es, Yields Sized.Proper Q (e.evaluate r p)) : Yields (fun _ => True) Q (evaluateBools r p es) := by
  induction es with
  | nil =>
      rw [evaluateBools]
      exact .ok trivial
  | cons e es ih =>
      obtain ⟨he, hes⟩ := List.forall_mem_cons.mp h
      rw [evaluateBools_cons]
      apply (he.asBool hQ).bind
      intro _ _
      apply (ih hes).bind
      exact fun _ _ => .ok trivial

/-- The operators add no reasons of refusal but their own, and keep integers in the range of their width. -/
theorem Admits.yields (hQ : ∀ y, FormulaError.Inherent y → Q y) (h : Admits Q r e) :
    Yields Sized.Proper Q (e.evaluate r p) := by
  induction e generalizing p with
  | bool b =>
      rw [evaluate]
      exact .ok Sized.proper_bool
  | int v =>
      rw [evaluate]
      exact .ok ⟨_, .int (Word.one_le_width v) (Word.width_le v) (Word.inRange_width v)⟩
  | var x =>
      rw [evaluate]
      exact h.var x (self_mem_subformulas _) p
  | sym s =>
      rw [evaluate]
      exact h.sym s (self_mem_subformulas _)
  | prime e ih =>
      rw [evaluate]
      split
      · exact .error (hQ _ (.prime e))
      · exact ih (h.child (by simp [children]))
  | not e ih =>
      rw [evaluate_not]
      apply ((ih (h.child (by simp [children]))).asBool hQ).bind
      exact fun _ _ => .ok Sized.proper_bool
  | and es ih | or es ih =>
      rw [evaluate]
      apply (yields_evaluateBools hQ fun c hc => ih c hc (h.child hc)).bind
      exact fun _ _ => .ok Sized.proper_bool
  | imply a b iha ihb =>
      rw [evaluate_imply]
      apply ((iha (h.child (by simp [children]))).asBool hQ).bind
      intro _ _
      apply ((ihb (h.child (by simp [children]))).asBool hQ).bind
      exact fun _ _ => .ok Sized.proper_bool
  | ite c a b ihc iha ihb =>
      rw [evaluate_ite]
      apply ((ihc (h.child (by simp [children]))).asBool hQ).bind
      intro t _
      apply (iha (h.child (by simp [children]))).bind
      intro v hv
      apply (ihb (h.child (by simp [children]))).bind
      exact fun w hw => yields_chosen hQ t hv hw
  | add a b iha ihb | sub a b iha ihb =>
      first
      | rw [evaluate_add]
      | rw [evaluate_sub]
      apply ((iha (h.child (by simp [children]))).asInt hQ).bind
      intro x hx
      apply ((ihb (h.child (by simp [children]))).asInt hQ).bind
      intro y hy
      exact yields_wrapAt _ (Word.width_max (Sized.proper_int_iff.mp hx).1 (Sized.proper_int_iff.mp hy).1)
  | neg e ih =>
      rw [evaluate_neg]
      apply ((ih (h.child (by simp [children]))).asInt hQ).bind
      exact fun x hx => yields_wrapAt _ (Sized.proper_int_iff.mp hx).1
  | eq a b iha ihb =>
      rw [evaluate_eq]
      apply (iha (h.child (by simp [children]))).bind
      intro v _
      apply (ihb (h.child (by simp [children]))).bind
      exact fun w _ => yields_compared hQ
  | lt a b iha ihb | le a b iha ihb =>
      first
      | rw [evaluate_lt]
      | rw [evaluate_le]
      apply ((iha (h.child (by simp [children]))).asInt hQ).bind
      intro _ _
      apply ((ihb (h.child (by simp [children]))).asInt hQ).bind
      exact fun _ _ => .ok Sized.proper_bool
  | bit e i ih =>
      rw [evaluate_bit]
      apply ((ih (h.child (by simp [children]))).asInt hQ).bind
      exact fun x hx => yields_bitOf hQ hx

/-! ### What matters to an evaluation -/

/-- The readings agree on the variables and symbols of the formula. -/
structure SameOn (r r' : Reading) (e : Formula) : Prop where
  var : ∀ x, .var x ∈ e.subformulas → ∀ q, r.var q x = r'.var q x
  sym : ∀ g, .sym g ∈ e.subformulas → r.sym g = r'.sym g

theorem SameOn.child {c : Formula} (h : SameOn r r' e) (hc : c ∈ e.children) : SameOn r r' c where
  var x hx := h.var x (mem_subformulas_of_child hc hx)
  sym g hg := h.sym g (mem_subformulas_of_child hc hg)

private theorem evaluateBools_congr {es : List Formula} (h : ∀ e ∈ es, e.evaluate r p = e.evaluate r' p) :
    evaluateBools r p es = evaluateBools r' p es := by
  induction es with
  | nil => rw [evaluateBools, evaluateBools]
  | cons e es ih =>
      obtain ⟨he, hes⟩ := List.forall_mem_cons.mp h
      rw [evaluateBools, evaluateBools, he, ih hes]

/-- Nothing else than the variables and symbols of a formula matters to its evaluation, refusals included. -/
theorem SameOn.evaluate_eq (h : SameOn r r' e) : e.evaluate r p = e.evaluate r' p := by
  induction e generalizing p with
  | bool b => rw [evaluate, evaluate]
  | int v => rw [evaluate, evaluate]
  | var x => rw [evaluate, evaluate, h.var x (self_mem_subformulas _)]
  | sym s => rw [evaluate, evaluate, h.sym s (self_mem_subformulas _)]
  | prime e ih => rw [evaluate, evaluate, ih (h.child (by simp [children]))]
  | and es ih | or es ih =>
      rw [evaluate, evaluate, evaluateBools_congr fun c hc => ih c hc (h.child hc)]
  | not e ih | neg e ih | bit e i ih => rw [evaluate, evaluate, ih (h.child (by simp [children]))]
  | imply a b iha ihb | add a b iha ihb | sub a b iha ihb | eq a b iha ihb | lt a b iha ihb | le a b iha ihb =>
      rw [evaluate, evaluate, iha (h.child (by simp [children])), ihb (h.child (by simp [children]))]
  | ite c a b ihc iha ihb =>
      rw [evaluate, evaluate, ihc (h.child (by simp [children])), iha (h.child (by simp [children])),
        ihb (h.child (by simp [children]))]

end Formula

end Invariance
