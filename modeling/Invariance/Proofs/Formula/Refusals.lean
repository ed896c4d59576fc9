import Invariance.Proofs.Formula.Meaning

/-!
Why a formula has no value. The reason lies in kinds and widths alone, so that readings which agree on these lead to
values of one kind, or to the same refusal. A change of times does not change it either.
-/

namespace Invariance

/-- Values of the same kind, which for integers is the width of a word. -/
inductive Sized.Alike : Sized → Sized → Prop
  | bool (s t : Bool) : Alike (.bool s) (.bool t)
  | int (x y : Int64) {w : Nat} (hpos : 1 ≤ w) (hle : w ≤ 64) : Alike (.int x w) (.int y w)

namespace Formula

/-- Two evaluations end with related values, or are refused for the same reason. Of mismatched sorts, the formula that
is to blame may be written differently. -/
inductive Alike {α β : Type} (R : α → β → Prop) : Evaluated α → Evaluated β → Prop
  | ok {a : α} {b : β} (h : R a b) : Alike R (.ok a) (.ok b)
  | sortMismatch (d d' : Formula) : Alike R (.error (.error (.sortMismatch d))) (.error (.error (.sortMismatch d')))
  | bitOutOfRange (i w : Nat) : Alike R (.error (.error (.bitOutOfRange i w))) (.error (.error (.bitOutOfRange i w)))

variable {α α' β β' : Type} {R : α → β → Prop} {S : α' → β' → Prop}

theorem Alike.bind {x : Evaluated α} {y : Evaluated β} {f : α → Evaluated α'} {g : β → Evaluated β'}
    (h : Alike R x y) (hfg : ∀ a b, R a b → Alike S (f a) (g b)) : Alike S (x >>= f) (y >>= g) := by
  cases h with
  | ok h => exact hfg _ _ h
  | sortMismatch d d' => exact .sortMismatch d d'
  | bitOutOfRange i w => exact .bitOutOfRange i w

/-- Integers of one width, which is that of a word. -/
private abbrev SameWidth (x y : Int64 × Nat) : Prop :=
  x.2 = y.2 ∧ 1 ≤ x.2 ∧ x.2 ≤ 64

section Operands

variable {u v : Evaluated Sized} {d d' : Formula}

private theorem Alike.asBool (h : Alike Sized.Alike u v) :
    Alike (fun _ _ => True) (u >>= asBool d) (v >>= asBool d') := by
  apply h.bind
  intro a b hab
  cases hab with
  | bool s t => exact .ok trivial
  | int x y _ _ => exact .sortMismatch d d'

private theorem Alike.asInt (h : Alike Sized.Alike u v) :
    Alike SameWidth (u >>= asInt d) (v >>= asInt d') := by
  apply h.bind
  intro a b hab
  cases hab with
  | bool s t => exact .sortMismatch d d'
  | int x y hpos hle => exact .ok ⟨rfl, hpos, hle⟩

private theorem alike_wrapAt (x y : Int64) {w : Nat} (hpos : 1 ≤ w) (hle : w ≤ 64) :
    Alike Sized.Alike (wrapAt x w) (wrapAt y w) := by
  unfold wrapAt
  rw [Word.wrap_eq_ok hpos hle, Word.wrap_eq_ok hpos hle]
  exact .ok (.int _ _ hpos hle)

private theorem alike_bitOf {i : Nat} {x y : Int64 × Nat} (h : SameWidth x y) :
    Alike Sized.Alike (bitOf i x) (bitOf i y) := by
  obtain ⟨hwidth, -, hle⟩ := h
  unfold bitOf
  rw [← hwidth]
  split
  · next hi =>
      rw [Word.bit_eq_ok (hi.trans_le hle), Word.bit_eq_ok (hi.trans_le hle)]
      exact .ok (.bool _ _)
  · exact .bitOutOfRange i x.2

end Operands

section Operators

variable {x : Evaluated α} {y : Evaluated β} {x' : Evaluated α'} {y' : Evaluated β'}

/-- A truth value that is made of two operands. -/
private theorem Alike.truth (h : Alike R x y) (h' : Alike S x' y') {f : α → α' → Bool} {g : β → β' → Bool} :
    Alike Sized.Alike (do return .bool (f (← x) (← x'))) (do return .bool (g (← y) (← y'))) := by
  apply h.bind
  intro _ _ _
  apply h'.bind
  exact fun _ _ _ => .ok (.bool _ _)

/-- A sum or a difference. -/
private theorem Alike.wrapped {x y x' y' : Evaluated (Int64 × Nat)} (h : Alike SameWidth x y) (h' : Alike SameWidth x' y')
    {op : Int64 → Int64 → Int64} :
    Alike Sized.Alike (do let a ← x; let b ← x'; wrapAt (op a.1 b.1) (max a.2 b.2))
      (do let a ← y; let b ← y'; wrapAt (op a.1 b.1) (max a.2 b.2)) := by
  apply h.bind
  rintro ⟨a, m⟩ ⟨b, _⟩ ⟨rfl, hm⟩
  apply h'.bind
  rintro ⟨a', k⟩ ⟨b', _⟩ ⟨rfl, hk⟩
  obtain ⟨hpos, hle⟩ := Word.width_max hm hk
  exact alike_wrapAt _ _ hpos hle

variable {u v u' v' : Sized} {a b c a' b' c' : Formula}

private theorem alike_chosen {s t : Bool} (h : Sized.Alike u v) (h' : Sized.Alike u' v') :
    Alike Sized.Alike (chosen c a b s u u') (chosen c' a' b' t v v') := by
  cases h with
  | bool =>
      cases h' with
      | bool => exact .ok (.bool _ _)
      | int => exact .sortMismatch _ _
  | int x y hpos hle =>
      cases h' with
      | bool => exact .sortMismatch _ _
      | int x' y' hpos' hle' =>
          obtain ⟨hpos, hle⟩ := Word.width_max ⟨hpos, hle⟩ ⟨hpos', hle'⟩
          exact .ok (.int _ _ hpos hle)

private theorem alike_compared (h : Sized.Alike u v) (h' : Sized.Alike u' v') :
    Alike Sized.Alike (compared a b u u') (compared a' b' v v') := by
  cases h with
  | bool =>
      cases h' with
      | bool => exact .ok (.bool _ _)
      | int => exact .sortMismatch _ _
  | int =>
      cases h' with
      | bool => exact .sortMismatch _ _
      | int => exact .ok (.bool _ _)

end Operators

variable {r r' : Reading} {g : Variable → Nat → Nat} {p : Bool} {n : Nat} {e : Formula}

/-- Readings of values of one kind. -/
def Kindred (a b : Except FormulaError Sized) : Prop :=
  Alike Sized.Alike (Halt.ofError a) (Halt.ofError b)

private theorem alike_evaluateBools {es : List Formula} {p' : Bool} {f : Formula → Formula}
    (h : ∀ e ∈ es, Alike Sized.Alike (e.evaluate r p) ((f e).evaluate r' p')) :
    Alike (fun _ _ => True) (evaluateBools r p es) (evaluateBools r' p' (es.map f)) := by
  induction es with
  | nil =>
      rw [List.map_nil, evaluateBools, evaluateBools]
      exact .ok trivial
  | cons e es ih =>
      obtain ⟨he, hes⟩ := List.forall_mem_cons.mp h
      rw [List.map_cons, evaluateBools_cons, evaluateBools_cons]
      apply he.asBool.bind
      intro _ _ _
      apply (ih hes).bind
      exact fun _ _ _ => .ok trivial

/-- Over readings that match up to kinds, a formula and what it becomes when times are changed have values of one kind,
or are refused for the same reason. -/
theorem alike_retimeFrom (h : Matches Kindred r r' g p n e) :
    Alike Sized.Alike (e.evaluate r p) ((e.retimeFrom g n).evaluate r' true) := by
  induction e generalizing p n with
  | bool b =>
      rw [retimeFrom, evaluate, evaluate]
      exact .ok (.bool b b)
  | int v =>
      rw [retimeFrom, evaluate, evaluate]
      exact .ok (.int v v (Word.one_le_width v) (Word.width_le v))
  | var x =>
      rw [retimeFrom, evaluate, evaluate]
      exact (h.var x (self_mem_subformulas _)).2
  | sym s =>
      rw [retimeFrom, evaluate, evaluate]
      exact h.sym s (self_mem_subformulas _)
  | prime e ih =>
      obtain ⟨hp, -⟩ := h.prime e (self_mem_subformulas _)
      rw [retimeFrom, evaluate, hp]
      exact ih h.ofPrime
  | not e ih =>
      rw [retimeFrom, evaluate_not, evaluate_not]
      apply (ih (h.child (by simp [children]))).asBool.bind
      exact fun _ _ _ => .ok (.bool _ _)
  | and es ih | or es ih =>
      rw [retimeFrom, evaluate, evaluate, retimeEach_eq_map]
      apply (alike_evaluateBools fun c hc => ih c hc (h.child hc)).bind
      exact fun _ _ _ => .ok (.bool _ _)
  | imply a b iha ihb =>
      rw [retimeFrom, evaluate_imply, evaluate_imply]
      exact (iha (h.child (by simp [children]))).asBool.truth (ihb (h.child (by simp [children]))).asBool
  | ite c a b ihc iha ihb =>
      rw [retimeFrom, evaluate_ite, evaluate_ite]
      apply (ihc (h.child (by simp [children]))).asBool.bind
      intro _ _ _
      apply (iha (h.child (by simp [children]))).bind
      intro u v huv
      apply (ihb (h.child (by simp [children]))).bind
      exact fun u' v' huv' => alike_chosen huv huv'
  | add a b iha ihb =>
      rw [retimeFrom, evaluate_add, evaluate_add]
      exact (iha (h.child (by simp [children]))).asInt.wrapped (ihb (h.child (by simp [children]))).asInt
  | sub a b iha ihb =>
      rw [retimeFrom, evaluate_sub, evaluate_sub]
      exact (iha (h.child (by simp [children]))).asInt.wrapped (ihb (h.child (by simp [children]))).asInt
  | neg e ih =>
      rw [retimeFrom, evaluate_neg, evaluate_neg]
      apply (ih (h.child (by simp [children]))).asInt.bind
      rintro ⟨x, m⟩ ⟨x', _⟩ ⟨rfl, hpos, hle⟩
      exact alike_wrapAt _ _ hpos hle
  | eq a b iha ihb =>
      rw [retimeFrom, evaluate_eq, evaluate_eq]
      apply (iha (h.child (by simp [children]))).bind
      intro u v huv
      apply (ihb (h.child (by simp [children]))).bind
      exact fun u' v' huv' => alike_compared huv huv'
  | lt a b iha ihb =>
      rw [retimeFrom, evaluate_lt, evaluate_lt]
      exact (iha (h.child (by simp [children]))).asInt.truth (ihb (h.child (by simp [children]))).asInt
  | le a b iha ihb =>
      rw [retimeFrom, evaluate_le, evaluate_le]
      exact (iha (h.child (by simp [children]))).asInt.truth (ihb (h.child (by simp [children]))).asInt
  | bit e i ih =>
      rw [retimeFrom, evaluate_bit, evaluate_bit]
      apply (ih (h.child (by simp [children]))).asInt.bind
      exact fun _ _ hxy => alike_bitOf hxy

end Formula

end Invariance
