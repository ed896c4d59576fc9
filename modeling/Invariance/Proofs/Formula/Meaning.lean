import Invariance.Formula.Evaluation
import Invariance.Proofs.Formula.Structure
import Invariance.Proofs.Words

/-!
Formulas that have a value. A formula has one exactly if its operands have, of the right kind; `Evaluates` says so
operator by operator, and forgets why a formula has none. Over an assignment of values to symbols, changing the
times of a formula is changing the assignment.
-/

namespace Invariance

namespace Formula

/-- The formula has the value `v`. -/
def Evaluates (r : Reading) (primed : Bool) (e : Formula) (v : Sized) : Prop :=
  evaluate r primed e = .ok v

variable {r : Reading} {p : Bool} {a b c e : Formula} {v : Sized}

theorem Evaluates.unique {w : Sized} (h : Evaluates r p e v) (h' : Evaluates r p e w) : v = w := by
  unfold Evaluates at h h'
  rw [h] at h'
  exact Except.ok.inj h'

theorem bind_eq_ok {ε α β : Type} {x : Except ε α} {f : α → Except ε β} {b : β} :
    (x >>= f) = .ok b ↔ ∃ a, x = .ok a ∧ f a = .ok b := by
  cases x <;> simp [bind, Except.bind]

theorem ok_bind {ε α β : Type} {a : α} {f : α → Except ε β} : (Except.ok a >>= f) = f a :=
  rfl

theorem pure_eq_ok {ε α : Type} {x y : α} : (pure x : Except ε α) = .ok y ↔ y = x := by
  simp [pure, Except.pure, eq_comm]

private theorem throw_ne_ok {ε α : Type} {x : ε} {y : α} : ¬ (throw x : Except ε α) = .ok y := by
  simp [throw, throwThe, MonadExceptOf.throw]

private theorem wrapAt_eq_ok {x : Int64} {w : Nat} :
    wrapAt x w = .ok v ↔ (1 ≤ w ∧ w ≤ 64) ∧ v = .int (Word.truncate x w) w := by
  unfold wrapAt Word.wrap
  split <;> simp [*, Halt.ofFault, Except.map, eq_comm]

private theorem ofError_eq_ok {ε α : Type} {x : Except ε α} {a : α} :
    Halt.ofError x = .ok a ↔ x = .ok a := by
  cases x <;> simp [Halt.ofError]

/-! ### Evaluation operand by operand -/

/-- The truth value of an operand. -/
def evaluateBool (r : Reading) (p : Bool) (e : Formula) : Evaluated Bool :=
  evaluate r p e >>= asBool e

/-- The integer of an operand, and its width. -/
def evaluateInt (r : Reading) (p : Bool) (e : Formula) : Evaluated (Int64 × Nat) :=
  evaluate r p e >>= asInt e

/-- The value of a choice, from those of its operands. -/
def chosen (c a b : Formula) (z : Bool) : Sized → Sized → Evaluated Sized
  | .bool s, .bool t => return .bool (if z then s else t)
  | .int x m, .int y n => return .int (if z then x else y) (max m n)
  | .bool _, .int _ _ | .int _ _, .bool _ => throw (.error (.sortMismatch (.ite c a b)))

/-- The value of an equation, from those of its operands. -/
def compared (a b : Formula) : Sized → Sized → Evaluated Sized
  | .bool s, .bool t => return .bool (s == t)
  | .int x _, .int y _ => return .bool (x == y)
  | .bool _, .int _ _ | .int _ _, .bool _ => throw (.error (.sortMismatch (.eq a b)))

/-- The value of a bit, from that of its operand. -/
def bitOf (i : Nat) (x : Int64 × Nat) : Evaluated Sized :=
  if i < x.2 then do return .bool (← Halt.ofFault (Word.bit x.1 i)) else throw (.error (.bitOutOfRange i x.2))

section Operands

-- the equations of the evaluator are made once, for all lemmas of this section
attribute [local simp] evaluate evaluateBools

theorem evaluate_not : evaluate r p (.not e) = (do return .bool !(← evaluateBool r p e)) := by
  rw [evaluate, evaluateBool, bind_assoc]

theorem evaluateBools_cons {es : List Formula} : evaluateBools r p (e :: es) = (do
    let t ← evaluateBool r p e
    let ts ← evaluateBools r p es
    return t :: ts) := by
  rw [evaluateBools, evaluateBool, bind_assoc]

theorem evaluate_imply : evaluate r p (.imply a b) = (do
    let s ← evaluateBool r p a
    let t ← evaluateBool r p b
    return .bool (!s || t)) := by
  simp only [evaluate, evaluateBool, bind_assoc]

theorem evaluate_ite : evaluate r p (.ite c a b) = (do
    let z ← evaluateBool r p c
    chosen c a b z (← evaluate r p a) (← evaluate r p b)) := by
  simp only [evaluate, evaluateBool, bind_assoc]
  refine bind_congr fun u => bind_congr fun z => bind_congr fun v => bind_congr fun w => ?_
  cases v <;> cases w <;> rfl

theorem evaluate_add : evaluate r p (.add a b) = (do
    let x ← evaluateInt r p a
    let y ← evaluateInt r p b
    wrapAt (x.1 + y.1) (max x.2 y.2)) := by
  simp only [evaluate, evaluateInt, bind_assoc]

theorem evaluate_sub : evaluate r p (.sub a b) = (do
    let x ← evaluateInt r p a
    let y ← evaluateInt r p b
    wrapAt (x.1 - y.1) (max x.2 y.2)) := by
  simp only [evaluate, evaluateInt, bind_assoc]

theorem evaluate_neg : evaluate r p (.neg e) = (do
    let x ← evaluateInt r p e
    wrapAt (-x.1) x.2) := by
  simp only [evaluate, evaluateInt, bind_assoc]

theorem evaluate_eq : evaluate r p (.eq a b) = (do
    compared a b (← evaluate r p a) (← evaluate r p b)) := by
  rw [evaluate]
  refine bind_congr fun u => bind_congr fun v => ?_
  cases u <;> cases v <;> rfl

theorem evaluate_lt : evaluate r p (.lt a b) = (do
    let x ← evaluateInt r p a
    let y ← evaluateInt r p b
    return .bool (x.1 < y.1)) := by
  simp only [evaluate, evaluateInt, bind_assoc]

theorem evaluate_le : evaluate r p (.le a b) = (do
    let x ← evaluateInt r p a
    let y ← evaluateInt r p b
    return .bool (x.1 ≤ y.1)) := by
  simp only [evaluate, evaluateInt, bind_assoc]

theorem evaluate_bit {i : Nat} : evaluate r p (.bit e i) = (do bitOf i (← evaluateInt r p e)) := by
  simp only [evaluate, evaluateInt, bind_assoc]
  rfl

end Operands

theorem evaluateBool_eq_ok {t : Bool} : evaluateBool r p e = .ok t ↔ Evaluates r p e (.bool t) := by
  unfold Evaluates evaluateBool
  rcases evaluate r p e with _ | (_ | _) <;> simp [bind, Except.bind, asBool]

theorem evaluateInt_eq_ok {x : Int64 × Nat} : evaluateInt r p e = .ok x ↔ Evaluates r p e (.int x.1 x.2) := by
  unfold Evaluates evaluateInt
  rcases evaluate r p e with _ | (_ | _) <;> simp [bind, Except.bind, asInt, Prod.ext_iff]

/-! ### Values of formulas from those of their operands -/

attribute [local simp] evaluate evaluateBools

@[simp] theorem evaluates_bool {t : Bool} : Evaluates r p (.bool t) v ↔ v = .bool t := by
  simp [Evaluates, evaluate, eq_comm]

@[simp] theorem evaluates_int {x : Int64} : Evaluates r p (.int x) v ↔ v = .int x (Word.width x) := by
  simp [Evaluates, evaluate, eq_comm]

@[simp] theorem evaluates_var {x : Variable} : Evaluates r p (.var x) v ↔ r.var p x = .ok v := by
  simp [Evaluates, evaluate, ofError_eq_ok]

@[simp] theorem evaluates_sym {s : Symbol} : Evaluates r p (.sym s) v ↔ r.sym s = .ok v := by
  simp [Evaluates, evaluate, ofError_eq_ok]

@[simp] theorem evaluates_prime : Evaluates r p (.prime e) v ↔ p = false ∧ Evaluates r true e v := by
  cases p <;> simp [Evaluates, evaluate]

@[simp] theorem evaluates_not : Evaluates r p (.not e) v ↔ ∃ t, Evaluates r p e (.bool t) ∧ v = .bool !t := by
  rw [Evaluates, evaluate_not]
  simp only [bind_eq_ok, evaluateBool_eq_ok, pure_eq_ok]

theorem evaluateBools_eq_ok {es : List Formula} {ts : List Bool} :
    evaluateBools r p es = .ok ts ↔ List.Forall₂ (fun e t => Evaluates r p e (.bool t)) es ts := by
  induction es generalizing ts with
  | nil => simp [evaluateBools, eq_comm]
  | cons e es ih =>
      rw [evaluateBools_cons, List.forall₂_cons_left_iff]
      simp only [bind_eq_ok, evaluateBool_eq_ok, ih, pure_eq_ok]
      constructor
      · rintro ⟨t, he, ts, hes, rfl⟩
        exact ⟨t, ts, he, hes, rfl⟩
      · rintro ⟨t, ts, he, hes, rfl⟩
        exact ⟨t, he, ts, hes, rfl⟩

@[simp] theorem evaluates_and {es : List Formula} :
    Evaluates r p (.and es) v ↔
      ∃ ts, List.Forall₂ (fun e t => Evaluates r p e (.bool t)) es ts ∧ v = .bool (ts.all id) := by
  rw [Evaluates, evaluate, bind_eq_ok]
  simp only [evaluateBools_eq_ok, pure_eq_ok]

@[simp] theorem evaluates_or {es : List Formula} :
    Evaluates r p (.or es) v ↔
      ∃ ts, List.Forall₂ (fun e t => Evaluates r p e (.bool t)) es ts ∧ v = .bool (ts.any id) := by
  rw [Evaluates, evaluate, bind_eq_ok]
  simp only [evaluateBools_eq_ok, pure_eq_ok]

@[simp] theorem evaluates_imply :
    Evaluates r p (.imply a b) v ↔
      ∃ s t, Evaluates r p a (.bool s) ∧ Evaluates r p b (.bool t) ∧ v = .bool (!s || t) := by
  rw [Evaluates, evaluate_imply]
  simp only [bind_eq_ok, evaluateBool_eq_ok, pure_eq_ok, exists_and_left]

@[simp] theorem evaluates_ite :
    Evaluates r p (.ite c a b) v ↔
      (∃ z s t, Evaluates r p c (.bool z) ∧ Evaluates r p a (.bool s) ∧ Evaluates r p b (.bool t) ∧
        v = .bool (if z then s else t)) ∨
      ∃ z x m y n, Evaluates r p c (.bool z) ∧ Evaluates r p a (.int x m) ∧ Evaluates r p b (.int y n) ∧
        v = .int (if z then x else y) (max m n) := by
  rw [Evaluates, evaluate_ite]
  simp only [bind_eq_ok, evaluateBool_eq_ok]
  constructor
  · rintro ⟨z, hz, va, ha, vb, hb, h⟩
    match va, vb, h with
    | .bool s, .bool t, h => exact .inl ⟨z, s, t, hz, ha, hb, pure_eq_ok.mp h⟩
    | .int x m, .int y n, h => exact .inr ⟨z, x, m, y, n, hz, ha, hb, pure_eq_ok.mp h⟩
    | .bool _, .int _ _, h | .int _ _, .bool _, h => exact absurd h throw_ne_ok
  · rintro (⟨z, s, t, hz, ha, hb, rfl⟩ | ⟨z, x, m, y, n, hz, ha, hb, rfl⟩)
    · exact ⟨z, hz, _, ha, _, hb, rfl⟩
    · exact ⟨z, hz, _, ha, _, hb, rfl⟩

@[simp] theorem evaluates_add :
    Evaluates r p (.add a b) v ↔ ∃ x m y n, Evaluates r p a (.int x m) ∧ Evaluates r p b (.int y n) ∧
      (1 ≤ max m n ∧ max m n ≤ 64) ∧ v = .int (Word.truncate (x + y) (max m n)) (max m n) := by
  rw [Evaluates, evaluate_add]
  simp only [bind_eq_ok, evaluateInt_eq_ok, wrapAt_eq_ok, Prod.exists, exists_and_left]

@[simp] theorem evaluates_sub :
    Evaluates r p (.sub a b) v ↔ ∃ x m y n, Evaluates r p a (.int x m) ∧ Evaluates r p b (.int y n) ∧
      (1 ≤ max m n ∧ max m n ≤ 64) ∧ v = .int (Word.truncate (x - y) (max m n)) (max m n) := by
  rw [Evaluates, evaluate_sub]
  simp only [bind_eq_ok, evaluateInt_eq_ok, wrapAt_eq_ok, Prod.exists, exists_and_left]

@[simp] theorem evaluates_neg :
    Evaluates r p (.neg e) v ↔ ∃ x m, Evaluates r p e (.int x m) ∧
      (1 ≤ m ∧ m ≤ 64) ∧ v = .int (Word.truncate (-x) m) m := by
  rw [Evaluates, evaluate_neg]
  simp only [bind_eq_ok, evaluateInt_eq_ok, wrapAt_eq_ok, Prod.exists]

@[simp] theorem evaluates_eq :
    Evaluates r p (.eq a b) v ↔
      (∃ s t, Evaluates r p a (.bool s) ∧ Evaluates r p b (.bool t) ∧ v = .bool (s == t)) ∨
      ∃ x m y n, Evaluates r p a (.int x m) ∧ Evaluates r p b (.int y n) ∧ v = .bool (x == y) := by
  rw [Evaluates, evaluate_eq]
  simp only [bind_eq_ok]
  constructor
  · rintro ⟨va, ha, vb, hb, h⟩
    match va, vb, h with
    | .bool s, .bool t, h => exact .inl ⟨s, t, ha, hb, pure_eq_ok.mp h⟩
    | .int x m, .int y n, h => exact .inr ⟨x, m, y, n, ha, hb, pure_eq_ok.mp h⟩
    | .bool _, .int _ _, h | .int _ _, .bool _, h => exact absurd h throw_ne_ok
  · rintro (⟨s, t, ha, hb, rfl⟩ | ⟨x, m, y, n, ha, hb, rfl⟩)
    · exact ⟨_, ha, _, hb, rfl⟩
    · exact ⟨_, ha, _, hb, rfl⟩

@[simp] theorem evaluates_lt :
    Evaluates r p (.lt a b) v ↔ ∃ x m y n, Evaluates r p a (.int x m) ∧ Evaluates r p b (.int y n) ∧
      v = .bool (decide (x < y)) := by
  rw [Evaluates, evaluate_lt]
  simp only [bind_eq_ok, evaluateInt_eq_ok, pure_eq_ok, Prod.exists, exists_and_left]

@[simp] theorem evaluates_le :
    Evaluates r p (.le a b) v ↔ ∃ x m y n, Evaluates r p a (.int x m) ∧ Evaluates r p b (.int y n) ∧
      v = .bool (decide (x ≤ y)) := by
  rw [Evaluates, evaluate_le]
  simp only [bind_eq_ok, evaluateInt_eq_ok, pure_eq_ok, Prod.exists, exists_and_left]

@[simp] theorem evaluates_bit {i : Nat} :
    Evaluates r p (.bit e i) v ↔ ∃ x m, Evaluates r p e (.int x m) ∧ i < m ∧
      ∃ t, Word.bit x i = .ok t ∧ v = .bool t := by
  rw [Evaluates, evaluate_bit, bind_eq_ok]
  simp only [evaluateInt_eq_ok, Prod.exists]
  refine exists_congr fun x => exists_congr fun m => and_congr_right fun _ => ?_
  by_cases hi : i < m
  · simp only [bitOf, if_pos hi]
    rcases Word.bit x i with _ | t <;> simp [hi, Halt.ofFault, bind, Except.bind, pure_eq_ok]
  · simp only [bitOf, if_neg hi]
    simp [hi, throw_ne_ok]

theorem map_toValue_eq_ok {u : Evaluated Sized} {w : Value} :
    u.map Sized.toValue = .ok w ↔ ∃ v, u = .ok v ∧ v.toValue = w := by
  cases u <;> simp [Except.map]

theorem eval_eq_ok {s : Valuation} {w : Value} :
    e.eval s = .ok w ↔ ∃ v, e.Evaluates (.ofState s) false v ∧ v.toValue = w :=
  map_toValue_eq_ok

theorem evalStep_eq_ok {s t : Valuation} {w : Value} :
    e.evalStep s t = .ok w ↔ ∃ v, e.Evaluates (.ofStep s t) false v ∧ v.toValue = w :=
  map_toValue_eq_ok

/-! ### Change of times -/

theorem forall₂_imp {α β : Type} {R S : α → β → Prop} {l : List α} {m : List β} (h : ∀ a ∈ l, ∀ b, R a b → S a b)
    (hlm : List.Forall₂ R l m) : List.Forall₂ S l m := by
  induction hlm with
  | nil => exact .nil
  | cons hab _ ih =>
      exact .cons (h _ List.mem_cons_self _ hab) (ih fun a ha => h a (List.mem_cons_of_mem _ ha))

private theorem forall₂_congr {α β : Type} {R S : α → β → Prop} {l : List α} {m : List β}
    (h : ∀ a ∈ l, ∀ b, R a b ↔ S a b) : List.Forall₂ R l m ↔ List.Forall₂ S l m :=
  ⟨forall₂_imp fun a ha b => (h a ha b).mp, forall₂_imp fun a ha b => (h a ha b).mpr⟩

/-- What one reading says of the variables and symbols of a formula is related to what the other says of the symbols
that they become. The formula stands under `n` primes, of which there is at most one above any variable. -/
structure Matches (R : Except FormulaError Sized → Except FormulaError Sized → Prop) (r r' : Reading)
    (g : Variable → Nat → Nat) (p : Bool) (n : Nat) (e : Formula) : Prop where
  sym : ∀ s, .sym s ∈ e.subformulas → R (r.sym s) (r'.sym ⟨s.base, g s.base s.generation⟩)
  var : ∀ x, .var x ∈ e.subformulas → n = p.toNat ∧ R (r.var p x) (r'.sym ⟨x, g x n⟩)
  next : ∀ x, .var x ∈ e.subformulas → ¬ e.PrimeFree → R (r.var true x) (r'.sym ⟨x, g x 1⟩)
  prime : ∀ f, .prime f ∈ e.subformulas → p = false ∧ f.PrimeFree

variable {R : Except FormulaError Sized → Except FormulaError Sized → Prop}
variable {r' : Reading} {p' : Bool} {g : Variable → Nat → Nat} {n : Nat}

theorem Matches.child (h : Matches R r r' g p n e) (hc : c ∈ e.children) : Matches R r r' g p n c where
  sym s hs := h.sym s (mem_subformulas_of_child hc hs)
  var x hx := h.var x (mem_subformulas_of_child hc hx)
  next x hx hp := h.next x (mem_subformulas_of_child hc hx) fun hfree => hp (hfree.child hc)
  prime f hf := h.prime f (mem_subformulas_of_child hc hf)

theorem Matches.ofPrime (h : Matches R r r' g p n (.prime e)) : Matches R r r' g true (n + 1) e := by
  obtain ⟨hp, hfree⟩ := h.prime e (self_mem_subformulas _)
  have hmem : ∀ {f}, f ∈ e.subformulas → f ∈ (Formula.prime e).subformulas :=
    mem_subformulas_of_child List.mem_cons_self
  have hnot : ¬ (Formula.prime e).PrimeFree := fun hall => hall e (self_mem_subformulas _)
  refine ⟨fun s hs => h.sym s (hmem hs), fun x hx => ?_, fun x _ hnot => absurd hfree hnot,
    fun f hf => absurd hf (hfree f)⟩
  have hn := (h.var x (hmem hx)).1
  rw [hp] at hn
  subst hn
  exact ⟨rfl, h.next x (hmem hx) hnot⟩

/-- A formula with changed times has the values that the formula has under the matching reading. -/
theorem evaluates_retimeFrom (h : Matches Eq r r' g p n e) :
    Evaluates r' p' (e.retimeFrom g n) v ↔ Evaluates r p e v := by
  induction e generalizing p n v with
  | bool | int => simp [retimeFrom]
  | var x =>
      obtain ⟨rfl, hx⟩ := h.var x (self_mem_subformulas _)
      rw [retimeFrom, evaluates_sym, evaluates_var, ← hx]
  | sym s => rw [retimeFrom, evaluates_sym, evaluates_sym, ← h.sym s (self_mem_subformulas _)]
  | prime e ih =>
      obtain ⟨hp, -⟩ := h.prime e (self_mem_subformulas _)
      rw [retimeFrom, ih h.ofPrime, evaluates_prime]
      simp [hp]
  | and es ih | or es ih =>
      have hlist : ∀ ts, List.Forall₂ (fun e t => Evaluates r' p' e (.bool t)) (retimeEach g n es) ts ↔
          List.Forall₂ (fun e t => Evaluates r p e (.bool t)) es ts := by
        intro ts
        rw [retimeEach_eq_map, List.forall₂_map_left_iff]
        exact forall₂_congr fun e he t => ih e he (h.child he)
      simp only [retimeFrom, evaluates_and, evaluates_or, hlist]
  | not e ih | neg e ih | bit e i ih =>
      have he := fun v => ih (v := v) (h.child List.mem_cons_self)
      simp only [retimeFrom, evaluates_not, evaluates_neg, evaluates_bit, he]
  | imply a b iha ihb | add a b iha ihb | sub a b iha ihb | eq a b iha ihb | lt a b iha ihb
  | le a b iha ihb =>
      have ha := fun v => iha (v := v) (h.child (by simp [children]))
      have hb := fun v => ihb (v := v) (h.child (by simp [children]))
      simp only [retimeFrom, evaluates_imply, evaluates_add, evaluates_sub, evaluates_eq, evaluates_lt,
        evaluates_le, ha, hb]
  | ite c a b ihc iha ihb =>
      have hc := fun v => ihc (v := v) (h.child (by simp [children]))
      have ha := fun v => iha (v := v) (h.child (by simp [children]))
      have hb := fun v => ihb (v := v) (h.child (by simp [children]))
      simp only [retimeFrom, evaluates_ite, ha, hb, hc]

end Formula

/-! ### Assignments -/

/-- Values of all symbols, each within its domain. -/
def Assignment : Type :=
  (x : Variable) → (generation : Nat) → {v : Value // v.fits x.domain}

namespace Assignment

variable {σ τ : Assignment} {e : Formula} {g : Variable → Nat → Nat} {v : Sized}

/-- Only symbols can be read. -/
def reading (σ : Assignment) : Reading where
  var _ x := .error (.unindexed (.var x))
  sym s := .ok (.ofValue (σ s.base s.generation).1 s.domain)

/-- The formula is true. -/
def Satisfies (σ : Assignment) (e : Formula) : Prop :=
  e.Evaluates σ.reading true (.bool true)

/-- The assignment that reads a symbol at another time. -/
def retime (σ : Assignment) (g : Variable → Nat → Nat) : Assignment :=
  fun x m => σ x (g x m)

/-- What holds from a frame on, the frame being the first. -/
def onward (σ : Assignment) (frame : Variable → Nat) : Assignment :=
  σ.retime fun x m => frame x + m

theorem evaluates_retime (he : e.Timed) :
    (e.retime g).Evaluates σ.reading true v ↔ e.Evaluates (σ.retime g).reading true v :=
  Formula.evaluates_retimeFrom {
    sym := fun _ _ => rfl
    var := fun x hx => absurd hx (he.1 x)
    next := fun x hx => absurd hx (he.1 x)
    prime := fun f hf => absurd hf (he.2 f) }

end Assignment

end Invariance
