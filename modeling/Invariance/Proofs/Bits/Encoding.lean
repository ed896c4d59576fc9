import Invariance.Bits.Encoding
import Invariance.Proofs.Bits.Allocation
import Invariance.Proofs.Bits.Circuit
import Invariance.Proofs.Diagram.Support

/-!
Encodings have the value of their formula under every assignment. A workspace only grows, what is represented stays so,
and a formula is refused for the reason for which it has no value.
-/

namespace Invariance.Bits

open Diagram Formula

variable {w w' w'' : Workspace} {e f : Formula} {es : List Formula} {c : Code} {ρ : Nat → Bool}
variable {x y z : Edge} {xs ys : Signals} {α : Type}

/-! ### Workspaces -/

/-- The diagrams and the variables of symbols are as they should be. -/
structure Workspace.Valid (w : Workspace) : Prop where
  manager : w.manager.Valid
  symbols : w.symbols.Consistent

/-- A valid workspace that has all diagrams and all variables of another one. -/
structure Workspace.Grows (w w' : Workspace) : Prop where
  valid : w'.Valid
  manager : w.manager.Grows w'.manager
  symbols : w.symbols.Extends w'.symbols

theorem Workspace.Valid.grows (h : w.Valid) : w.Grows w :=
  ⟨h, h.manager.grows, fun _ _ => id⟩

theorem Workspace.Grows.trans (h : w.Grows w') (h' : w'.Grows w'') : w.Grows w'' :=
  ⟨h'.valid, h.manager.trans h'.manager, fun s vs hs => h'.symbols s vs (h.symbols s vs hs)⟩

/-- What an edge stands for, as a statement about the values of symbols. -/
def Workspace.reading (w : Workspace) (ρ : Nat → Bool) : Reading :=
  (w.symbols.assignment ρ).reading

namespace Encode

variable {b : Build α} {Q : α → Manager → Prop} {E : Halt FormulaError → Workspace → Prop}

theorem run_build : (build b).run.run w = match b.run.run w.manager with
    | (.ok x, m) => (.ok x, ⟨m, w.symbols⟩)
    | (.error f, m) => (.error (.fault f), ⟨m, w.symbols⟩) :=
  rfl

theorem meets_build (h : Meets b w.manager Q fun _ _ => False) :
    Meets (build b) w (fun a w' => Q a w'.manager ∧ w'.symbols = w.symbols) E := by
  obtain ⟨x, m, hb, hQ⟩ := h.exists_ok
  have hrun : (build b).run.run w = (.ok x, ⟨m, w.symbols⟩) := by rw [run_build, hb]
  exact meets_of_run_ok hrun ⟨hQ, rfl⟩

/-- Work on the diagrams leaves the symbols alone. -/
theorem meets_build_grows {R : α → Manager → Prop} (hw : w.Valid)
    (h : Meets b w.manager (fun a m => w.manager.Grows m ∧ R a m) fun _ _ => False) :
    Meets (build b) w (fun a w' => w.Grows w' ∧ w'.symbols = w.symbols ∧ R a w'.manager) E := by
  refine (meets_build h).imp ?_
  rintro a ⟨m, s⟩ ⟨⟨hg, hR⟩, rfl⟩
  exact ⟨⟨⟨hg.valid, hw.symbols⟩, hg, fun _ _ => id⟩, rfl, hR⟩

theorem run_allot {s : Symbol} :
    (allot s).run.run w = (.ok (w.symbols.allot s).1, ⟨w.manager, (w.symbols.allot s).2⟩) :=
  rfl

theorem meets_allot {s : Symbol} (hw : w.Valid) :
    Meets (allot s) w (fun vs w' => w.Grows w' ∧ w'.symbols.get? s = some vs) E := by
  obtain ⟨hconsistent, hextends, hget⟩ := hw.symbols.allot (Prod.mk.eta.symm : w.symbols.allot s = _)
  exact meets_of_run_ok run_allot ⟨⟨⟨hw.manager, hconsistent⟩, hw.manager.grows, hextends⟩, hget⟩

end Encode

/-! ### Codes -/

/-- The value of a code under an assignment of truth values. -/
def Code.value (m : Manager) (ρ : Nat → Bool) : Code → Sized
  | .bool x => .bool (m.value ρ x)
  | .int xs => .int (Int64.ofInt (m.numberOf ρ xs)) xs.length

/-- The functions of a code are in the manager. -/
def Code.Within (m : Manager) : Code → Prop
  | .bool x => m.Contains x
  | .int xs => m.ContainsAll xs

/-- The code has the value of the formula, and all symbols of the formula have variables. -/
structure Represents (w : Workspace) (e : Formula) (c : Code) : Prop where
  within : c.Within w.manager
  allotted : ∀ s, .sym s ∈ e.subformulas → w.symbols.Has s
  value : ∀ ρ, e.Evaluates (w.reading ρ) true (c.value w.manager ρ)

namespace Represents

theorem timed (h : Represents w e c) : e.Timed :=
  (h.value fun _ => false).timed

theorem grows (h : Represents w e c) (hw : w.Valid) (hg : w.Grows w') : Represents w' e c where
  within := by
    cases c with
    | bool x => exact hg.manager.contains h.within
    | int xs => exact hg.manager.containsAll h.within
  allotted s hs := hg.symbols.has (h.allotted s hs)
  value ρ := by
    have hvalue : c.value w'.manager ρ = c.value w.manager ρ := by
      cases c with
      | bool x => exact congrArg _ (hg.manager.value hw.manager h.within)
      | int xs => simp only [Code.value, hg.manager.numberOf hw.manager h.within]
    have hagree : Assignment.Agree (w'.symbols.assignment ρ) (w.symbols.assignment ρ) e :=
      fun s hs => hg.symbols.assignment (h.allotted s hs)
    rw [hvalue]
    exact (Assignment.evaluates_congr h.timed hagree).mpr (h.value ρ)

theorem evaluateBool (h : Represents w e (.bool x)) (ρ : Nat → Bool) :
    e.evaluateBool (w.reading ρ) true = .ok (w.manager.value ρ x) :=
  evaluateBool_eq_ok.mpr (h.value ρ)

theorem evaluateInt (h : Represents w e (.int xs)) (ρ : Nat → Bool) :
    e.evaluateInt (w.reading ρ) true = .ok (Int64.ofInt (w.manager.numberOf ρ xs), xs.length) :=
  evaluateInt_eq_ok.mpr (h.value ρ)

/-- The code of an operator, from those of its operands. -/
theorem operator (hop : e.isOperator) (hwithin : c.Within w.manager) (hes : ∀ d ∈ e.children, ∃ k, Represents w d k)
    (hvalue : ∀ ρ, e.Evaluates (w.reading ρ) true (c.value w.manager ρ)) : Represents w e c where
  within := hwithin
  allotted s hs := by
    obtain ⟨d, hd, hs⟩ := mem_children_of_isOperator hop hs rfl
    obtain ⟨k, hk⟩ := hes d hd
    exact hk.allotted s hs
  value := hvalue

theorem denotes (h : Represents w e (.bool x)) : w.manager.Denotes x fun ρ => w.manager.value ρ x :=
  Manager.Contains.denotes h.within

/-- A word has as many bits as the formula is wide. -/
theorem length (h : Represents w e (.int xs)) : xs ≠ [] ∧ 1 ≤ xs.length ∧ xs.length ≤ 64 := by
  obtain ⟨k, -, hk⟩ := (h.value fun _ => false).hasKind
  cases hk with
  | int h₁ h₂ _ => exact ⟨List.ne_nil_of_length_pos h₁, h₁, h₂⟩

end Represents

/-- The code of an operator that was built from codes of its operands. -/
theorem Represents.built (hw : w.Valid) (hg : w.Grows w') (hsymbols : w'.symbols = w.symbols) (hop : e.isOperator)
    (hwithin : c.Within w'.manager) (hes : ∀ d ∈ e.children, ∃ k, Represents w d k)
    (hvalue : ∀ ρ, e.Evaluates (w.reading ρ) true (c.value w'.manager ρ)) : Represents w' e c := by
  refine .operator hop hwithin (fun d hd => (hes d hd).imp fun k hk => hk.grows hw hg) fun ρ => ?_
  rw [Workspace.reading, hsymbols]
  exact hvalue ρ

/-! ### Words and numbers -/

theorem toInt_ofInt {n : Int} (h : InRange n 64) : (Int64.ofInt n).toInt = n := by
  rw [Int64.toInt_ofInt]
  exact h.bmod_eq_self (by decide)

/-- A word with the right residue is what cutting an integer to the width leaves. -/
theorem ofInt_eq_truncate {n t : Int} {v : Int64} {k : Nat} (hk : 1 ≤ k ∧ k ≤ 64) (hn : InRange n k)
    (hv : v.toInt = t.bmod (2 ^ 64)) (hdvd : (2 : Int) ^ k ∣ n - t) : Int64.ofInt n = Word.truncate v k := by
  have hresidue : n ≡ v.toInt [ZMOD 2 ^ k] :=
    (Int.modEq_iff_dvd.mpr hdvd).symm.trans (Word.toInt_modEq hk.2 hv).symm
  refine Int64.toInt_inj.mp ?_
  rw [toInt_ofInt (hn.mono hk.2), (Word.toInt_truncate_eq_iff hk.1 hk.2).mpr ⟨hn, hresidue⟩]

/-- The number of a word, as an integer of the formula it represents. -/
theorem Represents.toInt (h : Represents w e (.int xs)) (ρ : Nat → Bool) :
    (Int64.ofInt (w.manager.numberOf ρ xs)).toInt = w.manager.numberOf ρ xs :=
  toInt_ofInt ((Manager.inRange_numberOf h.length.1).mono h.length.2.2)

theorem Code.value_int {m : Manager} {t : Int} {v : Int64} {k : Nat} (hlen : xs.length = k) (hk : 1 ≤ k ∧ k ≤ 64)
    (hv : v.toInt = t.bmod (2 ^ 64)) (hdvd : (2 : Int) ^ k ∣ m.numberOf ρ xs - t) :
    Code.value m ρ (.int xs) = .int (Word.truncate v k) k := by
  have hrange := Manager.inRange_numberOf (m := m) (ρ := ρ) (List.ne_nil_of_length_pos (hlen ▸ hk.1))
  rw [hlen] at hrange
  rw [Code.value, hlen, ofInt_eq_truncate hk hrange hv hdvd]

/-- Operands brought to one width. -/
structure Aligned (m : Manager) (xs ys xs' ys' : Signals) : Prop where
  contains : m.ContainsAll xs' ∧ m.ContainsAll ys'
  length : xs'.length = max xs.length ys.length ∧ ys'.length = max xs.length ys.length
  ne_nil : xs' ≠ [] ∧ ys' ≠ []
  bounds : 1 ≤ max xs.length ys.length ∧ max xs.length ys.length ≤ 64
  number : ∀ ρ, m.numberOf ρ xs' = m.numberOf ρ xs ∧ m.numberOf ρ ys' = m.numberOf ρ ys

theorem Represents.aligned (hx : Represents w e (.int xs)) (hy : Represents w f (.int ys)) :
    Aligned w.manager xs ys (xs.align ys).1 (xs.align ys).2 := by
  have hxl := Signals.length_extend hx.length.1 (Nat.le_max_left xs.length ys.length)
  have hyl := Signals.length_extend hy.length.1 (Nat.le_max_right xs.length ys.length)
  have hbounds : 1 ≤ max xs.length ys.length ∧ max xs.length ys.length ≤ 64 :=
    ⟨hx.length.2.1.trans (Nat.le_max_left _ _), Nat.max_le.mpr ⟨hx.length.2.2, hy.length.2.2⟩⟩
  refine ⟨⟨Signals.containsAll_extend hx.within, Signals.containsAll_extend hy.within⟩, ⟨hxl, hyl⟩, ⟨?_, ?_⟩, hbounds,
    fun ρ => ⟨Signals.numberOf_extend, Signals.numberOf_extend⟩⟩
  · exact List.ne_nil_of_length_pos (hxl ▸ hbounds.1)
  · exact List.ne_nil_of_length_pos (hyl ▸ hbounds.1)

/-! ### Operands -/

/-- The formula is refused: it has no value under any assignment, for the reason given. What was encoded of it
stays. -/
structure Refused (w : Workspace) (e : Formula) (cause : Halt FormulaError) (w' : Workspace) : Prop where
  grows : w.Grows w'
  reason : ∀ ρ, e.evaluate (w'.reading ρ) true = .error cause

namespace Code

open Encode

variable {β : Type} {R : β → Workspace → Prop} {E : Halt FormulaError → Workspace → Prop}

/-- In any workspace the formula is encoded, unless it has no value. -/
def Encodes (e : Formula) : Prop :=
  ∀ ⦃w : Workspace⦄, w.Valid → Meets (ofFormula e) w (fun c w' => w.Grows w' ∧ Represents w' e c) (Refused w e)

/-- An operand, and what is made of its code. -/
theorem meets_operand {g : Code → Encode β} (h : Encodes e) (hw : w.Valid)
    (hE : ∀ h w', w.Grows w' → (∀ ρ, e.evaluate (w'.reading ρ) true = .error h) → E h w')
    (hg : ∀ c w', w.Grows w' → Represents w' e c → Meets (g c) w' R E) :
    Meets (ofFormula e >>= g) w R E :=
  ((h hw).mono (fun _ _ => id) fun _ _ hr => hE _ _ hr.grows hr.reason).bind fun c w' hc => hg c w' hc.1 hc.2

theorem meets_bool_operand {g : Edge → Encode β} (h : Encodes e) (hw : w.Valid)
    (hE : ∀ h w', w.Grows w' → (∀ ρ, e.evaluateBool (w'.reading ρ) true = .error h) → E h w')
    (hg : ∀ x w', w.Grows w' → Represents w' e (.bool x) → Meets (g x) w' R E) :
    Meets (ofFormula e >>= fun c => asBool e c >>= g) w R E := by
  refine meets_operand h hw (fun cause w' hgrows herr => hE cause w' hgrows fun ρ => ?_) ?_
  · rw [Formula.evaluateBool, herr]
    rfl
  · rintro (x | xs) w' hgrows hc
    · exact hg x w' hgrows hc
    · refine hE _ w' hgrows fun ρ => ?_
      rw [Formula.evaluateBool, hc.value ρ]
      rfl

theorem meets_int_operand {g : Signals → Encode β} (h : Encodes e) (hw : w.Valid)
    (hE : ∀ h w', w.Grows w' → (∀ ρ, e.evaluateInt (w'.reading ρ) true = .error h) → E h w')
    (hg : ∀ xs w', w.Grows w' → Represents w' e (.int xs) → Meets (g xs) w' R E) :
    Meets (ofFormula e >>= fun c => asInt e c >>= g) w R E := by
  refine meets_operand h hw (fun cause w' hgrows herr => hE cause w' hgrows fun ρ => ?_) ?_
  · rw [Formula.evaluateInt, herr]
    rfl
  · rintro (x | xs) w' hgrows hc
    · refine hE _ w' hgrows fun ρ => ?_
      rw [Formula.evaluateInt, hc.value ρ]
      rfl
    · exact hg xs w' hgrows hc

/-- The functions of the operands of a conjunction or disjunction are joined one after the other. -/
private theorem meets_joined {op : Edge → Edge → Build Edge} {o : Bool → Bool → Bool} {g : Edge → List Formula → Encode Edge}
    (hnil : ∀ x, g x [] = pure x)
    (hcons : ∀ x e es, g x (e :: es) =
      (ofFormula e >>= fun c => asBool e c >>= fun y => build (op x y) >>= fun x => g x es))
    (hop : ∀ {m : Manager} {x y a b}, m.Valid → m.Denotes x a → m.Denotes y b →
      Meets (op x y) m (fun r m' => m.Grows m' ∧ m'.Denotes r fun ρ => o (a ρ) (b ρ)) fun _ _ => False)
    (ih : ∀ e ∈ es, Encodes e) (hw : w.Valid) {a : (Nat → Bool) → Bool} (hx : w.manager.Denotes x a) :
    Meets (g x es) w (fun r w' => w.Grows w' ∧ w'.manager.Contains r ∧ (∀ e ∈ es, ∃ k, Represents w' e k) ∧
      ∀ ρ, ∃ ts, List.Forall₂ (fun e t => e.Evaluates (w'.reading ρ) true (.bool t)) es ts ∧
        w'.manager.value ρ r = ts.foldl o (a ρ))
      fun h w' => w.Grows w' ∧ ∀ ρ, evaluateBools (w'.reading ρ) true es = .error h := by
  induction es generalizing w x a with
  | nil =>
      rw [hnil]
      exact ⟨hw.grows, hx.contains, by simp, fun ρ => ⟨[], .nil, hx.value ρ⟩⟩
  | cons e es ihes =>
      rw [hcons]
      obtain ⟨ihe, ih⟩ := List.forall_mem_cons.mp ih
      refine meets_bool_operand ihe hw (fun h w' hg herr => ⟨hg, fun ρ => ?_⟩) fun y w₁ hg₁ hy => ?_
      · rw [evaluateBools_cons, herr]
        rfl
      refine (meets_build_grows hg₁.valid
        (hop hg₁.valid.manager (hg₁.manager.denotes hw.manager hx) hy.denotes)).bind ?_
      rintro r w₂ ⟨hg₂, hsymbols, hr⟩
      refine (ihes ih hg₂.valid hr).mono (fun r' w₃ hr' => ?_) fun h w₃ herr => ?_
      · obtain ⟨hg₃, hr', hes, hvalue⟩ := hr'
        have hy₃ := hy.grows hg₁.valid (hg₂.trans hg₃)
        refine ⟨(hg₁.trans hg₂).trans hg₃, hr', List.forall_mem_cons.mpr ⟨⟨_, hy₃⟩, hes⟩, fun ρ => ?_⟩
        obtain ⟨ts, hts, hfold⟩ := hvalue ρ
        refine ⟨_ :: ts, .cons (hy₃.value ρ) hts, ?_⟩
        rw [hfold, List.foldl_cons, (hg₂.trans hg₃).manager.value hg₁.valid.manager hy.within]
      · obtain ⟨hg₃, herr⟩ := herr
        refine ⟨(hg₁.trans hg₂).trans hg₃, fun ρ => ?_⟩
        rw [evaluateBools_cons, (hy.grows hg₁.valid (hg₂.trans hg₃)).evaluateBool, ok_bind, herr]
        rfl

/-! ### Formulas -/

private theorem meets_mapM_mkVar {vs : List Nat} (hw : w.Valid) (hvs : ∀ v ∈ vs, 0 < v) :
    Meets (vs.mapM fun v => build (Build.mkVar v)) w
      (fun xs w' => w.Grows w' ∧ w'.symbols = w.symbols ∧ w'.manager.ContainsAll xs ∧
        ∀ ρ, xs.map (w'.manager.value ρ) = vs.map ρ) E := by
  induction vs generalizing w with
  | nil => exact ⟨hw.grows, rfl, Manager.containsAll_nil, fun _ => rfl⟩
  | cons v vs ih =>
      obtain ⟨hv, hvs⟩ := List.forall_mem_cons.mp hvs
      rw [List.mapM_cons]
      refine (meets_build_grows hw (Build.meets_mkVar hw.manager hv)).bind ?_
      rintro x w₁ ⟨hg₁, hsymbols₁, hx⟩
      refine (ih hg₁.valid hvs).bind ?_
      rintro xs w₂ ⟨hg₂, hsymbols₂, hxs, hvalue⟩
      refine ⟨hg₁.trans hg₂, hsymbols₂.trans hsymbols₁,
        Manager.containsAll_cons.mpr ⟨hg₂.manager.contains hx.contains, hxs⟩, fun ρ => ?_⟩
      rw [List.map_cons, List.map_cons, hvalue, hg₂.manager.value hg₁.valid.manager hx.contains, hx.value]

theorem meets_ofSymbol {s : Symbol} (hw : w.Valid) :
    Meets (ofSymbol s) w (fun c w' => w.Grows w' ∧ Represents w' (.sym s) c) E := by
  rw [ofSymbol]
  refine (meets_allot hw).bind ?_
  rintro vs w₁ ⟨hg₁, hget⟩
  have hpos : ∀ v ∈ vs, 0 < v := by
    intro v hv
    obtain ⟨i, hi⟩ := List.mem_iff_getElem?.mp hv
    exact (Allocation.owner?_eq_some (hg₁.valid.symbols.owned s vs i v hget hi)).1
  refine (meets_mapM_mkVar hg₁.valid hpos).bind ?_
  rintro xs w₂ ⟨hg₂, hsymbols, hxs, hvalue⟩
  have hget₂ := hg₂.symbols s vs hget
  have hallotted : ∀ t, .sym t ∈ (Formula.sym s).subformulas → w₂.symbols.Has t := by
    intro t ht
    cases List.mem_singleton.mp ht
    exact ⟨vs, hget₂⟩
  have hlen : xs.length = vs.length := by simpa using congrArg List.length (hvalue fun _ => false)
  cases hd : s.domain with
  | bool =>
      obtain ⟨v, rfl, -⟩ := hg₂.valid.symbols.assignment_bool hget₂ hd (ρ := fun _ => false)
      obtain ⟨x, rfl⟩ := List.length_eq_one_iff.mp hlen
      refine ⟨hg₁.trans hg₂, hxs x List.mem_cons_self, hallotted, fun ρ => evaluates_sym.mpr ?_⟩
      obtain ⟨v', heq, hval⟩ := hg₂.valid.symbols.assignment_bool hget₂ hd (ρ := ρ)
      cases heq
      have hx : w₂.manager.value ρ x = ρ v := by simpa using hvalue ρ
      change Except.ok (Sized.ofValue (w₂.symbols.assignment ρ s.base s.generation).1 s.domain) = _
      rw [hval, Code.value, hx]
      rfl
  | int k =>
      refine ⟨hg₁.trans hg₂, hxs, hallotted, fun ρ => evaluates_sym.mpr ?_⟩
      obtain ⟨hbits, n, hval, hn⟩ := hg₂.valid.symbols.assignment_int hget₂ hd (ρ := ρ)
      change Except.ok (Sized.ofValue (w₂.symbols.assignment ρ s.base s.generation).1 s.domain) = _
      rw [hval, hd, Code.value, Manager.numberOf, hvalue, ← hn, hlen, hbits, Int64.ofInt_toInt]
      rfl

attribute [local simp] ofFormula conjoin disjoin Formula.children

private theorem foldl_and (ts : List Bool) (b : Bool) : ts.foldl (· && ·) b = (b && ts.all id) := by
  induction ts generalizing b with
  | nil => simp
  | cons t ts ih => simp [ih, Bool.and_assoc]

private theorem foldl_or (ts : List Bool) (b : Bool) : ts.foldl (· || ·) b = (b || ts.any id) := by
  induction ts generalizing b with
  | nil => simp
  | cons t ts ih => simp [ih, Bool.or_assoc]

/-- The complement and a carry make the negative of a number. -/
private theorem add_complement (x y : Int) : x + (-1 - y) + 1 = x - y := by
  ring

/-- Two integer operands are brought to one width, and a circuit is made of them. -/
private theorem meets_aligned {a b op : Formula} {g : Signals → Signals → Encode Code}
    {k : Int64 × Nat → Int64 × Nat → Evaluated Sized} (hop : op.isOperator) (hchildren : op.children = [a, b])
    (hevaluate : ∀ r, op.evaluate r true = (do k (← a.evaluateInt r true) (← b.evaluateInt r true)))
    (ha : Encodes a) (hb : Encodes b) (hw : w.Valid)
    (hg : ∀ {E} xs ys xs' ys' w, w.Valid → Represents w a (.int xs) → Represents w b (.int ys) →
      Aligned w.manager xs ys xs' ys' →
      Meets (g xs' ys') w (fun c w' => w.Grows w' ∧ w'.symbols = w.symbols ∧ c.Within w'.manager ∧
        ∀ ρ, op.Evaluates (w.reading ρ) true (c.value w'.manager ρ)) E) :
    Meets (ofFormula a >>= fun c => asInt a c >>= fun xs => ofFormula b >>= fun c => asInt b c >>= fun ys =>
        g (xs.align ys).1 (xs.align ys).2) w
      (fun c w' => w.Grows w' ∧ Represents w' op c) (Refused w op) := by
  refine meets_int_operand ha hw (fun h w' hg herr => ⟨hg, fun ρ => ?_⟩) fun xs w₁ hg₁ hx => ?_
  · rw [hevaluate, herr]
    rfl
  refine meets_int_operand hb hg₁.valid (fun h w' hg herr => ⟨hg₁.trans hg, fun ρ => ?_⟩) fun ys w₂ hg₂ hy => ?_
  · rw [hevaluate, (hx.grows hg₁.valid hg).evaluateInt, ok_bind, herr]
    rfl
  have hx₂ := hx.grows hg₁.valid hg₂
  refine (hg xs ys _ _ w₂ hg₂.valid hx₂ hy (hx₂.aligned hy)).imp ?_
  rintro c w₃ ⟨hg₃, hsymbols, hwithin, hvalue⟩
  refine ⟨(hg₁.trans hg₂).trans hg₃, .built hg₂.valid hg₃ hsymbols hop hwithin ?_ hvalue⟩
  rw [hchildren]
  simpa using ⟨⟨_, hx₂⟩, _, hy⟩

/-! ### One case for each constructor -/

section Cases

variable {a b : Formula}

private theorem encodes_bool {b : Bool} : Encodes (.bool b) := by
  intro w hw
  rw [ofFormula]
  cases b with
  | true =>
      refine ⟨hw.grows, hw.manager.tabled.contains_one, by simp [subformulas], fun ρ => evaluates_bool.mpr ?_⟩
      exact congrArg _ hw.manager.tabled.value_one
  | false =>
      refine ⟨hw.grows, hw.manager.tabled.contains_zero, by simp [subformulas], fun ρ => evaluates_bool.mpr ?_⟩
      exact congrArg _ hw.manager.tabled.value_zero

private theorem encodes_int {v : Int64} : Encodes (.int v) := by
  intro w hw
  rw [ofFormula]
  obtain ⟨xs, hrun, hxs, hlen, hnumber⟩ := Signals.exists_ofWord hw.manager (Word.one_le_width v) (Word.width_le v)
    (Word.inRange_width v)
  rw [hrun]
  refine ⟨hw.grows, hxs, by simp [subformulas], fun ρ => evaluates_int.mpr ?_⟩
  rw [Code.value, hnumber, hlen, Int64.ofInt_toInt]

private theorem encodes_sym {s : Symbol} : Encodes (.sym s) := by
  intro w hw
  rw [ofFormula]
  exact meets_ofSymbol hw

private theorem encodes_not (h : Encodes e) : Encodes (.not e) := by
  intro w hw
  rw [ofFormula]
  refine meets_bool_operand h hw (fun h w' hg herr => ⟨hg, fun ρ => ?_⟩) fun x w₁ hg₁ hx => ?_
  · rw [evaluate_not, herr]
    rfl
  · refine ⟨hg₁, .operator rfl (Manager.contains_not.mpr hx.within) ?_ fun ρ => ?_⟩
    · simpa using ⟨_, hx⟩
    · exact evaluates_not.mpr ⟨_, hx.value ρ, congrArg _ (Manager.value_not hx.within)⟩

private theorem encodes_and (h : ∀ e ∈ es, Encodes e) : Encodes (.and es) := by
  intro w hw
  rw [ofFormula]
  refine Meets.bind ((meets_joined (g := conjoin) (fun x => by rw [conjoin]) (fun x e es => by rw [conjoin]) Build.meets_and
    h hw hw.manager.denotes_one).mono (fun _ _ => id) fun h w' herr => ⟨herr.1, fun ρ => ?_⟩) ?_
  · rw [evaluate, herr.2]
    rfl
  rintro r w' ⟨hg, hr, hes', hvalue⟩
  refine ⟨hg, .operator rfl hr hes' fun ρ => ?_⟩
  obtain ⟨ts, hts, hfold⟩ := hvalue ρ
  exact evaluates_and.mpr ⟨ts, hts, congrArg _ (hfold.trans (foldl_and ts true))⟩

private theorem encodes_or (h : ∀ e ∈ es, Encodes e) : Encodes (.or es) := by
  intro w hw
  rw [ofFormula]
  refine Meets.bind ((meets_joined (g := disjoin) (fun x => by rw [disjoin]) (fun x e es => by rw [disjoin]) Build.meets_or
    h hw hw.manager.denotes_zero).mono (fun _ _ => id) fun h w' herr => ⟨herr.1, fun ρ => ?_⟩) ?_
  · rw [evaluate, herr.2]
    rfl
  rintro r w' ⟨hg, hr, hes', hvalue⟩
  refine ⟨hg, .operator rfl hr hes' fun ρ => ?_⟩
  obtain ⟨ts, hts, hfold⟩ := hvalue ρ
  exact evaluates_or.mpr ⟨ts, hts, congrArg _ (hfold.trans (foldl_or ts false))⟩

private theorem encodes_imply (ha : Encodes a) (hb : Encodes b) : Encodes (.imply a b) := by
  intro w hw
  rw [ofFormula]
  refine meets_bool_operand ha hw (fun h w' hg herr => ⟨hg, fun ρ => ?_⟩) fun x w₁ hg₁ hx => ?_
  · rw [evaluate_imply, herr]
    rfl
  refine meets_bool_operand hb hg₁.valid (fun h w' hg herr => ⟨hg₁.trans hg, fun ρ => ?_⟩) fun y w₂ hg₂ hy => ?_
  · rw [evaluate_imply, (hx.grows hg₁.valid hg).evaluateBool, ok_bind, herr]
    rfl
  have hx₂ := hx.grows hg₁.valid hg₂
  refine (meets_build_grows hg₂.valid (Build.meets_imply hg₂.valid.manager hx₂.denotes hy.denotes)).bind ?_
  rintro r w₃ ⟨hg₃, hsymbols, hr⟩
  refine ⟨(hg₁.trans hg₂).trans hg₃, .built hg₂.valid hg₃ hsymbols rfl hr.contains ?_ fun ρ => ?_⟩
  · simpa using ⟨⟨_, hx₂⟩, _, hy⟩
  · exact evaluates_imply.mpr ⟨_, _, hx₂.value ρ, hy.value ρ, congrArg _ (hr.value ρ)⟩

private theorem encodes_ite {test : Formula} (htest : Encodes test) (hthen : Encodes a) (helse : Encodes b) :
    Encodes (.ite test a b) := by
  intro w hw
  rw [ofFormula]
  refine meets_bool_operand htest hw (fun h w' hg herr => ⟨hg, fun ρ => ?_⟩) fun t w₁ hg₁ hc => ?_
  · rw [evaluate_ite, herr]
    rfl
  refine meets_operand hthen hg₁.valid (fun h w' hg herr => ⟨hg₁.trans hg, fun ρ => ?_⟩) fun ca w₂ hg₂ ha => ?_
  · rw [evaluate_ite, (hc.grows hg₁.valid hg).evaluateBool, ok_bind, herr]
    rfl
  refine meets_operand helse hg₂.valid (fun h w' hg herr => ⟨(hg₁.trans hg₂).trans hg, fun ρ => ?_⟩)
    fun cb w₃ hg₃ hb => ?_
  · rw [evaluate_ite, (hc.grows hg₁.valid (hg₂.trans hg)).evaluateBool, ok_bind, (ha.grows hg₂.valid hg).value,
      ok_bind, herr]
    rfl
  have hc₃ := hc.grows hg₁.valid (hg₂.trans hg₃)
  have ha₃ := ha.grows hg₂.valid hg₃
  have hg := (hg₁.trans hg₂).trans hg₃
  match ca, cb, ha₃, hb with
  | .bool x, .bool y, hx, hy =>
      refine (meets_build_grows hg₃.valid
        (Build.meets_ite hg₃.valid.manager hc₃.denotes hx.denotes hy.denotes)).bind ?_
      rintro r w₄ ⟨hg₄, hsymbols, hr⟩
      refine ⟨hg.trans hg₄, .built hg₃.valid hg₄ hsymbols rfl hr.contains ?_ fun ρ => ?_⟩
      · simpa using ⟨⟨_, hc₃⟩, ⟨_, hx⟩, _, hy⟩
      · exact evaluates_ite.mpr (.inl ⟨_, _, _, hc₃.value ρ, hx.value ρ, hy.value ρ, congrArg _ (hr.value ρ)⟩)
  | .int xs, .int ys, hx, hy =>
      have hal := hx.aligned hy
      refine (meets_build_grows hg₃.valid (Signals.meets_choose hg₃.valid.manager hc₃.denotes hal.contains.1
        hal.contains.2 (hal.length.1.trans hal.length.2.symm))).bind ?_
      rintro rs w₄ ⟨hg₄, hsymbols, hrs, hlen, hnumber⟩
      refine ⟨hg.trans hg₄, .built hg₃.valid hg₄ hsymbols rfl hrs ?_ fun ρ => ?_⟩
      · simpa using ⟨⟨_, hc₃⟩, ⟨_, hx⟩, _, hy⟩
      · refine evaluates_ite.mpr (.inr ⟨_, _, _, _, _, hc₃.value ρ, hx.value ρ, hy.value ρ, ?_⟩)
        rw [Code.value, hlen, hal.length.1, hnumber, (hal.number ρ).1, (hal.number ρ).2]
        split <;> rfl
  | .bool x, .int ys, hx, hy | .int xs, .bool y, hx, hy =>
      refine ⟨hg, fun ρ => ?_⟩
      rw [evaluate_ite, hc₃.evaluateBool, ok_bind, hx.value, ok_bind, hy.value]
      rfl

private theorem encodes_add (ha : Encodes a) (hb : Encodes b) : Encodes (.add a b) := by
  intro w hw
  rw [ofFormula]
  refine meets_aligned (g := fun xs ys => build (Signals.sum .zero xs ys) >>= fun rs => pure (.int rs)) rfl rfl
    (fun r => evaluate_add) ha hb hw fun {E} xs ys xs' ys' w₂ hw₂ hx hy hal => ?_
  refine (meets_build_grows hw₂ (Signals.meets_sum hw₂.manager hw₂.manager.tabled.contains_zero
    hal.contains.1 hal.contains.2 (hal.length.1.trans hal.length.2.symm) hal.ne_nil.1)).bind ?_
  rintro rs w₃ ⟨hg₃, hsymbols, hrs, hlen, hsum⟩
  refine ⟨hg₃, hsymbols, hrs, fun ρ => evaluates_add.mpr ⟨_, _, _, _, hx.value ρ, hy.value ρ, hal.bounds, ?_⟩⟩
  have hsum := hsum ρ
  rw [hal.length.1, (hal.number ρ).1, (hal.number ρ).2, hw₂.manager.tabled.value_zero] at hsum
  refine Code.value_int (hlen.trans hal.length.1) hal.bounds ?_ (by simpa using hsum)
  rw [Int64.toInt_add, hx.toInt, hy.toInt]

private theorem encodes_sub (ha : Encodes a) (hb : Encodes b) : Encodes (.sub a b) := by
  intro w hw
  rw [ofFormula]
  refine meets_aligned (g := fun xs ys => build (Signals.sum .one xs ys.complement) >>= fun rs => pure (.int rs)) rfl
    rfl (fun r => evaluate_sub) ha hb hw fun {E} xs ys xs' ys' w₂ hw₂ hx hy hal => ?_
  refine (meets_build_grows hw₂ (Signals.meets_sum hw₂.manager hw₂.manager.tabled.contains_one hal.contains.1
    (Signals.containsAll_complement hal.contains.2) ?_ hal.ne_nil.1)).bind ?_
  · rw [Signals.complement, List.length_map, hal.length.1, hal.length.2]
  rintro rs w₃ ⟨hg₃, hsymbols, hrs, hlen, hsum⟩
  refine ⟨hg₃, hsymbols, hrs, fun ρ => evaluates_sub.mpr ⟨_, _, _, _, hx.value ρ, hy.value ρ, hal.bounds, ?_⟩⟩
  have hsum := hsum ρ
  rw [hal.length.1, Signals.numberOf_complement hal.contains.2 hal.ne_nil.2, (hal.number ρ).1, (hal.number ρ).2,
    hw₂.manager.tabled.value_one, Bool.toNat_true, Nat.cast_one, add_complement] at hsum
  refine Code.value_int (hlen.trans hal.length.1) hal.bounds ?_ hsum
  rw [Int64.toInt_sub, hx.toInt, hy.toInt]

private theorem encodes_neg (h : Encodes e) : Encodes (.neg e) := by
  intro w hw
  rw [ofFormula]
  refine meets_int_operand h hw (fun h w' hg herr => ⟨hg, fun ρ => ?_⟩) fun xs w₁ hg₁ hx => ?_
  · rw [evaluate_neg, herr]
    rfl
  obtain ⟨hne, hpos, hle⟩ := hx.length
  have hm₁ := hg₁.valid.manager
  refine (meets_build_grows hg₁.valid (Signals.meets_sum hm₁ hm₁.tabled.contains_one ?_
    (Signals.containsAll_complement hx.within) ?_ ?_)).bind ?_
  · intro x hx
    rw [List.eq_of_mem_replicate hx]
    exact hm₁.tabled.contains_zero
  · simp [Signals.complement]
  · simpa using hne
  rintro rs w₂ ⟨hg₂, hsymbols, hrs, hlen, hsum⟩
  refine ⟨hg₁.trans hg₂, .built hg₁.valid hg₂ hsymbols rfl hrs (by simpa using ⟨_, hx⟩) fun ρ => ?_⟩
  refine evaluates_neg.mpr ⟨_, _, hx.value ρ, ⟨hpos, hle⟩, ?_⟩
  have hsum := hsum ρ
  rw [List.length_replicate] at hlen hsum
  rw [Signals.numberOf_zeros hm₁, Signals.numberOf_complement hx.within hne, hm₁.tabled.value_one, Bool.toNat_true,
    Nat.cast_one, add_complement, zero_sub] at hsum
  refine Code.value_int hlen ⟨hpos, hle⟩ ?_ hsum
  rw [Int64.toInt_neg, hx.toInt]

private theorem encodes_lt (ha : Encodes a) (hb : Encodes b) : Encodes (.lt a b) := by
  intro w hw
  rw [ofFormula]
  refine meets_aligned (g := fun xs ys => build (Signals.less xs ys) >>= fun r => pure (.bool r)) rfl
    rfl (fun r => evaluate_lt) ha hb hw fun {E} xs ys xs' ys' w₂ hw₂ hx hy hal => ?_
  refine (meets_build_grows hw₂ (Signals.meets_less hw₂.manager hal.contains.1 hal.contains.2
    (hal.length.1.trans hal.length.2.symm) hal.ne_nil.1)).bind ?_
  rintro r w₃ ⟨hg₃, hsymbols, hr⟩
  refine ⟨hg₃, hsymbols, hr.contains, fun ρ => evaluates_lt.mpr ⟨_, _, _, _, hx.value ρ, hy.value ρ, ?_⟩⟩
  rw [Code.value, hr.value, (hal.number ρ).1, (hal.number ρ).2]
  simp only [Int64.lt_iff_toInt_lt, hx.toInt, hy.toInt]

private theorem encodes_le (ha : Encodes a) (hb : Encodes b) : Encodes (.le a b) := by
  intro w hw
  rw [ofFormula]
  refine meets_aligned (g := fun xs ys => build (Signals.less ys xs) >>= fun r => pure (.bool r.not)) rfl
    rfl (fun r => evaluate_le) ha hb hw fun {E} xs ys xs' ys' w₂ hw₂ hx hy hal => ?_
  refine (meets_build_grows hw₂ (Signals.meets_less hw₂.manager hal.contains.2 hal.contains.1
    (hal.length.2.trans hal.length.1.symm) hal.ne_nil.2)).bind ?_
  rintro r w₃ ⟨hg₃, hsymbols, hr⟩
  refine ⟨hg₃, hsymbols, hr.not.contains, fun ρ => evaluates_le.mpr ⟨_, _, _, _, hx.value ρ, hy.value ρ, ?_⟩⟩
  rw [Code.value, hr.not.value, (hal.number ρ).1, (hal.number ρ).2]
  simp only [Int64.le_iff_toInt_le, hx.toInt, hy.toInt, ← decide_not, not_lt]

private theorem encodes_bit {i : Nat} (h : Encodes e) : Encodes (.bit e i) := by
  intro w hw
  rw [ofFormula]
  refine meets_int_operand h hw (fun h w' hg herr => ⟨hg, fun ρ => ?_⟩) fun xs w₁ hg₁ hx => ?_
  · rw [evaluate_bit, herr]
    rfl
  cases hi : xs[i]? with
  | none =>
      refine ⟨hg₁, fun ρ => ?_⟩
      rw [evaluate_bit, hx.evaluateInt, ok_bind, bitOf, if_neg (by simpa using hi)]
      rfl
  | some x =>
      have hlt := (List.getElem?_eq_some_iff.mp hi).1
      refine ⟨hg₁, .operator rfl (hx.within x (List.mem_of_getElem? hi)) (by simpa using ⟨_, hx⟩) fun ρ => ?_⟩
      have hbit := getElem?_bitsOf (v := w₁.manager.numberOf ρ xs) hlt
      rw [Manager.numberOf, ← List.length_map (f := w₁.manager.value ρ), bitsOf_signed (by simpa using hx.length.1),
        List.getElem?_map, hi] at hbit
      refine evaluates_bit.mpr ⟨_, _, hx.value ρ, hlt, _, Word.bit_eq_ok (by have := hx.length.2.2; omega), ?_⟩
      rw [hx.toInt]
      exact congrArg _ (Option.some.inj hbit)

private theorem encodes_eq (hleft : Encodes a) (hright : Encodes b) : Encodes (.eq a b) := by
  intro w hw
  rw [ofFormula]
  refine meets_operand hleft hw (fun h w' hg herr => ⟨hg, fun ρ => ?_⟩) fun ca w₁ hg₁ ha => ?_
  · rw [evaluate_eq, herr]
    rfl
  refine meets_operand hright hg₁.valid (fun h w' hg herr => ⟨hg₁.trans hg, fun ρ => ?_⟩) fun cb w₂ hg₂ hb => ?_
  · rw [evaluate_eq, (ha.grows hg₁.valid hg).value, ok_bind, herr]
    rfl
  have ha₂ := ha.grows hg₁.valid hg₂
  match ca, cb, ha₂, hb with
  | .bool x, .bool y, hx, hy =>
      refine (meets_build_grows hg₂.valid (Build.meets_eq hg₂.valid.manager hx.denotes hy.denotes)).bind ?_
      rintro r w₃ ⟨hg₃, hsymbols, hr⟩
      refine ⟨(hg₁.trans hg₂).trans hg₃, .built hg₂.valid hg₃ hsymbols rfl hr.contains ?_ fun ρ => ?_⟩
      · simpa using ⟨⟨_, hx⟩, _, hy⟩
      · exact evaluates_eq.mpr (.inl ⟨_, _, hx.value ρ, hy.value ρ, congrArg _ (hr.value ρ)⟩)
  | .int xs, .int ys, hx, hy =>
      have hal := hx.aligned hy
      refine (meets_build_grows hg₂.valid (Signals.meets_same hg₂.valid.manager hal.contains.1 hal.contains.2
        (hal.length.1.trans hal.length.2.symm))).bind ?_
      rintro r w₃ ⟨hg₃, hsymbols, hr⟩
      refine ⟨(hg₁.trans hg₂).trans hg₃, .built hg₂.valid hg₃ hsymbols rfl hr.contains ?_ fun ρ => ?_⟩
      · simpa using ⟨⟨_, hx⟩, _, hy⟩
      · refine evaluates_eq.mpr (.inr ⟨_, _, _, _, hx.value ρ, hy.value ρ, ?_⟩)
        rw [Code.value, hr.value, (hal.number ρ).1, (hal.number ρ).2]
        simp only [beq_eq_decide, ← Int64.toInt_inj, hx.toInt, hy.toInt]
  | .bool x, .int ys, hx, hy | .int xs, .bool y, hx, hy =>
      refine ⟨hg₁.trans hg₂, fun ρ => ?_⟩
      rw [evaluate_eq, hx.value, ok_bind, hy.value]
      rfl

end Cases

/-- A formula is encoded, unless it has no value. -/
theorem encodes (e : Formula) : Encodes e := by
  induction e with
  | bool b => exact encodes_bool
  | int v => exact encodes_int
  | var x => exact fun _ hw => ⟨hw.grows, fun _ => rfl⟩
  | sym s => exact encodes_sym
  | prime e ih => exact fun _ hw => ⟨hw.grows, fun _ => rfl⟩
  | not e ih => exact encodes_not ih
  | and es ih => exact encodes_and ih
  | or es ih => exact encodes_or ih
  | imply a b iha ihb => exact encodes_imply iha ihb
  | ite c a b ihc iha ihb => exact encodes_ite ihc iha ihb
  | add a b iha ihb => exact encodes_add iha ihb
  | sub a b iha ihb => exact encodes_sub iha ihb
  | neg e ih => exact encodes_neg ih
  | eq a b iha ihb => exact encodes_eq iha ihb
  | lt a b iha ihb => exact encodes_lt iha ihb
  | le a b iha ihb => exact encodes_le iha ihb
  | bit e i ih => exact encodes_bit ih

end Code

/-! ### Boolean formulas -/

/-- A formula is encoded, unless it has no truth value. -/
theorem meets_encode (hw : w.Valid) :
    Meets (encode e) w (fun x w' => w.Grows w' ∧ Represents w' e (.bool x))
      fun h w' => w.Grows w' ∧ ∀ ρ, e.evaluateBool (w'.reading ρ) true = .error h := by
  rw [encode, ← bind_pure (Code.ofFormula e >>= fun c => Code.asBool e c), bind_assoc]
  refine Code.meets_bool_operand (Code.encodes e) hw (fun h w' hg herr => ⟨hg, herr⟩) fun x w' hg hx => ?_
  exact ⟨hg, hx⟩

namespace Represents

/-- The function is true where the formula is. -/
theorem value_iff (h : Represents w e (.bool x)) :
    w.manager.value ρ x = true ↔ (w.symbols.assignment ρ).Satisfies e :=
  (Assignment.satisfies_iff_of_evaluates (h.value ρ)).symm

/-- The formula is true where the function is, for the truth values that an assignment to symbols leads to. -/
theorem satisfies_iff (h : Represents w e (.bool x)) (hw : w.Valid) {σ : Assignment} :
    σ.Satisfies e ↔ w.manager.value (w.symbols.truth σ) x = true := by
  rw [h.value_iff]
  exact Assignment.satisfies_congr h.timed fun s hs => (hw.symbols.assignment_truth (h.allotted s hs)).symm

/-- The function depends on bits of the symbols of the formula only. -/
theorem exists_owner {v : Nat} (h : Represents w e (.bool x)) (hw : w.Valid) (hv : w.manager.DependsOn x v) :
    ∃ s i, w.symbols.owner? v = some (s, i) ∧ .sym s ∈ e.subformulas := by
  by_contra hnone
  simp only [not_exists, not_and] at hnone
  obtain ⟨ρ, hρ⟩ := hv
  have hagree : ∀ b, Assignment.Agree (w.symbols.assignment (Function.update ρ v b)) (w.symbols.assignment ρ) e :=
    fun b s hs => hw.symbols.assignment_update (fun i hi => hnone s i hi hs) b
  refine hρ (Bool.eq_iff_iff.mpr ?_)
  rw [h.value_iff, h.value_iff, Assignment.satisfies_congr h.timed (hagree false),
    Assignment.satisfies_congr h.timed (hagree true)]

end Represents

end Invariance.Bits
