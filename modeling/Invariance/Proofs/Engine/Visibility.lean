import Invariance.Proofs.Engine.Chronology
import Invariance.Proofs.Engine.Traces
import Invariance.Proofs.Formula.Outcomes
import Invariance.Proofs.Formula.Valuations

/-!
What is seen of a state. To a formula and to a system these are the variables that occur in it, so that states which agree
on them are one state, and to an unrolling the states of two frames are the same if their variables are.
-/

namespace Invariance

variable {e : Formula} {s s' t t' : Valuation} {x : Variable}

/-- Both states bind these variables to the same values, or not at all. -/
def Valuation.AgreeOn (s t : Valuation) (xs : List Variable) : Prop :=
  ∀ x ∈ xs, s.get? x = t.get? x

theorem Valuation.AgreeOn.mono {xs ys : List Variable} (h : s.AgreeOn t xs) (hsub : ys ⊆ xs) : s.AgreeOn t ys :=
  fun x hx => h x (hsub hx)

theorem Reading.lookup_congr (h : s.get? x = t.get? x) : lookup s x = lookup t x := by
  rw [lookup, lookup, h]

namespace Formula

/-! ### States that agree -/

theorem sameOn_ofState (h : s.AgreeOn s' e.vars.elements) : SameOn (.ofState s) (.ofState s') e where
  var x hx p := by
    cases p with
    | true => rfl
    | false => exact Reading.lookup_congr (h x (mem_vars.mpr hx))
  sym _ _ := rfl

theorem sameOn_ofStep (h : s.AgreeOn s' e.vars.elements) (h' : t.AgreeOn t' e.vars.elements) :
    SameOn (.ofStep s t) (.ofStep s' t') e where
  var x hx p := by
    cases p with
    | true => exact Reading.lookup_congr (h' x (mem_vars.mpr hx))
    | false => exact Reading.lookup_congr (h x (mem_vars.mpr hx))
  sym _ _ := rfl

theorem eval_congr (h : s.AgreeOn s' e.vars.elements) : e.eval s = e.eval s' := by
  rw [eval, eval, (sameOn_ofState h).evaluate_eq]

theorem holds_congr (h : s.AgreeOn s' e.vars.elements) : e.holds s = e.holds s' := by
  rw [holds, holds, eval_congr h]

theorem evalStep_congr (h : s.AgreeOn s' e.vars.elements) (h' : t.AgreeOn t' e.vars.elements) :
    e.evalStep s t = e.evalStep s' t' := by
  rw [evalStep, evalStep, (sameOn_ofStep h h').evaluate_eq]

/-! ### States that bind all variables -/

/-- No variable is to blame. -/
def Available {α : Type} (u : Evaluated α) : Prop :=
  ∀ x, u ≠ .error (.error (.unbound x)) ∧ u ≠ .error (.error (.outOfRange x))

/-- Reasons that lie in no variable. -/
private def Unconcerned (y : FormulaError) : Prop :=
  ∀ x, y ≠ .unbound x ∧ y ≠ .outOfRange x

private theorem unconcerned_of_inherent {y : FormulaError} (h : y.Inherent) : Unconcerned y := by
  cases h <;> simp [Unconcerned]

private theorem Yields.available {α : Type} {P : α → Prop} {u : Evaluated α} (h : Yields P Unconcerned u) :
    Available u := by
  intro x
  constructor
  · intro hu
    exact ((hu ▸ h).of_error x).1 rfl
  · intro hu
    exact ((hu ▸ h).of_error x).2 rfl

private theorem yields_lookup (h : s.Binds e) (hx : .var x ∈ e.subformulas) :
    Yields Sized.Proper Unconcerned (Halt.ofError (Reading.lookup s x)) := by
  obtain ⟨v, hget, hfits⟩ := h x (mem_vars.mpr hx)
  rw [Reading.lookup_eq_ok hget hfits]
  exact .ok ⟨_, Sized.hasKind_ofValue hfits⟩

private theorem admits_ofState (h : s.Binds e) : Admits Unconcerned (.ofState s) e where
  var x hx p := by
    cases p with
    | true => exact .error (by simp [Unconcerned])
    | false => exact yields_lookup h hx
  sym g _ := .error (by simp [Unconcerned])

private theorem admits_ofStep (h : s.Binds e) (h' : t.Binds e) : Admits Unconcerned (.ofStep s t) e where
  var x hx p := by
    cases p with
    | true => exact yields_lookup h' hx
    | false => exact yields_lookup h hx
  sym g _ := .error (by simp [Unconcerned])

private theorem yields_eval (h : s.Binds e) : Yields (fun _ => True) Unconcerned (e.eval s) :=
  ((admits_ofState h).yields fun _ => unconcerned_of_inherent).map fun _ _ => trivial

theorem available_eval (h : s.Binds e) : Available (e.eval s) :=
  (yields_eval h).available

theorem available_holds (h : s.Binds e) : Available (e.holds s) := by
  have hyields : Yields (fun _ => True) Unconcerned (e.holds s) := by
    apply (yields_eval h).bind
    intro v _
    cases v with
    | bool b => exact .ok trivial
    | int y => exact .error (unconcerned_of_inherent (.sortMismatch e))
  exact hyields.available

theorem available_evalStep (h : s.Binds e) (h' : t.Binds e) : Available (e.evalStep s t) := by
  have hyields : Yields (fun _ => True) Unconcerned (e.evalStep s t) :=
    ((admits_ofStep h h').yields fun _ => unconcerned_of_inherent).map fun _ _ => trivial
  exact hyields.available

end Formula

/-! ### Frames with the same state -/

/-- All variables are the same in two frames if the states read out of a model for them are. -/
theorem Unrolling.exists_allSame {u : Unrolling} {i j : Nat} {c d : Clock} (hc : u.clockAt i = .ok c)
    (hd : u.clockAt j = .ok d) : ∃ f, u.allSame i j = .ok f ∧ ∀ (m : Model) (σ : Assignment), m.Reports σ →
      ∃ a b, m.stateAt c u.vars = .ok a ∧ m.stateAt d u.vars = .ok b ∧ (σ.Satisfies f ↔ a = b) := by
  refine ⟨.mkAnd (u.vars.map fun x => sameAt x (c.get x) (d.get x)), ?_, fun m σ hm => ?_⟩
  · rw [allSame, hc, hd]
    rfl
  · refine ⟨_, _, hm.stateAt c u.vars, hm.stateAt d u.vars, ?_⟩
    rw [Assignment.satisfies_mkAnd, List.forall_mem_map]
    simp only [satisfies_sameAt]
    constructor
    · intro h
      refine SortedMap.ext_get? fun x => ?_
      rw [Assignment.get?_valuation, Assignment.get?_valuation]
      by_cases hx : x ∈ u.vars
      · rw [if_pos hx, if_pos hx, h x hx]
      · rw [if_neg hx, if_neg hx]
    · intro h x hx
      have hget := congrArg (SortedMap.get? · x) h
      simp only [Assignment.get?_valuation, if_pos hx, Option.some.injEq] at hget
      exact Subtype.ext hget

namespace TransitionSystem

variable {system : TransitionSystem} {u : Unrolling} {n : Nat}

theorem vars_subset {e : Formula} (he : e = system.init ∨ e = system.trans ∨ e = system.prop) :
    e.vars.elements ⊆ system.vars.elements :=
  fun _ hx => mem_vars he (Formula.mem_vars.mp hx)

/-- A formula sees the variables that occur in it, a system those of its formulas, and an unrolling tells two frames apart
by the states that are read out for them. -/
theorem sees_own_variables (e : Formula) (hu : Unrolling.After system n u) :
    (∀ s s' t t' : Valuation, s.AgreeOn s' e.vars.elements → t.AgreeOn t' e.vars.elements →
      e.eval s = e.eval s' ∧ e.holds s = e.holds s' ∧ e.evalStep s t = e.evalStep s' t') ∧
    (∀ s t : Valuation, s.Binds e → t.Binds e →
      Formula.Available (e.eval s) ∧ Formula.Available (e.holds s) ∧ Formula.Available (e.evalStep s t)) ∧
    (∀ s s' : Valuation, s.AgreeOn s' system.vars.elements →
      (system.init.eval s = system.init.eval s' ∧ system.init.holds s = system.init.holds s') ∧
      (system.prop.eval s = system.prop.eval s' ∧ system.prop.holds s = system.prop.holds s') ∧
      ∀ t, system.trans.evalStep s t = system.trans.evalStep s' t ∧
        system.trans.evalStep t s = system.trans.evalStep t s') ∧
    u.vars = system.vars.elements ∧
    ∀ i j, i ≤ n → j ≤ n → ∃ c d f, u.clockAt i = .ok c ∧ u.clockAt j = .ok d ∧ u.allSame i j = .ok f ∧
      ∀ (m : Model) (σ : Assignment), m.Reports σ →
        ∃ a b, m.stateAt c u.vars = .ok a ∧ m.stateAt d u.vars = .ok b ∧ (σ.Satisfies f ↔ a = b) := by
  refine ⟨fun s s' t t' h h' => ?_, fun s t h h' => ?_, fun s s' h => ?_, hu.clocked.vars, fun i j hi hj => ?_⟩
  · exact ⟨Formula.eval_congr h, Formula.holds_congr h, Formula.evalStep_congr h h'⟩
  · exact ⟨Formula.available_eval h, Formula.available_holds h, Formula.available_evalStep h h'⟩
  · have hinit := h.mono (vars_subset (e := system.init) (.inl rfl))
    have htrans := h.mono (vars_subset (e := system.trans) (.inr (.inl rfl)))
    have hprop := h.mono (vars_subset (e := system.prop) (.inr (.inr rfl)))
    refine ⟨⟨Formula.eval_congr hinit, Formula.holds_congr hinit⟩,
      ⟨Formula.eval_congr hprop, Formula.holds_congr hprop⟩, fun t => ?_⟩
    exact ⟨Formula.evalStep_congr htrans fun _ _ => rfl, Formula.evalStep_congr (fun _ _ => rfl) htrans⟩
  · obtain ⟨c, hc, -⟩ := hu.clocked.clock i hi
    obtain ⟨d, hd, -⟩ := hu.clocked.clock j hj
    obtain ⟨f, hf, hsame⟩ := Unrolling.exists_allSame hc hd
    exact ⟨c, d, f, hc, hd, hf, hsame⟩

private def lamp : Variable :=
  ⟨"lamp", .bool⟩

/-- A lamp that goes on and off by turns. -/
private def blinking : TransitionSystem where
  init := .var lamp
  trans := .eq (.prime (.var lamp)) (.not (.var lamp))
  prop := .bool true

private def lit : Valuation :=
  SortedMap.empty.insert lamp (.bool true)

private def litAndBlowing : Valuation :=
  lit.insert ⟨"fan", .bool⟩ (.bool true)

/-- The fan is not seen, and a model without entries shows the lamp off in both frames. -/
theorem sees_own_variables_blinking :
    blinking.trans.evalStep litAndBlowing lit = blinking.trans.evalStep lit lit ∧
      Formula.Available (blinking.init.eval lit) ∧
      ∃ u f, Unrolling.After blinking 1 u ∧ u.allSame 0 1 = .ok f ∧ (default : Assignment).Satisfies f := by
  obtain ⟨u, hu⟩ : ∃ u, Unrolling.After blinking 1 u := ⟨_, .extend (.start rfl) rfl⟩
  obtain ⟨-, havailable, hstates, -, hframes⟩ := sees_own_variables blinking.init hu
  have hvars : ∀ x ∈ blinking.vars.elements, x = lamp := by decide
  have hagree : litAndBlowing.AgreeOn lit blinking.vars.elements := by
    intro x hx
    rw [hvars x hx]
    rfl
  have hbinds : lit.Binds blinking.init := by
    intro x hx
    rw [hvars x (vars_subset (.inl rfl) hx)]
    exact ⟨.bool true, rfl, rfl⟩
  have hreports : (⟨true, .empty⟩ : Model).Reports default := fun _ => rfl
  obtain ⟨c, d, f, hc, hd, hf, hsame⟩ := hframes 0 1 (by decide) (by decide)
  obtain ⟨a, b, ha, hb, hiff⟩ := hsame _ default hreports
  refine ⟨((hstates _ _ hagree).2.2 lit).1, (havailable lit lit hbinds hbinds).1, u, f, hu, hf, hiff.mpr ?_⟩
  rw [hreports.stateAt] at ha hb
  exact Except.ok.inj (ha.symm.trans hb)

end TransitionSystem

end Invariance
