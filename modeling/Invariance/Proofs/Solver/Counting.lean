import Invariance.Proofs.Diagram.Counting
import Invariance.Proofs.Solver.Calls
import Mathlib.SetTheory.Cardinal.Finite

/-!
How many models there are. Values of the symbols that a solver has met, and truth values of its variables, determine
each other, so that its count is that of the values which satisfy what is asserted.
-/

namespace Invariance

open Diagram

namespace Bits.Allocation

variable {a : Allocation} {v : Nat}

instance : DecidablePred a.Has :=
  fun s => decidable_of_iff (a.get? s).isSome Option.isSome_iff_exists

/-- Values of the symbols that have variables, each within its domain. -/
def Values (a : Allocation) : Type :=
  (g : {g // a.Has g}) → {v : Value // v.fits g.1.domain}

/-- The assignment with these values, in which a symbol without variables has its default. -/
def Values.complete (x : a.Values) : Assignment :=
  fun y n => if h : a.Has ⟨y, n⟩ then x ⟨⟨y, n⟩, h⟩ else (default : Assignment) y n

theorem Values.complete_apply (x : a.Values) (g : {g // a.Has g}) : x.complete g.1.base g.1.generation = x g :=
  dif_pos g.2

namespace Values

/-- The truth values of the variables for these values. -/
def truths (x : a.Values) : Truths a.size :=
  fun v => a.truth x.complete v

/-- The values of the symbols for these truth values. -/
def ofTruths (ρ : Truths a.size) : a.Values :=
  fun g => a.assignment ρ.extend g.1.base g.1.generation

/-- Nothing is lost by looking at the variables alone, since `truth` is false elsewhere. -/
theorem extend_truths (x : a.Values) : x.truths.extend = a.truth x.complete := by
  funext v
  rw [Truths.extend]
  split
  · rfl
  · next hv =>
      rw [truth]
      rcases howner : a.owner? v with _ | ⟨s, i⟩
      · rfl
      · exact absurd (Finset.mem_Icc.mpr (owner?_eq_some howner)) hv

theorem ofTruths_truths (h : a.Consistent) (x : a.Values) : ofTruths x.truths = x := by
  funext g
  change a.assignment x.truths.extend g.1.base g.1.generation = x g
  rw [extend_truths, h.assignment_truth g.2, complete_apply]

theorem truths_ofTruths (h : a.Consistent) (ρ : Truths a.size) : truths (ofTruths ρ) = ρ := by
  funext ⟨v, hv⟩
  obtain ⟨hpos, hle⟩ := Finset.mem_Icc.mp hv
  obtain ⟨s, i, howner⟩ := exists_owner? hpos hle
  obtain ⟨vs, hvs, -⟩ := h.listed v s i howner
  have hvalue := complete_apply (ofTruths ρ) ⟨s, vs, hvs⟩
  calc a.truth (ofTruths ρ).complete v
      = ((ofTruths ρ).complete s.base s.generation).1.bitAt i := by rw [truth, howner]
    _ = (a.assignment ρ.extend s.base s.generation).1.bitAt i := by rw [hvalue]; rfl
    _ = ρ.extend v := h.bitAt_assignment howner
    _ = ρ ⟨v, hv⟩ := dif_pos hv

end Values

/-- Values of the symbols and truth values of the variables are the same. -/
def Consistent.valuesEquiv (h : a.Consistent) : a.Values ≃ Truths a.size where
  toFun := Values.truths
  invFun := Values.ofTruths
  left_inv := Values.ofTruths_truths h
  right_inv := Values.truths_ofTruths h

end Bits.Allocation

namespace DecisionSolver

open Bits

variable {t : DecisionSolver} {c : Context}

/-- The assignments that satisfy the context are the values of symbols that satisfy what is asserted. -/
theorem card_models_eq (h : Tracks t c) : (t.workspace.manager.models t.varCount t.scope.context).card =
    Nat.card {x : t.workspace.symbols.Values // c.Satisfied x.complete} := by
  have hsatisfied : ∀ x : t.workspace.symbols.Values,
      c.Satisfied x.complete ↔ t.workspace.manager.value x.truths.extend t.scope.context = true := by
    intro x
    rw [← satisfied_iff, h.context.satisfies_iff h.workspace, Allocation.Values.extend_truths]
  have hequiv : {x : t.workspace.symbols.Values // c.Satisfied x.complete} ≃
      {ρ : Truths t.varCount // t.workspace.manager.value ρ.extend t.scope.context = true} :=
    h.workspace.symbols.valuesEquiv.subtypeEquiv hsatisfied
  rw [Nat.card_congr hequiv, Nat.subtype_card _ fun ρ => Manager.mem_models]

theorem modelCount_eq (h : Tracks t c) :
    t.modelCount = .ok (Nat.card {x : t.workspace.symbols.Values // c.Satisfied x.complete}) := by
  have hvars : ∀ v, t.workspace.manager.DependsOn t.scope.context v → v ≤ t.varCount := by
    intro v hv
    obtain ⟨e, -, g, i, howner, -⟩ := h.context.exists_owner h.workspace hv
    exact (Allocation.owner?_eq_some howner).2
  rw [modelCount, (Manager.satCount_exact h.workspace.manager h.context.contains hvars).1, card_models_eq h]

/-- Counts are exact: of a function over the variables from 1 to `n`, all sums that are halved being even and no more
being taken away than there is, and of the models of a solver after any calls, over all symbols that it has met. -/
theorem counts_exactly :
    (∀ (m : Manager) (e : Edge) (vars : SortedSet Nat) (n : Nat), m.Valid → m.Contains e → m.support e = .ok vars →
      (∀ v ∈ vars.elements, v ∈ Finset.Icc 1 n) →
      m.satCount e n = .ok (m.models n e).card ∧
        ∃ done, m.countExactly (Nat.pow 2 n) (e.index + 1) {} e = some ((m.models n e).card, done)) ∧
    ∀ (bits : Nat) (s t : DecisionSolver) (calls : List Call) (c : Context), ofBits bits = .ok s →
      Call.performAll calls s = (t, c) →
      t.modelCount = .ok (Nat.card {x : t.workspace.symbols.Values // c.Satisfied x.complete}) := by
  constructor
  · intro m e vars n hm he hvars hle
    obtain ⟨vars', hvars', hmem⟩ := Manager.exists_support hm he
    cases hvars.symm.trans hvars'
    exact Manager.satCount_exact hm he fun v hv => (Finset.mem_Icc.mp (hle v ((hmem v).mpr hv))).2
  · intro bits s t calls c hs ht
    have htracks := tracks_performAll hs calls
    rw [ht] at htracks
    exact modelCount_eq htracks

/-- A truth value, or the sign of an integer of three bits: of the sixteen values of both, four satisfy neither. -/
private def either : List Call :=
  [.assert none <| .or
    [.sym ⟨⟨"on", .bool⟩, 0⟩, .bit (.sym ⟨⟨"level", .int ⟨3, by decide, by decide⟩⟩, 0⟩) 2]]

/-- The models of a disjunction are counted, and the assignments to one variable more. -/
theorem counts_exactly_either : ∃ s t c, ofBits 3 = .ok s ∧ Call.performAll either s = (t, c) ∧
    Nat.card {x : t.workspace.symbols.Values // c.Satisfied x.complete} = 12 ∧
    (t.workspace.manager.models 5 t.scope.context).card = 24 := by
  have hs : ofBits 3 = .ok _ := rfl
  have hcounts : ∀ s, ofBits 3 = .ok s →
      let t := (Call.performAll either s).1
      t.modelCount = .ok 12 ∧ t.varCount = 4 ∧ t.workspace.manager.satCount t.scope.context 5 = .ok 24 := by
    rintro _ ⟨⟩
    decide +kernel
  obtain ⟨hcount, hsize, hcount'⟩ := hcounts _ hs
  have htracks := tracks_performAll hs either
  obtain ⟨vars, hvars, hmem⟩ := Manager.exists_support htracks.workspace.manager htracks.context.contains
  have hle : ∀ v ∈ vars.elements, v ∈ Finset.Icc 1 5 := by
    intro v hv
    obtain ⟨e, -, g, i, howner, -⟩ := htracks.context.exists_owner htracks.workspace ((hmem v).mp hv)
    obtain ⟨hpos, hle⟩ := Allocation.owner?_eq_some howner
    exact Finset.mem_Icc.mpr ⟨hpos, (hle.trans_eq hsize).trans (by decide)⟩
  obtain ⟨hmodels, -⟩ := counts_exactly.1 _ _ vars 5 htracks.workspace.manager htracks.context.contains hvars hle
  have hvalues := counts_exactly.2 3 _ _ either _ hs Prod.mk.eta.symm
  exact ⟨_, _, _, hs, Prod.mk.eta.symm, Except.ok.inj (hvalues.symm.trans hcount),
    Except.ok.inj (hmodels.symm.trans hcount')⟩

end DecisionSolver

end Invariance
