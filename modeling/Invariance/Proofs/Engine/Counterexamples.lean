import Invariance.Proofs.Engine.Soundness
import Invariance.Proofs.Engine.Updates
import Invariance.Proofs.Engine.Violations
import Invariance.Proofs.Solver.Calls

/-!
Counterexamples. The trace that a run ends with is a violation in the evaluator's eyes, state by state, and its actions
list what changes from one state to the next.
-/

namespace Invariance

open TransitionSystem Invariance.Dynamics DecisionSolver

variable {s : TransitionSystem} {schedule : Schedule} {limits : Limits}
variable {bmc kInduction imc : Option (Supplied DecisionSolver)} {c c' : Checker DecisionSolver}

namespace TransitionSystem

/-- The trace goes through the states of a violation, and its actions list what changes between them. -/
structure Counterexample (s : TransitionSystem) (t : Trace Valuation Update) (π : Nat → Valuation) : Prop where
  violation : s.Violation π t.length
  states : t.states = (List.range (t.length + 1)).map π
  length : t.actions.length = t.length
  leads : ∀ (i : Nat) (u : Update), t.actions[i]? = some u → u.Leads s.vars.elements (π i) (π (i + 1))

theorem Refutes.counterexample {τ : Assignment} {f : Nat} (hτ : s.Refutes τ f) (h : s.Monolithic) :
    s.Counterexample (s.trace .explicit τ f) (s.valuation τ) where
  violation := by
    rw [length_trace]
    exact h.refutes_iff.mp hτ
  states := by rw [length_trace, states_trace]
  length := by rw [length_trace, actions_trace, List.length_map, List.length_range]
  leads i u hu := by
    have hkeys : ∀ i, (s.valuation τ i).keys = s.vars.elements := fun _ => isState_valuation.keys
    rw [actions_trace, List.getElem?_map] at hu
    obtain ⟨j, hj, rfl⟩ := Option.map_eq_some_iff.mp hu
    obtain ⟨hi, rfl⟩ := List.getElem?_eq_some_iff.mp hj
    rw [List.getElem_range, ← hkeys (i + 1)]
    exact Update.leads_between ((hkeys i).trans (hkeys (i + 1)).symm)

end TransitionSystem

namespace Checker

/-- A run is to begin on a system in the usual form, with solvers that decide by diagrams and have no assertions. -/
structure Begins (s : TransitionSystem) (bmc kInduction imc : Option (Supplied DecisionSolver))
    (c : Checker DecisionSolver) : Prop where
  monolithic : s.Monolithic
  idle : ∀ a x, supplied bmc kInduction imc a = some x → x.solver.Idle
  start : ofSystem s bmc kInduction imc = .ok c

theorem Begins.ready {L free : Prop} (h : Begins s bmc kInduction imc c)
    (hstaffed : L ∨ ∀ a i, 0 < i → schedule.has i a = true → (supplied bmc kInduction imc a).isSome) :
    Ready s Tracks L free schedule (fun _ => 0) 0 c :=
  ready_of_ofSystem h.monolithic.regular h.start (fun a x hx => (h.idle a x hx).tracks) hstaffed

/-- The trace that a run ends with is a counterexample, however it was scheduled, if literals can name all variables of
the solvers to the end. -/
theorem counterexample_of_run_eq_violated (h : Begins s bmc kInduction imc c) {a : Strategy} {i : Nat}
    {t : Trace Valuation Update} (hrun : (run limits schedule .explicit).run.run c = (.ok (.violated a i t), c'))
    (hroom : ¬ c'.Loses Crowded) : ∃ π, s.Counterexample t π := by
  have hmeets : Meets (run limits schedule .explicit) c
      (fun v c' => ∀ a i t, v = .violated a i t → ∃ f τ, s.Refutes τ f ∧ (c'.Loses Crowded ∨ t = s.trace .explicit τ f))
      (Stops True Crowded) := by
    apply meets_runFrom (fun m c => Ready s Tracks True False schedule (fun _ => m) m c)
    · exact fun m c _ _ a i t h => nomatch h
    · intro m c hc _
      apply (meets_iterate (plan_of_lenient (contract True) h.monolithic.regular (m + 1)) hc le_rfl).imp
      rintro (_ | v) c' hv
      · exact hv.1
      · rintro a i t rfl
        obtain ⟨_, o, ho, -, hsettled, -⟩ := hv
        cases o with
        | violated t =>
            cases ho
            obtain ⟨f, -, -, -, τ, hτ⟩ := hsettled
            exact ⟨f, τ, hτ⟩
        | safe | unknown => cases ho
    · exact fun _ _ => .inl trivial
    · exact h.ready (.inl trivial)
  obtain ⟨f, τ, hτ, htrace⟩ := hmeets.of_run_ok hrun a i t rfl
  obtain rfl := htrace.resolve_left hroom
  exact ⟨_, hτ.counterexample h.monolithic⟩

/-- A bit that changes in every step. -/
def toggle : TransitionSystem :=
  bit (.not (.var ⟨"x", .bool⟩))

theorem monolithic_toggle : toggle.Monolithic :=
  monolithic_bit (.not (.var _)) (by simp [Formula.SymbolFree, Formula.subformulas])
    (by simp [Formula.PrimeFree, Formula.subformulas])

theorem begins_of_ofBits {x : DecisionSolver} {bits : Nat} (hs : s.Monolithic) (hx : ofBits bits = .ok x)
    (hc : ofSystem s (some ⟨0, x⟩) (some ⟨1, x⟩) (some ⟨2, x⟩) = .ok c) :
    Begins s (some ⟨0, x⟩) (some ⟨1, x⟩) (some ⟨2, x⟩) c where
  monolithic := hs
  idle := by rintro (_ | _ | _) y ⟨⟩ <;> exact idle_ofBits hx
  start := hc

/-- Interpolation finds the bit to be set after a step. -/
theorem counterexample_toggle : ∃ x c a i t c', ofBits 0 = .ok x ∧
    ofSystem toggle (some ⟨0, x⟩) (some ⟨1, x⟩) (some ⟨2, x⟩) = .ok c ∧
    (run ⟨3, 3⟩ .imcOnly .explicit).run.run c = (.ok (.violated a i t), c') ∧ ∃ π, toggle.Counterexample t π := by
  have hstart : ∃ x c, ofBits 0 = .ok x ∧
      ofSystem toggle (some ⟨0, x⟩) (some ⟨1, x⟩) (some ⟨2, x⟩) = .ok c ∧
      Meets (run ⟨3, 3⟩ .imcOnly .explicit) c (fun v c' => v.isViolated = true ∧ ¬ c'.Loses Crowded)
        fun _ _ => False :=
    ⟨_, _, rfl, rfl, by decide +kernel⟩
  obtain ⟨x, c, hx, hc, hmeets⟩ := hstart
  obtain ⟨v, c', hrun, hv, hroom⟩ := hmeets.exists_ok
  cases v with
  | violated a i t =>
      exact ⟨x, c, a, i, t, c', hx, hc, hrun,
        counterexample_of_run_eq_violated (begins_of_ofBits monolithic_toggle hx hc) hrun hroom⟩
  | safe | unknown => cases hv

end Checker

end Invariance
