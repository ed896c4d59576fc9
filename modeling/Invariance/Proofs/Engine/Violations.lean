import Invariance.Proofs.Engine.Search
import Invariance.Proofs.Formula.Valuations

/-!
Violations as the evaluator sees them: sequences of states that begin in an initial state, go on by steps and end where
the property is false. They are what assignments to symbols make of the frames of a system.
-/

namespace Invariance

namespace Formula

variable {e : Formula} {s t : Valuation} {b : Bool}

theorem holds_eq_ok_iff : e.holds s = .ok b ↔ e.Evaluates (.ofState s) false (.bool b) := by
  rw [holds, eval, Evaluates]
  rcases e.evaluate (.ofState s) false with _ | _ | _ <;>
    simp [Except.map, Sized.toValue, bind, Except.bind, pure, Except.pure, throw, throwThe, MonadExceptOf.throw]

theorem evalStep_eq_ok_iff : e.evalStep s t = .ok (.bool b) ↔ e.Evaluates (.ofStep s t) false (.bool b) := by
  rw [evalStep, Evaluates]
  rcases e.evaluate (.ofStep s t) false with _ | _ | _ <;> simp [Except.map, Sized.toValue]

end Formula

namespace TransitionSystem

variable {s : TransitionSystem} {σ τ : Assignment} {π ρ : Nat → Valuation} {f n : Nat} {x : Variable} {v : Valuation}

/-- The valuation binds the variables of the system and no others, each to a value within its domain. -/
structure IsState (s : TransitionSystem) (v : Valuation) : Prop where
  keys : v.keys = s.vars.elements
  fits : ∀ x w, v.get? x = some w → w.fits x.domain

/-- A path of `n` steps from an initial state to one in which the property is false. -/
structure Violation (s : TransitionSystem) (π : Nat → Valuation) (n : Nat) : Prop where
  state : ∀ i ≤ n, s.IsState (π i)
  init : s.init.holds (π 0) = .ok true
  step : ∀ i < n, s.trans.evalStep (π i) (π (i + 1)) = .ok (.bool true)
  bad : s.prop.holds (π n) = .ok false

theorem Violation.congr (h : s.Violation π n) (heq : ∀ i ≤ n, π i = ρ i) : s.Violation ρ n where
  state i hi := heq i hi ▸ h.state i hi
  init := heq 0 n.zero_le ▸ h.init
  step i hi := heq i hi.le ▸ heq (i + 1) hi ▸ h.step i hi
  bad := heq n le_rfl ▸ h.bad

/-! ### The states of an assignment -/

theorem get?_valuation (hx : x ∈ s.vars.elements) : (s.valuation σ f).get? x = some (σ x (s.frame f x)).1 := by
  rw [valuation, Assignment.get?_valuation, if_pos hx]

theorem isState_valuation : s.IsState (s.valuation σ f) where
  keys := SortedMap.keys_eq_of_mem fun _ => Assignment.keys_valuation
  fits x w hw := by
    rw [valuation, Assignment.get?_valuation] at hw
    split at hw
    · cases hw
      exact (σ x (s.frame f x)).2
    · cases hw

/-- The state of a frame is what the assignment shows there, to any formula of the system. -/
theorem shows_valuation {e : Formula} (he : e = s.init ∨ e = s.trans ∨ e = s.prop) :
    σ.Shows (s.valuation σ f) (s.frame f) e :=
  fun _ hx => get?_valuation (mem_vars he (Formula.mem_vars.mp hx))

namespace Monolithic

variable (h : s.Monolithic)

include h

theorem satisfies_initial_iff : σ.Satisfies s.initial ↔ s.init.holds (s.valuation σ 0) = .ok true :=
  (Formula.evaluates_placeAt_state h.init_free h.init_now (shows_valuation (.inl rfl))).trans
    Formula.holds_eq_ok_iff.symm

theorem not_satisfies_propIn_iff : ¬ σ.Satisfies (s.propIn f) ↔ s.prop.holds (s.valuation σ f) = .ok false := by
  rw [← (h.regular.predicate_propIn f).evaluates_false_iff, Formula.holds_eq_ok_iff]
  exact Formula.evaluates_placeAt_state h.prop_free h.prop_now (shows_valuation (.inr (.inr rfl)))

theorem satisfies_stepFrom_iff :
    σ.Satisfies (s.stepFrom f) ↔ s.trans.evalStep (s.valuation σ f) (s.valuation σ (f + 1)) = .ok (.bool true) := by
  have hnext : (fun x => s.frame f x + 1) = s.frame (f + 1) := by
    rw [h.frame_eq, h.frame_eq]
  rw [Formula.evalStep_eq_ok_iff]
  apply Formula.evaluates_placeAt_step h.trans_free h.trans_step (shows_valuation (.inr (.inl rfl)))
  rw [hnext]
  exact shows_valuation (.inr (.inl rfl))

/-- The frames of an assignment are those of an execution to a violation if their states are. -/
theorem refutes_iff : s.Refutes σ n ↔ s.Violation (s.valuation σ) n := by
  constructor
  · intro hσ
    exact {
      state := fun _ _ => isState_valuation
      init := h.satisfies_initial_iff.mp (hσ.reaches.initial n.succ_pos)
      step := fun i hi => h.satisfies_stepFrom_iff.mp (hσ.reaches.steps i (by omega))
      bad := h.not_satisfies_propIn_iff.mp hσ.bad }
  · intro hσ
    exact {
      reaches := {
        initial := fun _ => h.satisfies_initial_iff.mpr hσ.init
        steps := fun i hi => h.satisfies_stepFrom_iff.mpr (hσ.step i (by omega)) }
      bad := h.not_satisfies_propIn_iff.mpr hσ.bad }

/-- The frames of an assignment made of states show these states. -/
theorem valuation_ofStates (hπ : s.IsState (π f)) : s.valuation (.ofStates π) f = π f := by
  apply SortedMap.ext_get?
  intro x
  by_cases hx : x ∈ s.vars.elements
  · have hbound : x ∈ (π f).keys := hπ.keys ▸ hx
    obtain ⟨v, hv⟩ := Option.isSome_iff_exists.mp (SortedMap.mem_keys_iff.mp hbound)
    rw [get?_valuation hx, h.frame_eq, Assignment.ofStates, Assignment.valueIn, hv, Option.elim_some,
      dif_pos (hπ.fits x v hv)]
  · have hunbound : x ∉ (π f).keys := hπ.keys ▸ hx
    rw [SortedMap.get?_eq_none_iff.mpr hunbound, valuation, Assignment.get?_valuation, if_neg hx]

theorem exists_violation_iff : (∃ π, s.Violation π n) ↔ ∃ π, s.dynamics.Execution π n ∧ ¬ s.dynamics.Good (π n) := by
  constructor
  · rintro ⟨π, hπ⟩
    have hrefutes : s.Refutes (.ofStates π) n :=
      h.refutes_iff.mpr (hπ.congr fun i hi => (h.valuation_ofStates (hπ.state i hi)).symm)
    refine ⟨s.state (.ofStates π), hrefutes.reaches.execution h.regular, ?_⟩
    rw [h.regular.good_iff]
    exact hrefutes.bad
  · rintro ⟨π, hπ, hbad⟩
    obtain ⟨σ, hreaches, hstate⟩ := h.regular.exists_reaches hπ
    refine ⟨s.valuation σ, h.refutes_iff.mp ⟨hreaches, ?_⟩⟩
    rwa [← h.regular.good_iff, hstate n le_rfl]

/-- No execution of fewer than `n` steps ends in a bad state if there is no violation of so few steps. -/
theorem safeBelow_iff : s.dynamics.SafeBelow n ↔ ∀ m < n, ∀ π, ¬ s.Violation π m := by
  refine forall₂_congr fun m _ => ?_
  rw [← not_exists, h.exists_violation_iff]
  push Not
  rfl

theorem safe_iff : s.dynamics.Safe ↔ ∀ n π, ¬ s.Violation π n := by
  refine forall_congr' fun m => ?_
  rw [← not_exists, h.exists_violation_iff]
  push Not
  rfl

end Monolithic

end TransitionSystem

end Invariance
