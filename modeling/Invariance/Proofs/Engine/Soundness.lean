import Invariance.Proofs.Engine.Runs
import Invariance.Proofs.Solver.Decision

/-!
Soundness. If a run ends with the verdict that the property holds, then no execution of any length violates it,
whatever the schedule and the solvers do within their contract.
-/

namespace Invariance.Checker

open TransitionSystem Invariance.Dynamics

variable {σ S A : Type} [Solver σ] {lost : σ → Prop} {Tracks : σ → Context → Prop} {s : TransitionSystem}
variable {schedule : Schedule} {limits : Limits} {r : Reconstruction S A} {c : Checker σ}
variable {bmc kInduction imc : Option (Supplied σ)}

/-- Under the weakest contract, iterations may be cut short for any reason. -/
theorem plan_of_lenient (K : Contract True lost Tracks) (hs : s.Regular) (N : Nat) :
    Plan True lost Tracks True False s schedule limits N where
  stage _ _ _ hu := ⟨K, fun _ => trivial, hs, hu⟩
  regular := hs
  loopFree := False.elim
  moving := False.elim
  generations := .inl trivial
  rounds := .inl trivial
  baseCase := .inl trivial

/-- A property that a run finds to hold is true in every frame of every execution, however long. -/
theorem satisfies_propIn_of_run_eq_safe (K : Contract True lost Tracks) (hs : s.Regular)
    (hstart : ofSystem s bmc kInduction imc = .ok c)
    (htracks : ∀ a x, supplied bmc kInduction imc a = some x → ∃ d, Tracks x.solver d ∧ d.active = [])
    {a : Strategy} {i : Nat} {c' : Checker σ} (hrun : (run limits schedule r).run.run c = (.ok (.safe a i), c'))
    (n : Nat) (τ : Assignment) (hinit : τ.Satisfies s.initial) (hsteps : ∀ j < n, τ.Satisfies (s.stepFrom j)) :
    τ.Satisfies (s.propIn n) := by
  have hready : Ready s Tracks True False schedule (fun _ => 0) 0 c :=
    ready_of_ofSystem hs hstart htracks (.inl trivial)
  have hmeets : Meets (run limits schedule r) c
      (fun v _ => ∀ a i, v = .safe a i → s.dynamics.Safe) (Stops True lost) := by
    refine meets_runFrom (fun m c => Ready s Tracks True False schedule (fun _ => m) m c) ?_ ?_ limits.iterations
      (fun _ _ => .inl trivial) hready
    · exact fun m c _ _ a i h => nomatch h
    · intro m c hc _
      refine (meets_iterate (plan_of_lenient K hs (m + 1)) hc le_rfl).imp ?_
      rintro (_ | v) c' hv
      · exact hv.1
      · rintro a i rfl
        obtain ⟨a', o, ho, -, hsettled, -⟩ := hv
        cases o with
        | safe => exact hsettled
        | violated | unknown => cases ho
  have hsafe : s.dynamics.Safe := by
    unfold Meets at hmeets
    rw [hrun] at hmeets
    exact hmeets a i rfl
  exact hs.good_iff.mp (hsafe n _ (hs.execution_of_satisfies hinit hsteps))

/-- A bit that is not set at first and should never be, by the value that it takes next. -/
def bit (next : Formula) : TransitionSystem where
  init := .not (.var ⟨"x", .bool⟩)
  trans := .eq (.prime (.var ⟨"x", .bool⟩)) next
  prop := .not (.var ⟨"x", .bool⟩)

theorem monolithic_bit {next : Formula} (hkind : next.HasKind .bool) (hsym : next.SymbolFree)
    (hprime : next.PrimeFree) : (bit next).Monolithic where
  offset := rfl
  init_bool := .not (.var _)
  trans_bool := .eqBool (.prime (.var _)) hkind
  prop_bool := .not (.var _)
  init_free := by simp [Formula.SymbolFree, bit, Formula.subformulas]
  trans_free := by simpa [Formula.SymbolFree, bit, Formula.subformulas] using hsym
  prop_free := by simp [Formula.SymbolFree, bit, Formula.subformulas]
  init_now := by simp [Formula.PrimeFree, bit, Formula.subformulas]
  trans_step := by
    intro f hf
    have hfree : ∀ f, .prime f ∉ next.subformulas := hprime
    simp only [bit, Formula.subformulas, List.mem_cons, List.mem_append, reduceCtorEq, Formula.prime.injEq,
      List.not_mem_nil, or_false, false_or, hfree] at hf
    subst hf
    simp [Formula.PrimeFree, Formula.subformulas]
  prop_now := by simp [Formula.PrimeFree, bit, Formula.subformulas]

/-- A bit that keeps its value. -/
def latch : TransitionSystem :=
  bit (.var ⟨"x", .bool⟩)

theorem monolithic_latch : latch.Monolithic :=
  monolithic_bit (.var _) (by simp [Formula.SymbolFree, Formula.subformulas])
    (by simp [Formula.PrimeFree, Formula.subformulas])

/-- A run finds the bit never to be set, and it is set in no frame. -/
theorem satisfies_propIn_latch : ∃ x c a i c', DecisionSolver.ofBits 0 = .ok x ∧
    ofSystem latch (some ⟨0, x⟩) none none = .ok c ∧
    (run ⟨3, 0⟩ .bmcOnly .explicit).run.run c = (.ok (.safe a i), c') ∧
    ∀ n, (default : Assignment).Satisfies (latch.propIn n) := by
  have hstart : ∃ x c, DecisionSolver.ofBits 0 = .ok x ∧ ofSystem latch (some ⟨0, x⟩) none none = .ok c ∧
      Meets (run ⟨3, 0⟩ .bmcOnly .explicit) c (fun v _ => v.isSafe = true) fun _ _ => False :=
    ⟨_, _, rfl, rfl, by decide +kernel⟩
  obtain ⟨x, c, hx, hc, hmeets⟩ := hstart
  obtain ⟨a, i, c', hrun⟩ : ∃ a i c', (run ⟨3, 0⟩ .bmcOnly .explicit).run.run c = (.ok (.safe a i), c') := by
    obtain ⟨v, c', hrun, hv⟩ := hmeets.exists_ok
    cases v with
    | safe a i => exact ⟨a, i, c', hrun⟩
    | violated | unknown => cases hv
  have htracks : ∀ b y, supplied (some ⟨0, x⟩) none none b = some y →
      ∃ d, DecisionSolver.Tracks y.solver d ∧ d.active = [] := by
    rintro (_ | _ | _) y ⟨⟩
    exact ⟨_, DecisionSolver.tracks_ofBits hx, rfl⟩
  exact ⟨x, c, a, i, c', hx, hc, hrun, fun n =>
    satisfies_propIn_of_run_eq_safe (DecisionSolver.contract True) monolithic_latch.regular hc htracks hrun n _ rfl
      fun _ _ => rfl⟩

end Invariance.Checker
