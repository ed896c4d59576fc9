import Invariance.Proofs.Solver.Decision

/-!
Any use of the solver. Calls follow one another in whatever order, and one that fails does not end the sequence. The
context goes along with the answers, so that it says at any time what is asserted and whether a check still stands.
-/

namespace Invariance

/-- A call of a solver. -/
inductive Call where
  | assert (p : Option Partition) (e : Formula)
  | push
  | pop
  | check
  | model
  | interpolant (p : Pattern)

/-- What comes back from a call, the result of a check if there is one. -/
abbrev Answer :=
  Except (Halt SolverError) (Option Status)

namespace Call

section Solver

variable {σ : Type} [Solver σ]

def request : Call → Request σ (Option Status)
  | assert p e => do Solver.assert p e; return none
  | push => do modify Solver.push; return none
  | pop => do Solver.pop; return none
  | check => do return some (← Solver.check)
  | model => do let _ ← Solver.model; return none
  | interpolant p => do let _ ← Solver.interpolant p; return none

/-- The context after a call. Calls that fail leave it as it is, and so do those that assert nothing. -/
def after (c : Context) : Call → Answer → Context
  | _, .error _ => c
  | assert p e, .ok _ => c.assert p e
  | push, .ok _ => c.push
  | pop, .ok _ =>
      match c.outer with
      | [] => c
      | scope :: outer => ⟨outer, scope, none⟩
  | check, .ok (some status) => c.checked status
  | check, .ok none => c
  | model, .ok _ => c
  | interpolant _, .ok _ => c

/-- Makes a call, and keeps the account of it. -/
def perform (state : σ × Context) (call : Call) : σ × Context :=
  match call.request.run.run state.1 with
  | (answer, s) => (s, call.after state.2 answer)

/-- The solver and the context after some calls, the first made of a solver without assertions. -/
def performAll (calls : List Call) (s : σ) : σ × Context :=
  calls.foldl perform (s, {})

/-- What holds before a call and is kept by every call holds after any calls. -/
theorem performAll_induction {P : σ → Context → Prop} {s : σ} (hstart : P s {})
    (hstep : ∀ s c (call : Call), P s c →
      Meets (call.request : Request σ _) s (fun a t => P t (call.after c (.ok a))) fun e t => P t (call.after c (.error e)))
    (calls : List Call) : P (performAll calls s).1 (performAll calls s).2 := by
  have hperform : ∀ state : σ × Context, ∀ call : Call, P state.1 state.2 →
      P (perform state call).1 (perform state call).2 := by
    intro state call hstate
    have hmeets := hstep state.1 state.2 call hstate
    unfold Meets at hmeets
    unfold perform
    rcases hrun : call.request.run.run state.1 with ⟨_ | _, t⟩ <;> rw [hrun] at hmeets <;> exact hmeets
  have hall : ∀ state : σ × Context, P state.1 state.2 →
      P (calls.foldl perform state).1 (calls.foldl perform state).2 := by
    induction calls with
    | nil => exact fun _ hstate => hstate
    | cons call calls ih => exact fun state hstate => ih _ (hperform state call hstate)
  exact hall (s, {}) hstart

end Solver

end Call

namespace DecisionSolver

variable {s t : DecisionSolver} {c : Context} {bits : Nat}

theorem meets_model_self : Meets model s (fun _ t => t = s) fun _ t => t = s := by
  unfold Meets
  rw [run_model]
  split <;> rename_i heq <;> exact (Prod.mk.inj heq).2.symm

/-- An interpolant may need more diagrams, and changes nothing if there is none. -/
theorem tracks_interpolant (p : Pattern) (h : Tracks s c) :
    Meets (interpolant p) s (fun _ t => Tracks t c) fun _ t => t = s := by
  by_cases hlast : c.last = some .unsat
  · exact (meets_interpolant p h hlast).mono (fun _ _ ht => ht.1) fun _ _ => False.elim
  · exact meets_of_run_error (run_interpolant_of_ne p h hlast) rfl

/-- The solver keeps track of the context through any call. -/
theorem tracks_call (call : Call) (h : Tracks s c) :
    Meets (call.request : Request DecisionSolver _) s (fun a t => Tracks t (call.after c (.ok a)))
      fun e t => Tracks t (call.after c (.error e)) := by
  cases call with
  | assert p e =>
      apply ((meets_assert h p).mono (fun _ _ ht => ht.1) fun _ _ ht => ht.1.tracks h).bind
      exact fun _ _ ht => ht
  | push => exact tracks_push h
  | pop =>
      apply ((meets_pop h).mono (fun _ _ => id) fun _ t ht => (ht.2.2 ▸ h : Tracks t c)).bind
      rintro _ t ⟨scope, outer, hc, ht⟩
      simpa only [meets_pure, Call.after, hc] using ht
  | check =>
      apply ((meets_check h).mono (fun _ _ ht => ht.1) fun _ _ => False.elim).bind
      exact fun _ _ ht => ht
  | model =>
      apply (meets_model_self.mono (fun _ t ht => (ht ▸ h : Tracks t c)) fun _ t ht => (ht ▸ h : Tracks t c)).bind
      exact fun _ _ ht => ht
  | interpolant p =>
      apply ((tracks_interpolant p h).mono (fun _ _ => id) fun _ t ht => (ht ▸ h : Tracks t c)).bind
      exact fun _ _ ht => ht

theorem tracks_performAll (hs : ofBits bits = .ok s) (calls : List Call) :
    Tracks (Call.performAll calls s).1 (Call.performAll calls s).2 :=
  Call.performAll_induction (tracks_ofBits hs) (fun _ _ call h => tracks_call call h) calls

/-- A solver after calls of any kind that have left no assertion. -/
def Idle (s : DecisionSolver) : Prop :=
  ∃ bits first calls c, ofBits bits = .ok first ∧ Call.performAll calls first = (s, c) ∧ c.active = []

theorem idle_ofBits (hs : ofBits bits = .ok s) : Idle s :=
  ⟨bits, s, [], {}, hs, rfl, rfl⟩

theorem Idle.tracks (h : Idle s) : ∃ c, Tracks s c ∧ c.active = [] := by
  obtain ⟨bits, first, calls, c, hfirst, hcalls, hc⟩ := h
  have htracks := tracks_performAll hfirst calls
  rw [hcalls] at htracks
  exact ⟨c, htracks, hc⟩

/-- After any calls, a check decides the active assertions; a model is there exactly while a check that found them
satisfiable stands, and makes all of them true. -/
theorem decides_performAll (hs : ofBits bits = .ok s) (calls : List Call) (ht : Call.performAll calls s = (t, c))
    (hcount : t.varCount < Word.signBound32) :
    (∃ status u, check.run.run t = (.ok status, u) ∧ status ≠ .unknown ∧ (status = .sat ↔ ∃ τ, c.Satisfied τ)) ∧
    (c.last = some .sat → ∃ m τ, model.run.run t = (.ok m, t) ∧ c.Satisfied τ ∧ m.Reports τ) ∧
    (c.last ≠ some .sat → model.run.run t = (.error (.error .noModel), t)) := by
  have htracks : Tracks t c := by
    have := tracks_performAll hs calls
    rwa [ht] at this
  refine ⟨?_, fun hlast => exists_model htracks hlast (Nat.not_le.mpr hcount), run_model_of_ne htracks⟩
  obtain ⟨status, u, hrun, -, hunsat, hsat⟩ := (meets_check htracks).exists_ok
  refine ⟨status, u, hrun, ?_, hsat⟩
  rintro rfl
  exact nomatch hunsat.mpr fun τ hτ => nomatch hsat.mpr ⟨τ, hτ⟩

/-- Calls that fail, and a scope that is closed again, leave what was asserted before to be satisfied. -/
theorem model_performAll : ∃ s t c, ofBits 3 = .ok s ∧
    Call.performAll
      [.assert none (.sym ⟨⟨"x", .bool⟩, 0⟩), .assert none (.int 3), .push,
        .assert (some .a) (.not (.sym ⟨⟨"x", .bool⟩, 0⟩)), .pop, .pop, .check] s = (t, c) ∧
    ∃ m τ, model.run.run t = (.ok m, t) ∧ c.Satisfied τ ∧ m.Reports τ := by
  have hs : ofBits 3 = .ok _ := rfl
  exact ⟨_, _, _, hs, Prod.mk.eta.symm, (decides_performAll hs _ Prod.mk.eta.symm (by decide +kernel)).2.1 (by decide +kernel)⟩

/-- After any calls, the interpolant is there exactly while a check that found the active assertions unsatisfiable
stands. It is one, and the strongest over what the second side depends on. -/
theorem interpolates_performAll (hs : ofBits bits = .ok s) (calls : List Call)
    (ht : Call.performAll calls s = (t, c)) (p : Pattern) :
    (c.last = some .unsat →
      ∃ e u, (interpolant p).run.run t = (.ok e, u) ∧ c.Interpolant p e ∧ c.Strongest p e) ∧
    (c.last ≠ some .unsat → (interpolant p).run.run t = (.error (.error .noInterpolant), t)) := by
  have htracks : Tracks t c := by
    have := tracks_performAll hs calls
    rwa [ht] at this
  refine ⟨fun hlast => ?_, run_interpolant_of_ne p htracks⟩
  obtain ⟨e, u, hrun, -, hinterpolant, hstrongest, -⟩ := (meets_interpolant p htracks hlast).exists_ok
  exact ⟨e, u, hrun, hinterpolant, hstrongest⟩

/-- One side asserts what the other denies, and a symbol of its own, in nested scopes. -/
theorem interpolant_performAll : ∃ s t c, ofBits 3 = .ok s ∧
    Call.performAll
      [.assert (some .a) (.sym ⟨⟨"x", .bool⟩, 0⟩), .assert (some .a) (.sym ⟨⟨"y", .bool⟩, 0⟩), .push,
        .assert (some .b) (.not (.sym ⟨⟨"x", .bool⟩, 0⟩)), .check] s = (t, c) ∧
    ∃ e u, (interpolant .forward).run.run t = (.ok e, u) ∧ c.Interpolant .forward e ∧ c.Strongest .forward e := by
  have hs : ofBits 3 = .ok _ := rfl
  exact ⟨_, _, _, hs, Prod.mk.eta.symm, (interpolates_performAll hs _ Prod.mk.eta.symm .forward).1 (by decide +kernel)⟩

end DecisionSolver

end Invariance
