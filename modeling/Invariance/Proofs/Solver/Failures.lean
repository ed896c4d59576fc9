import Invariance.Proofs.Bits.Reproduction
import Invariance.Proofs.Solver.Calls

/-!
Calls that fail. A formula that is refused leaves behind the diagrams and the variables that were made on the way, and
shifts those of all formulas that follow. None of this shows: models and interpolants are the same in a larger
workspace, and checks are decided by the assertions alone.
-/

namespace Invariance

open Diagram Bits Manager

variable {w w₁ w₂ : Workspace} {x₁ x₂ : Edge} {P : Formula → Prop} {c c' : Context} {p : Pattern} {v : Nat}

/-! ### Growth in two ways -/

section Growth

variable (hw : w.Valid) (hg₁ : w.Grows w₁) (hg₂ : w.Grows w₂)

include hw hg₁ hg₂

/-- What formulas mean that were represented before does not depend on what came afterwards. -/
theorem Means.coincide (hP : ∀ e, P e → ∃ y, Represents w e (.bool y)) (h₁ : Means w₁ x₁ P) (h₂ : Means w₂ x₂ P) :
    Coincide w₁.manager x₁ w₂.manager x₂ where
  left := h₁.contains
  right := h₂.contains
  value ρ := by
    rw [Bool.eq_iff_iff, h₁.value, h₂.value]
    refine forall₂_congr fun e he => ?_
    obtain ⟨y, hy⟩ := hP e he
    rw [← (hy.grows hw hg₁).value_iff, ← (hy.grows hw hg₂).value_iff, hg₁.manager.value hw.manager hy.within,
      hg₂.manager.value hw.manager hy.within]

/-- Nor do the owners of the variables that matter. -/
theorem Means.owner?_eq (hP : ∀ e, P e → ∃ y, Represents w e (.bool y)) (h : Means w₁ x₁ P)
    (hv : w₁.manager.DependsOn x₁ v) : w₁.symbols.owner? v = w₂.symbols.owner? v := by
  obtain ⟨e, he, s, i, howner, hs⟩ := h.exists_owner hg₁.valid hv
  obtain ⟨y, hy⟩ := hP e he
  have hhas := hy.allotted s hs
  have hold := (hg₁.symbols.owner?_iff hw.symbols hg₁.valid.symbols hhas).mp howner
  rw [howner, (hg₂.symbols.owner?_iff hw.symbols hg₂.valid.symbols hhas).mpr hold]

/-- The same formula is found in both workspaces. -/
theorem DecisionSolver.Projected.formula_eq {f₁ f₂ g₁ g₂ r₁ r₂ : Edge} {e₁ e₂ : Formula}
    (hfirst : ∀ e, (∃ q, c.First p (q, e)) → ∃ y, Represents w e (.bool y))
    (hsecond : ∀ e, (∃ q, c.Second p (q, e)) → ∃ y, Represents w e (.bool y))
    (h₁ : Projected w₁ c p f₁ g₁ r₁ e₁) (h₂ : Projected w₂ c p f₂ g₂ r₂ e₂) : e₁ = e₂ := by
  have hf := h₁.first.coincide hw hg₁ hg₂ hfirst h₂.first
  have hg := h₁.second.coincide hw hg₁ hg₂ hsecond h₂.second
  have hr := hf.projects h₁.projects h₂.projects fun v => by rw [hf.dependsOn_iff, hg.dependsOn_iff]
  have hread := readback_congr hg₁.valid.manager hg₂.valid.manager hr fun v hv =>
    h₁.first.owner?_eq hw hg₁ hg₂ hfirst (h₁.projects.dependsOn hv).2
  rw [h₁.read, h₂.read] at hread
  exact Except.ok.inj hread

end Growth

/-! ### Statuses -/

namespace Call

variable {σ : Type} [Solver σ] {calls rest : List Call} {s : σ}

/-- The results of the checks among some calls, in their order. -/
def statuses : List Call → σ → List Status
  | [], _ => []
  | call :: calls, s =>
    match call.request.run.run s with
    | (.ok (some status), s) => status :: statuses calls s
    | (.ok none, s) | (.error _, s) => statuses calls s

theorem statuses_cons_of_error {call : Call} {h : Halt SolverError} {t : σ}
    (hcall : call.request.run.run s = (.error h, t)) : statuses (call :: calls) s = statuses calls t := by
  rw [statuses, hcall]

theorem statuses_append (context : Context) :
    statuses (calls ++ rest) s = statuses calls s ++ statuses rest (calls.foldl perform (s, context)).1 := by
  induction calls generalizing s context with
  | nil => rfl
  | cons call calls ih =>
      rw [List.cons_append, statuses, statuses, List.foldl_cons]
      unfold perform
      rcases call.request.run.run s with ⟨_ | _ | status, t⟩
      · exact ih _
      · exact ih _
      · exact congrArg _ (ih _)

/-- A call whose result is known puts this result first. -/
theorem exists_statuses_cons {call : Call} {status : Option Status} {R : σ → Prop} (calls : List Call)
    (h : Meets call.request s (fun a t => a = status ∧ R t) fun _ t => status = none ∧ R t) :
    ∃ t, R t ∧ statuses (call :: calls) s = status.toList ++ statuses calls t := by
  unfold Meets at h
  rw [statuses]
  rcases hrun : call.request.run.run s with ⟨e | a, t⟩ <;> rw [hrun] at h
  · obtain ⟨rfl, ht⟩ := h
    exact ⟨t, ht, rfl⟩
  · obtain ⟨rfl, ht⟩ := h
    refine ⟨t, ht, ?_⟩
    cases a <;> rfl

end Call

namespace DecisionSolver

variable {s t u : DecisionSolver} {call : Call} {h : Halt SolverError} {bits : Nat}

theorem exists_status (c : Context) : ∃ status, ∀ s : DecisionSolver, Tracks s c →
    Meets check s (fun a t => a = status ∧ Tracks t (c.checked status)) fun _ _ => False := by
  by_cases hc : ∃ τ, c.Satisfied τ
  · refine ⟨.sat, fun s hs => (meets_check hs).imp ?_⟩
    rintro status t ⟨ht, -, hsat⟩
    obtain rfl := hsat.mpr hc
    exact ⟨rfl, ht⟩
  · refine ⟨.unsat, fun s hs => (meets_check hs).imp ?_⟩
    rintro status t ⟨ht, hunsat, -⟩
    obtain rfl := hunsat.mpr fun τ hτ => hc ⟨τ, hτ⟩
    exact ⟨rfl, ht⟩

/-- The context settles the result of a call and the context after it. -/
theorem exists_outcome (call : Call) (c : Context) : ∃ status c', ∀ s : DecisionSolver, Tracks s c →
    Meets (call.request : Request DecisionSolver _) s (fun a t => a = status ∧ Tracks t c')
      fun _ t => status = none ∧ Tracks t c' := by
  cases call with
  | assert p e =>
      by_cases he : e.Predicate fun _ => True
      · refine ⟨none, c.assert p e, fun s hs => ?_⟩
        apply ((meets_assert hs p).mono (fun _ _ ht => ht.1) fun _ _ ht => absurd he ht.2).bind
        exact fun _ _ ht => ⟨rfl, ht⟩
      · refine ⟨none, c, fun s hs => ?_⟩
        apply ((meets_assert hs p).mono (fun _ _ ht => absurd ht.2 he) fun _ _ ht => ⟨rfl, ht.1.tracks hs⟩).bind
        exact fun _ _ ht => ⟨rfl, ht⟩
  | push => exact ⟨none, c.push, fun s hs => ⟨rfl, tracks_push hs⟩⟩
  | pop =>
      cases houter : c.outer with
      | nil =>
          refine ⟨none, c, fun s hs => ?_⟩
          apply ((meets_pop hs).mono (fun _ _ ht => ?_) fun _ t ht => ⟨rfl, (ht.2.2 ▸ hs : Tracks t c)⟩).bind
          · exact fun _ _ ht => ⟨rfl, ht⟩
          · obtain ⟨scope, outer, hc, -⟩ := ht
            cases houter.symm.trans hc
      | cons scope outer =>
          refine ⟨none, ⟨outer, scope, none⟩, fun s hs => ?_⟩
          apply ((meets_pop hs).mono (fun _ t ht => ?_) fun _ _ ht => nomatch houter.symm.trans ht.1).bind
          · exact fun _ _ ht => ⟨rfl, ht⟩
          · obtain ⟨scope, outer, hc, ht⟩ := ht
            cases houter.symm.trans hc
            exact ht
  | check =>
      obtain ⟨status, hcheck⟩ := exists_status c
      refine ⟨some status, c.checked status, fun s hs => ?_⟩
      apply ((hcheck s hs).mono (fun _ _ => id) fun _ _ => False.elim).bind
      rintro _ t ⟨rfl, ht⟩
      exact ⟨rfl, ht⟩
  | model =>
      refine ⟨none, c, fun s hs => ?_⟩
      apply (meets_model_self.mono (fun _ t ht => (ht ▸ hs : Tracks t c)) fun _ t ht => ⟨rfl, (ht ▸ hs : Tracks t c)⟩).bind
      exact fun _ _ ht => ⟨rfl, ht⟩
  | interpolant p =>
      refine ⟨none, c, fun s hs => ?_⟩
      apply ((tracks_interpolant p hs).mono (fun _ _ => id) fun _ t ht => ⟨rfl, (ht ▸ hs : Tracks t c)⟩).bind
      exact fun _ _ ht => ⟨rfl, ht⟩

/-- Solvers that keep track of the same context give the same results to all checks that may follow. -/
theorem statuses_eq_of_tracks (hs : Tracks s c) (ht : Tracks t c) (calls : List Call) :
    Call.statuses calls s = Call.statuses calls t := by
  induction calls generalizing s t c with
  | nil => rfl
  | cons call calls ih =>
      obtain ⟨status, c', houtcome⟩ := exists_outcome call c
      obtain ⟨s', hs', heqs⟩ := Call.exists_statuses_cons calls (houtcome s hs)
      obtain ⟨t', ht', heqt⟩ := Call.exists_statuses_cons calls (houtcome t ht)
      rw [heqs, heqt, ih hs' ht']

/-! ### Answers -/

/-- A call that fails changes nothing but for a larger workspace. -/
theorem meets_request_enlarges (call : Call) (hs : Tracks s c) :
    Meets (call.request : Request DecisionSolver _) s (fun _ _ => True) fun _ t => s.Enlarges t := by
  cases call with
  | assert p e => exact ((meets_assert hs p).mono (fun _ _ => id) fun _ _ ht => ht.1).bind fun _ _ _ => trivial
  | push => exact trivial
  | pop => exact ((meets_pop hs).mono (fun _ _ => id) fun _ t ht => ht.2.2 ▸ hs.enlarges).bind fun _ _ _ => trivial
  | check => exact ((meets_check hs).mono (fun _ _ => id) fun _ _ => False.elim).bind fun _ _ _ => trivial
  | model => exact (meets_model_self.mono (fun _ _ => id) fun _ t ht => ht ▸ hs.enlarges).bind fun _ _ _ => trivial
  | interpolant p =>
      exact ((tracks_interpolant p hs).mono (fun _ _ => id) fun _ t ht => ht ▸ hs.enlarges).bind fun _ _ _ => trivial

/-- A second solver gives the same answers as a first one. -/
structure AnswersAs (s t : DecisionSolver) : Prop where
  depth : t.depth = s.depth
  check : (check.run.run t).1 = (check.run.run s).1
  model : (model.run.run t).1.map Model.get? = (model.run.run s).1.map Model.get?
  interpolant : ∀ p, ((interpolant p).run.run t).1 = ((interpolant p).run.run s).1

/-- The values of all symbols are the same, those included that have got variables since. -/
theorem get?_modelOf_eq {ls : List Int} (hs : s.workspace.Valid) (hg : s.workspace.Grows w)
    (hls : ∀ l ∈ ls, l.natAbs ≤ s.varCount) :
    (modelOf { s with workspace := w } ls).get? = (s.modelOf ls).get? := by
  funext g
  rw [reports_modelOf, reports_modelOf]
  refine congrArg _ (congrArg _ (hg.symbols.assignment_eq hs.symbols hg.valid.symbols fun v hv => ?_))
  obtain ⟨l, hl, rfl, -⟩ := exists_of_truthOf hv
  exact hls l hl

theorem model_eq_of_enlarges (hs : Tracks s c) (ht : s.Enlarges t) :
    (model.run.run t).1.map Model.get? = (model.run.run s).1.map Model.get? := by
  obtain ⟨w, hg, rfl⟩ := ht
  by_cases hlast : c.last = some .sat
  · have hstands : s.last = some (.sat, s.scope.context) := by rw [hs.last, hlast, Option.map_some]
    have hpath := hg.manager.onePath hs.workspace.manager hs.context.contains
    simp only [run_model, hstands, hpath]
    rcases hrun : s.workspace.manager.onePath s.scope.context with fault | _ | ls
    · rfl
    · rfl
    · refine congrArg Except.ok (get?_modelOf_eq hs.workspace hg fun l hl => ?_)
      obtain ⟨v, hv, hle⟩ := natAbs_le_of_onePath hs.workspace.manager hs.context.contains hrun hl
      obtain ⟨e, -, g, i, howner, -⟩ := hs.context.exists_owner hs.workspace hv
      exact hle.trans (Allocation.owner?_eq_some howner).2
  · rw [run_model_of_ne hs hlast, run_model_of_ne (hs.grows hg) hlast]

theorem interpolant_eq_of_enlarges (hs : Tracks s c) (ht : s.Enlarges t) (p : Pattern) :
    ((interpolant p).run.run t).1 = ((interpolant p).run.run s).1 := by
  obtain ⟨w, hg, rfl⟩ := ht
  by_cases hlast : c.last = some .unsat
  · obtain ⟨e, _, hrun, w₁, f₁, g₁, r₁, hg₁, -, h₁⟩ := (meets_projected p hs hlast).exists_ok
    obtain ⟨e', _, hrun', w₂, f₂, g₂, r₂, hg₂, -, h₂⟩ := (meets_projected p (hs.grows hg) hlast).exists_ok
    have hfirst := fun e he => ((hs.first p).complete e he).imp fun _ hy => hy.2
    have hsecond := fun e he => ((hs.second p).complete e he).imp fun _ hy => hy.2
    rw [hrun, hrun', h₁.formula_eq hs.workspace hg₁ (hg.trans hg₂) hfirst hsecond h₂]
  · rw [run_interpolant_of_ne p hs hlast, run_interpolant_of_ne p (hs.grows hg) hlast]

theorem Enlarges.answersAs (ht : s.Enlarges t) (hs : Tracks s c) : s.AnswersAs t where
  depth := by
    obtain ⟨w, -, rfl⟩ := ht
    rfl
  check := by
    obtain ⟨w, -, rfl⟩ := ht
    rfl
  model := model_eq_of_enlarges hs ht
  interpolant := interpolant_eq_of_enlarges hs ht

theorem run_pop_eq_error_iff :
    ((Call.pop.request : Request DecisionSolver _).run.run t).1 = .error (.error .emptyScope) ↔ t.depth = 1 := by
  obtain ⟨w, _ | ⟨scope, outer⟩, sc, last⟩ := t
  · exact ⟨fun _ => rfl, fun _ => rfl⟩
  · exact ⟨nofun, nofun⟩

/-- After any calls, one that fails makes no difference: all answers are the same as before, and so are the results of
all checks that follow, whatever else is asked. Closing the outermost scope is such a call. -/
theorem failure_leaves_answers (hs : ofBits bits = .ok s) (calls : List Call) (ht : (Call.performAll calls s).1 = t)
    (call : Call) (hcall : call.request.run.run t = (.error h, u)) :
    t.AnswersAs u ∧ (∀ later, Call.statuses (calls ++ call :: later) s = Call.statuses (calls ++ later) s) ∧
      (((Call.pop.request : Request DecisionSolver _).run.run t).1 = .error (.error .emptyScope) ↔ t.depth = 1) := by
  have htracks : Tracks t (Call.performAll calls s).2 := ht ▸ tracks_performAll hs calls
  have henlarges := (meets_request_enlarges call htracks).of_run_error hcall
  refine ⟨henlarges.answersAs htracks, fun later => ?_, run_pop_eq_error_iff⟩
  have hsame := statuses_eq_of_tracks (henlarges.tracks htracks) htracks later
  have hafter : (calls.foldl Call.perform (s, {})).1 = t := ht
  rw [Call.statuses_append {}, Call.statuses_append {}, hafter, Call.statuses_cons_of_error hcall, hsame]

/-- A conjunction is refused for its second part, when the symbol of the first has a variable already. -/
theorem failure_leaves_answers_midway : ∃ s t u h, ofBits 3 = .ok s ∧
    (Call.performAll
      [.assert (some .a) (.sym ⟨⟨"x", .bool⟩, 0⟩), .assert (some .b) (.not (.sym ⟨⟨"x", .bool⟩, 0⟩)), .check] s).1 = t ∧
    (Call.assert none (.and [.sym ⟨⟨"y", .bool⟩, 0⟩, .int 3])).request.run.run t = (.error h, u) ∧
    1 < u.varCount ∧ t.AnswersAs u := by
  have hfails : ∃ s, ofBits 3 = .ok s ∧ ∃ h u,
      (Call.assert none (.and [.sym ⟨⟨"y", .bool⟩, 0⟩, .int 3])).request.run.run (Call.performAll
        [.assert (some .a) (.sym ⟨⟨"x", .bool⟩, 0⟩), .assert (some .b) (.not (.sym ⟨⟨"x", .bool⟩, 0⟩)), .check] s).1 =
          (.error h, u) ∧ 1 < u.varCount :=
    ⟨_, rfl, Meets.exists_error (by decide +kernel)⟩
  obtain ⟨s, hs, h, u, hcall, hmore⟩ := hfails
  exact ⟨s, _, u, h, hs, rfl, hcall, hmore, (failure_leaves_answers hs _ rfl _ hcall).1⟩

end DecisionSolver

end Invariance
