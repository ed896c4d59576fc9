import Invariance.Proofs.Engine.Chronology
import Invariance.Proofs.Engine.Conversations
import Invariance.Proofs.Formula.Unfolding

/-!
The scopes that turns leave open. With a solver that decides by diagrams, a turn that comes to an end leaves as many as
it found. One that an error breaks off leaves open what it had opened until then, except that interpolation closes its
outermost scope first. Where errors are possible is settled by the kinds of the formulas of the system, whatever else
they are.
-/

namespace Invariance

/-! ### Depths of solvers -/

namespace DecisionSolver

variable {x : DecisionSolver} {c : Context} {n : Nat} {status : Status}

/-- The solver keeps track of a context, with `n` scopes around the innermost one. -/
def Nested (n : Nat) (x : DecisionSolver) : Prop :=
  ∃ c, Tracks x c ∧ c.outer.length = n

/-- A check was the last request, and this is its answer. -/
def Answered (n : Nat) (status : Status) (x : DecisionSolver) : Prop :=
  ∃ c, Tracks x c ∧ c.outer.length = n ∧ c.last = some status

theorem Answered.nested (h : Answered n status x) : Nested n x := by
  obtain ⟨c, ht, hn, -⟩ := h
  exact ⟨c, ht, hn⟩

theorem Tracks.depth_eq (h : Tracks x c) : x.depth = c.outer.length + 1 := by
  have hlength : ∀ {w scs outer}, Stacked w scs outer → scs.length = outer.length := by
    intro w scs outer hstacked
    induction hstacked with
    | nil => rfl
    | cons _ _ _ ih => rw [List.length_cons, List.length_cons, ih]
  have := hlength h.stacked
  rwa [List.length_cons, List.length_cons] at this

theorem Nested.depth_eq (h : Nested n x) : x.depth = n + 1 := by
  obtain ⟨c, ht, rfl⟩ := h
  exact ht.depth_eq

end DecisionSolver

/-! ### Conversations that are broken off -/

/-- The error comes from the turn of a strategy, and not from the schedule or the solvers that were supplied. -/
def CheckError.isFromTurn : CheckError → Bool
  | .solver _ | .frame _ => true
  | .sharedSolver .. | .missingSolver .. | .inductionWithoutBmc _ => false

open DecisionSolver

/-- A conversation is broken off by a fault, or by an error with as many scopes around the innermost one as `K` says. -/
def BrokenOff (K : Nat → Prop) (h : Halt CheckError) (t : Session DecisionSolver) : Prop :=
  ∀ e, h = .error e → e.isFromTurn = true ∧ t.log ≠ #[] ∧ ∃ k, K k ∧ Nested k t.solver

section Talk

variable {K K' : Nat → Prop} {h : Halt CheckError} {ses : Session DecisionSolver} {n : Nat} {α S A : Type}
variable {E : Halt CheckError → Session DecisionSolver → Prop}

theorem BrokenOff.mono (hb : BrokenOff K h ses) (hK : ∀ k, K k → K' k) : BrokenOff K' h ses := by
  intro e he
  obtain ⟨hfrom, hlog, k, hk, hn⟩ := hb e he
  exact ⟨hfrom, hlog, k, hK k hk, hn⟩

theorem brokenOff_fault (f : Fault) : BrokenOff K (.fault f) ses :=
  fun _ => nofun

theorem Talk.nested_ofFault (x : Except Fault α) :
    Meets (Talk.ofFault x) ses (fun a t => x = .ok a ∧ t = ses) (BrokenOff K) := by
  cases x with
  | ok a => exact ⟨rfl, rfl⟩
  | error f => exact brokenOff_fault f

/-- Only a formula that is no predicate is refused. -/
theorem Talk.nested_assert_of (hn : Nested n ses.solver) (p : Option Partition) (e : Formula)
    (hK : (¬ e.Predicate fun _ => True) → K n) :
    Meets (Talk.assert p e) ses (fun _ t => Nested n t.solver ∧ e.Predicate fun _ => True) (BrokenOff K) := by
  obtain ⟨c, ht, hn⟩ := hn
  refine Talk.meets_request.mpr ((DecisionSolver.meets_assert ht p).mono ?_ ?_)
  · exact fun _ _ ht' => ⟨⟨_, ht'.1, hn⟩, ht'.2⟩
  · rintro (f | y) t ⟨hsame, hnot⟩
    · exact brokenOff_fault f
    · rintro _ ⟨⟩
      exact ⟨rfl, Array.push_ne_empty, n, hK hnot, c, hsame.tracks ht, hn⟩

theorem Talk.nested_assertAll_of (hn : Nested n ses.solver) (p : Option Partition) (es : List Formula)
    (hK : (¬ ∀ e ∈ es, e.Predicate fun _ => True) → K n) :
    Meets (Talk.assertAll p es) ses (fun _ t => Nested n t.solver) (BrokenOff K) := by
  refine meets_forM (fun _ (t : Session DecisionSolver) => Nested n t.solver) ?_ hn
  intro done e rest t hes ht
  have he : (¬ e.Predicate fun _ => True) → K n := fun hnot => hK fun hall => hnot (hall e (by simp [hes]))
  exact (Talk.nested_assert_of ht p e he).imp fun _ _ ht' => ht'.1

theorem Talk.nested_assert (hn : Nested n ses.solver) (p : Option Partition) (e : Formula) :
    Meets (Talk.assert p e) ses (fun _ t => Nested n t.solver) (BrokenOff (· = n)) :=
  (nested_assert_of (K := (· = n)) hn p e fun _ => rfl).imp fun _ _ ht => ht.1

theorem Talk.nested_assertAll (hn : Nested n ses.solver) (p : Option Partition) (es : List Formula) :
    Meets (Talk.assertAll p es) ses (fun _ t => Nested n t.solver) (BrokenOff (· = n)) :=
  nested_assertAll_of hn p es fun _ => rfl

theorem Talk.nested_push (hn : Nested n ses.solver) :
    Meets (Talk.push : Talk DecisionSolver Unit) ses (fun _ t => Nested (n + 1) t.solver) E := by
  obtain ⟨c, ht, rfl⟩ := hn
  exact ⟨c.push, tracks_push ht, rfl⟩

theorem Talk.nested_pop (hn : Nested (n + 1) ses.solver) :
    Meets (Talk.pop : Talk DecisionSolver Unit) ses (fun _ t => Nested n t.solver ∧ t.log ≠ #[]) E := by
  obtain ⟨c, ht, hn⟩ := hn
  refine Talk.meets_request.mpr ((DecisionSolver.meets_pop ht).mono ?_ ?_)
  · rintro _ t ⟨scope, outer, houter, ht'⟩
    rw [houter, List.length_cons, Nat.add_right_cancel_iff] at hn
    exact ⟨⟨_, ht', hn⟩, Array.push_ne_empty⟩
  · rintro _ t ⟨hnil, -⟩
    rw [hnil] at hn
    cases hn

theorem Talk.nested_check (hn : Nested n ses.solver) :
    Meets (Talk.check : Talk DecisionSolver Status) ses (fun status t => Answered n status t.solver) E := by
  obtain ⟨c, ht, hn⟩ := hn
  refine Talk.meets_request.mpr ((DecisionSolver.meets_check ht).mono ?_ fun _ _ => False.elim)
  exact fun status _ ht' => ⟨_, ht'.1, hn, rfl⟩

theorem Talk.nested_interpolant (hn : Answered n .unsat ses.solver) (p : Pattern) :
    Meets (Talk.interpolant p : Talk DecisionSolver Formula) ses (fun _ t => Nested n t.solver ∧ t.log ≠ #[]) E := by
  obtain ⟨c, ht, hn, hlast⟩ := hn
  refine Talk.meets_request.mpr ((DecisionSolver.meets_interpolant p ht hlast).mono ?_ fun _ _ => False.elim)
  exact fun _ _ ht' => ⟨⟨c, ht'.1, hn⟩, Array.push_ne_empty⟩

/-- Where a check found assertions satisfiable, only faults keep a model from being read off. -/
theorem Talk.nested_model (hn : Answered n .sat ses.solver) :
    Meets (Talk.model : Talk DecisionSolver Model) ses (fun m t => Nested n t.solver ∧ ∃ σ, m.Reports σ)
      (BrokenOff K) := by
  obtain ⟨c, ht, hn, hlast⟩ := hn
  have hrun : (Solver.model : Request DecisionSolver Model).run.run ses.solver = _ := run_model
  simp only [ht.last, hlast, Option.map_some, Diagram.Manager.onePath, if_neg (ht.context_ne_zero hlast)] at hrun
  apply Talk.meets_request.mpr
  cases hpath : ses.solver.workspace.manager.pathWithin (ses.solver.scope.context.index + 1)
      ses.solver.scope.context with
  | error f =>
      rw [hpath] at hrun
      exact meets_of_run_error hrun (brokenOff_fault f)
  | ok ls =>
      rw [hpath] at hrun
      exact meets_of_run_ok hrun ⟨⟨c, ht, hn⟩, _, reports_modelOf⟩

/-- A scope is closed after a conversation that was broken off. -/
theorem BrokenOff.close {e : CheckError} (hb : BrokenOff (· = n + 1) (.error e) ses) :
    Meets (Talk.pop : Talk DecisionSolver Unit) ses (fun _ t => BrokenOff (· = n) (.error e) t) E := by
  obtain ⟨hfrom, -, _, rfl, hn⟩ := hb e rfl
  refine (Talk.nested_pop hn).imp ?_
  rintro _ t ⟨hn', hlog⟩ _ ⟨⟩
  exact ⟨hfrom, hlog, n, rfl, hn'⟩

end Talk

/-! ### Formulas of an unrolling -/

namespace Unrolling

variable {s : TransitionSystem} {u : Unrolling} {e : Formula} {es : List Formula} {m f : Nat}

theorem After.unfold_init (h : After s m u) : s.init.unfold .zero = .ok u.init := by
  induction h with
  | start h =>
      obtain ⟨e, he, rfl⟩ := of_ofSystem_eq_ok h
      exact he
  | extend _ hext ih =>
      obtain ⟨c, e, d, -, -, -, rfl⟩ := of_extend_eq_ok hext
      exact ih

theorem After.predicate_init (h : After s m u) : (u.init.Predicate fun _ => True) ↔ s.init.HasKind .bool :=
  Formula.predicate_of_unfold h.unfold_init

theorem After.exists_of_propAt (h : After s m u) (he : u.propAt f = .ok e) : ∃ c, s.prop.unfold c = .ok e := by
  obtain ⟨c, -, hc⟩ := Formula.bind_eq_ok.mp he
  rw [h.clocked.system] at hc
  exact ⟨c, hc⟩

theorem After.predicate_propAt (h : After s m u) (he : u.propAt f = .ok e) :
    (e.Predicate fun _ => True) ↔ s.prop.HasKind .bool := by
  obtain ⟨c, hc⟩ := h.exists_of_propAt he
  exact Formula.predicate_of_unfold hc

theorem After.predicate_violationAt (h : After s m u) (he : u.violationAt f = .ok e) :
    (e.Predicate fun _ => True) ↔ s.prop.HasKind .bool := by
  obtain ⟨good, hgood, he⟩ := Formula.bind_eq_ok.mp he
  cases he
  obtain ⟨c, hc⟩ := h.exists_of_propAt hgood
  exact Formula.predicate_mkNot_of_unfold hc

theorem predicate_allSame {i j : Nat} (h : u.allSame i j = .ok e) : e.Predicate fun _ => True := by
  obtain ⟨c, -, h⟩ := Formula.bind_eq_ok.mp h
  obtain ⟨d, -, h⟩ := Formula.bind_eq_ok.mp h
  cases h
  exact .mkAnd (List.forall_mem_map.mpr fun x _ => predicate_sameAt trivial trivial)

theorem exists_of_filterMapM_eq_ok {ε α β : Type} {p : α → Except ε (Option β)} {l : List α} {bs : List β}
    (h : l.filterMapM p = .ok bs) : ∀ b ∈ bs, ∃ a ∈ l, p a = .ok (some b) := by
  induction l generalizing bs with
  | nil =>
      cases h
      simp
  | cons a l ih =>
      rw [List.filterMapM_cons] at h
      obtain ⟨o, ha, h⟩ := Formula.bind_eq_ok.mp h
      have hrest : ∀ {rest}, l.filterMapM p = .ok rest → ∀ b ∈ rest, ∃ a' ∈ a :: l, p a' = .ok (some b) :=
        fun hl b hb => (ih hl b hb).imp fun _ h' => ⟨List.mem_cons_of_mem a h'.1, h'.2⟩
      cases o with
      | none => exact hrest h
      | some b =>
          obtain ⟨rest, hl, h⟩ := Formula.bind_eq_ok.mp h
          cases h
          exact List.forall_mem_cons.mpr ⟨⟨a, List.mem_cons_self, ha⟩, hrest hl⟩

/-- That frames differ is never refused, whatever the system is. -/
theorem predicate_distinctFromEarlier (h : u.distinctFromEarlier f = .ok es) :
    ∀ e ∈ es, e.Predicate fun _ => True := by
  intro e he
  obtain ⟨i, -, hi⟩ := exists_of_filterMapM_eq_ok h e he
  obtain ⟨c, -, hi⟩ := Formula.bind_eq_ok.mp hi
  obtain ⟨d, -, hi⟩ := Formula.bind_eq_ok.mp hi
  split at hi
  · cases hi
  · obtain ⟨same, hsame, hi⟩ := Formula.bind_eq_ok.mp hi
    cases hi
    exact (predicate_allSame hsame).mkNot

/-- Only faults keep a trace from being read off a model that reports an assignment. -/
theorem exists_fault_of_trace {S A : Type} {r : Reconstruction S A} {model : Model} {σ : Assignment}
    {h : Halt FrameError} (hσ : model.Reports σ) (htrace : u.trace model f r = .error h) : ∃ x, h = .fault x := by
  have hstates := Formula.mapM_eq_ok (p := fun c => model.stateAt c u.vars) (l := u.clocks.toList.take (f + 1))
    fun c _ => hσ.stateAt c u.vars
  rw [trace, hstates] at htrace
  cases hc : u.clockAt f with
  | error x =>
      rw [hc] at htrace
      exact ⟨x, (Except.error.inj htrace).symm⟩
  | ok c =>
      rw [hc] at htrace
      cases hlist : (u.clocks.toList.take (f + 1)).map fun c => σ.valuation u.vars c.get with
      | nil =>
          rw [hlist] at htrace
          exact ⟨.emptyTrace, (Except.error.inj htrace).symm⟩
      | cons first rest =>
          rw [hlist] at htrace
          cases htrace

end Unrolling

/-! ### Turns -/

namespace TransitionSystem

/-- Does an error in a turn of the strategy leave a scope open that the turn opened? In a search, the negated property
is the only formula that is asserted in a scope of its own. -/
def LeavesOpen (s : TransitionSystem) : Strategy → Prop
  | .bmc => s.init.HasKind .bool ∧ ¬ s.prop.HasKind .bool
  | .kInduction => False
  | .imc => True

/-- With `n` scopes around the innermost one before a turn that is broken off, there are `k` after it. -/
def BreaksAt (s : TransitionSystem) (a : Strategy) (n k : Nat) : Prop :=
  s.LeavesOpen a ∧ k = n + 1 ∨ ¬ s.LeavesOpen a ∧ k = n

/-- The formulas that were accepted by the time the strategy has dealt with a frame or a step. -/
def Accepted (s : TransitionSystem) : Strategy → Prop
  | .bmc => s.init.HasKind .bool ∧ s.prop.HasKind .bool
  | .kInduction => s.prop.HasKind .bool
  | .imc => True

end TransitionSystem

variable {s : TransitionSystem} {u : Unrolling} {ses : Session DecisionSolver} {m n p : Nat} {K : Nat → Prop}
variable {S A : Type} {r : Reconstruction S A} {loopFree : Bool}

open Unrolling

namespace Search

theorem nested_counterexample (hn : Answered n .sat ses.solver) (frame : Nat) :
    Meets (counterexample u r frame) ses (fun _ t => Nested n t.solver) (BrokenOff K) := by
  apply (Talk.nested_model hn).bind
  rintro model ses₁ ⟨h₁, σ, hσ⟩
  cases htrace : u.trace model frame r with
  | ok t => exact h₁
  | error h =>
      obtain ⟨f, rfl⟩ := exists_fault_of_trace hσ htrace
      exact brokenOff_fault f

/-- A check for a violation, and the end of its scope. -/
theorem nested_decide {ρ : Type} (hn : Nested (n + 1) ses.solver) (frame : Nat) (violated : Trace S A → ρ)
    (unknown good : ρ) :
    Meets (do
      let outcome ← match ← Talk.check with
        | .sat => do pure (violated (← counterexample u r frame))
        | .unknown => pure unknown
        | .unsat => pure good
      Talk.pop
      return outcome) ses (fun _ t => Nested n t.solver) (BrokenOff K) := by
  apply (Talk.nested_check hn).bind
  intro status ses₁ h₁
  have hclose : ∀ (outcome : ρ) (t : Session DecisionSolver), Nested (n + 1) t.solver →
      Meets (do Talk.pop; return outcome) t (fun _ t' => Nested n t'.solver) (BrokenOff K) :=
    fun _ _ ht => (Talk.nested_pop ht).bind fun _ _ ht' => ht'.1
  cases status with
  | sat =>
      apply (nested_counterexample h₁ frame).bind
      exact fun _ ses₂ h₂ => hclose _ ses₂ h₂
  | unknown | unsat => exact hclose _ _ h₁.nested

variable (hu : After s m u)

include hu

theorem nested_violation (hinit : s.init.HasKind .bool) (hn : Nested n ses.solver) (frame : Nat) :
    Meets (violation u r frame) ses (fun _ t => Nested n t.solver ∧ s.prop.HasKind .bool)
      (BrokenOff (s.BreaksAt .bmc n)) := by
  apply (Talk.nested_push hn).bind
  intro _ ses₁ h₁
  apply (Talk.nested_ofFault _).bind
  rintro bad _ ⟨hbad, rfl⟩
  have hprop := hu.predicate_violationAt hbad
  apply (Talk.nested_assert_of h₁ none bad fun hnot => .inl ⟨⟨hinit, mt hprop.mpr hnot⟩, rfl⟩).bind
  rintro _ ses₂ ⟨h₂, haccepted⟩
  exact (nested_decide h₂ frame _ _ _).imp fun _ _ h₃ => ⟨h₃, hprop.mp haccepted⟩

/-- The first frame shows whether the initial states and the property can be asserted. -/
theorem nested_examine (hn : Nested n ses.solver) {frame : Nat} (haccepted : 0 < frame → s.Accepted .bmc) :
    Meets (examine u loopFree r frame) ses (fun _ t => Nested n t.solver ∧ s.Accepted .bmc)
      (BrokenOff (s.BreaksAt .bmc n)) := by
  have hreach : Meets (reach u frame : Talk DecisionSolver Unit) ses
      (fun _ t => Nested n t.solver ∧ s.init.HasKind .bool) (BrokenOff (s.BreaksAt .bmc n)) := by
    cases frame with
    | zero =>
        apply (Talk.nested_assert_of hn none u.init fun hnot => ?_).imp fun _ _ ht => ⟨ht.1, hu.predicate_init.mp ht.2⟩
        exact .inr ⟨fun hopen => hnot (hu.predicate_init.mpr hopen.1), rfl⟩
    | succ frame =>
        obtain ⟨hinit, hprop⟩ := haccepted frame.succ_pos
        apply (Talk.nested_ofFault _).bind
        rintro step _ ⟨-, rfl⟩
        apply (Talk.nested_assert_of hn none step fun _ => ?_).imp fun _ _ ht => ⟨ht.1, hinit⟩
        exact .inr ⟨fun hopen => hopen.2 hprop, rfl⟩
  apply hreach.bind
  rintro _ ses₁ ⟨h₁, hinit⟩
  have hrest : ∀ t : Session DecisionSolver, Nested n t.solver → Meets (violation u r frame) t
      (fun _ t' => Nested n t'.solver ∧ s.Accepted .bmc) (BrokenOff (s.BreaksAt .bmc n)) := fun t ht =>
    (nested_violation hu hinit ht frame).imp fun _ _ ht' => ⟨ht'.1, hinit, ht'.2⟩
  split
  · next hfree =>
      have hpos : 0 < frame := by simpa using (Bool.and_eq_true_iff.mp hfree).2
      have hbeyond : Meets (isBeyondPaths u frame : Talk DecisionSolver Bool) ses₁ (fun _ t => Nested n t.solver)
          (BrokenOff (s.BreaksAt .bmc n)) := by
        apply (Talk.nested_ofFault _).bind
        rintro es _ ⟨hes, rfl⟩
        apply (Talk.nested_assertAll_of h₁ none es fun hnot => absurd (predicate_distinctFromEarlier hes) hnot).bind
        intro _ ses₂ h₂
        exact (Talk.nested_check h₂).bind fun _ _ ht => ht.nested
      apply hbeyond.bind
      intro beyond ses₂ h₂
      cases beyond with
      | true => exact ⟨h₂, haccepted hpos⟩
      | false => exact hrest ses₂ h₂
  · exact hrest ses₁ h₁

theorem nested_examineFrom (hn : Nested n ses.solver) (k frame : Nat) (haccepted : 0 < frame → s.Accepted .bmc) :
    Meets (examineFrom u loopFree r k frame) ses (fun o t => Nested n t.solver ∧ (0 < o.2 → s.Accepted .bmc))
      (BrokenOff (s.BreaksAt .bmc n)) := by
  induction k generalizing frame ses with
  | zero => exact ⟨hn, haccepted⟩
  | succ k ih =>
      apply (nested_examine hu hn haccepted).bind
      rintro outcome ses₁ ⟨h₁, haccepted'⟩
      cases outcome with
      | some o => exact ⟨h₁, fun _ => haccepted'⟩
      | none => exact ih h₁ (frame + 1) fun _ => haccepted'

end Search

namespace Induction

variable (hu : After s m u)

include hu

theorem nested_prolong (hn : Nested n ses.solver) (frame : Nat) :
    Meets (prolong u loopFree frame) ses (fun _ t => Nested n t.solver ∧ s.prop.HasKind .bool)
      (BrokenOff (s.BreaksAt .kInduction n)) := by
  have hK : s.BreaksAt .kInduction n n := .inr ⟨id, rfl⟩
  apply (Talk.nested_ofFault _).bind
  rintro good _ ⟨hgood, rfl⟩
  apply (Talk.nested_assert_of hn none good fun _ => hK).bind
  rintro _ ses₁ ⟨h₁, haccepted⟩
  have hprop := (hu.predicate_propAt hgood).mp haccepted
  apply (Talk.nested_ofFault _).bind
  rintro step _ ⟨-, rfl⟩
  apply (Talk.nested_assert_of h₁ none step fun _ => hK).bind
  rintro _ ses₂ ⟨h₂, -⟩
  cases loopFree with
  | false => exact ⟨h₂, hprop⟩
  | true =>
      apply (Talk.nested_ofFault _).bind
      rintro es _ ⟨-, rfl⟩
      exact (Talk.nested_assertAll_of h₂ none es fun _ => hK).imp fun _ _ ht => ⟨ht, hprop⟩

/-- The property has been asserted before its negation is. -/
theorem nested_conclude (hprop : s.prop.HasKind .bool) (hn : Nested n ses.solver) :
    Meets (conclude u) ses (fun _ t => Nested n t.solver) (BrokenOff K) := by
  apply (Talk.nested_push hn).bind
  intro _ ses₁ h₁
  apply (Talk.nested_ofFault _).bind
  rintro bad _ ⟨hbad, rfl⟩
  apply (Talk.nested_assert_of h₁ none bad fun hnot => absurd ((hu.predicate_violationAt hbad).mpr hprop) hnot).bind
  rintro _ ses₂ ⟨h₂, -⟩
  apply (Talk.nested_check h₂).bind
  intro status ses₃ h₃
  exact (Talk.nested_pop h₃.nested).bind fun _ _ ht => ht.1

theorem nested_turn (hm : 0 < m) (hn : Nested n ses.solver) (haccepted : 0 < p → s.Accepted .kInduction) :
    Meets (turn (S := S) (A := A) u loopFree p) ses
      (fun o t => Nested n t.solver ∧ (0 < o.2 → s.Accepted .kInduction)) (BrokenOff (s.BreaksAt .kInduction n)) := by
  have hsteps : u.steps.size = m := hu.sizes.2
  have hpath : Meets ((List.range' p (u.steps.size - p)).forM (prolong u loopFree) : Talk DecisionSolver Unit) ses
      (fun _ t => Nested n t.solver ∧ s.prop.HasKind .bool) (BrokenOff (s.BreaksAt .kInduction n)) := by
    have hloop := meets_forM (E := BrokenOff (s.BreaksAt .kInduction n)) (f := prolong u loopFree)
      (l := List.range' p (u.steps.size - p)) (fun done (t : Session DecisionSolver) => Nested n t.solver ∧
        (0 < p ∨ done ≠ [] → s.prop.HasKind .bool))
      (fun done frame _ t _ ht => (nested_prolong hu ht.1 frame).imp fun _ _ ht' => ⟨ht'.1, fun _ => ht'.2⟩)
      ⟨hn, fun h => haccepted (h.resolve_right fun hne => hne rfl)⟩
    refine hloop.imp fun _ t ht => ⟨ht.1, ht.2 ?_⟩
    by_cases hp : 0 < p
    · exact .inl hp
    · refine .inr (List.ne_nil_of_length_pos ?_)
      rw [List.length_range', hsteps]
      omega
  apply hpath.bind
  rintro _ ses₁ ⟨h₁, hprop⟩
  apply (nested_conclude hu hprop h₁).bind
  intro status ses₂ h₂
  cases status with
  | unsat | sat | unknown => exact ⟨h₂, fun _ => hprop⟩

end Induction

namespace Interpolation

variable {rounds : Nat} {covered : Formula}

theorem nested_violation (hn : Nested n ses.solver) (frame : Nat) :
    Meets (violation u r frame) ses (fun _ t => Nested n t.solver) (BrokenOff (· = n + 1)) := by
  apply (Talk.nested_push hn).bind
  intro _ ses₁ h₁
  apply (Talk.nested_assert h₁ none u.init).bind
  intro _ ses₂ h₂
  apply (Talk.nested_assertAll h₂ none _).bind
  intro _ ses₃ h₃
  apply (Talk.nested_ofFault _).bind
  rintro bad _ ⟨-, rfl⟩
  apply (Talk.nested_assert h₃ none bad).bind
  intro _ ses₄ h₄
  exact Search.nested_decide h₄ frame _ _ _

theorem nested_violationsFrom (hn : Nested n ses.solver) (k frame : Nat) :
    Meets (violationsFrom u r k frame) ses (fun _ t => Nested n t.solver) (BrokenOff (· = n + 1)) := by
  induction k generalizing frame ses with
  | zero => exact hn
  | succ k ih =>
      apply (nested_violation hn frame).bind
      intro outcome ses₁ h₁
      cases outcome with
      | some o => exact h₁
      | none => exact ih h₁ (frame + 1)

theorem nested_split (hn : Nested n ses.solver) (first : Formula) :
    Meets (split u first : Talk DecisionSolver Unit) ses (fun _ t => Nested (n + 1) t.solver)
      (BrokenOff (· = n + 1)) := by
  apply (Talk.nested_push hn).bind
  intro _ ses₁ h₁
  apply (Talk.nested_assert h₁ (some .a) first).bind
  intro _ ses₂ h₂
  apply (Talk.nested_ofFault _).bind
  rintro step _ ⟨-, rfl⟩
  apply (Talk.nested_assert h₂ (some .a) step).bind
  intro _ ses₃ h₃
  exact Talk.nested_assertAll h₃ (some .b) _

theorem nested_assertViolation (hn : Nested n ses.solver) :
    Meets (assertViolation u : Talk DecisionSolver Unit) ses (fun _ t => Nested n t.solver) (BrokenOff (· = n)) := by
  apply (Talk.nested_ofFault _).bind
  rintro bad _ ⟨-, rfl⟩
  exact Talk.nested_assert hn (some .b) bad

/-- The scope for loop-free paths is closed in any case. -/
theorem nested_isBeyondPaths (hn : Nested n ses.solver) :
    Meets (isBeyondPaths u : Talk DecisionSolver Bool) ses (fun _ t => Nested n t.solver) (BrokenOff K) := by
  apply (Talk.nested_push hn).bind
  intro _ ses₁ h₁
  apply (Talk.nested_ofFault _).bind
  rintro es _ ⟨hes, rfl⟩
  apply (Talk.nested_assertAll_of h₁ none es fun hnot => absurd (predicate_distinctFromEarlier hes) hnot).bind
  intro _ ses₂ h₂
  apply (Talk.nested_check h₂).bind
  intro status ses₃ h₃
  exact (Talk.nested_pop h₃.nested).bind fun _ _ ht => ht.1

/-- An interpolant that cannot be moved back ends the turn. -/
theorem nested_image (hn : Answered n .unsat ses.solver) :
    Meets (image u : Talk DecisionSolver Formula) ses (fun _ t => Nested n t.solver) (BrokenOff (· = n)) := by
  apply (Talk.nested_interpolant hn .forward).bind
  rintro e ses₁ ⟨h₁, hlog⟩
  apply (Talk.nested_ofFault _).bind
  rintro clock _ ⟨-, rfl⟩
  cases e.fold clock with
  | error x =>
      rintro _ ⟨⟩
      exact ⟨rfl, hlog, n, rfl, h₁⟩
  | ok e =>
      apply (Talk.nested_ofFault _).bind
      rintro clock₀ _ ⟨-, rfl⟩
      apply (Talk.nested_ofFault _).imp
      rintro new _ ⟨-, rfl⟩
      exact h₁

theorem nested_isCovered (hn : Nested n ses.solver) (new covered : Formula) :
    Meets (isCovered new covered : Talk DecisionSolver Status) ses (fun _ t => Nested n t.solver)
      (BrokenOff (· = n + 1)) := by
  apply (Talk.nested_push hn).bind
  intro _ ses₁ h₁
  apply (Talk.nested_assert h₁ (some .a) new).bind
  intro _ ses₂ h₂
  apply (Talk.nested_assert h₂ (some .a) covered.mkNot).bind
  intro _ ses₃ h₃
  apply (Talk.nested_check h₃).bind
  intro status ses₄ h₄
  exact (Talk.nested_pop h₄.nested).bind fun _ _ ht => ht.1

/-- In each round, the scope of the last path is closed before that of the next one is opened. -/
theorem nested_cover (rounds : Nat) (hn : Answered (n + 1) .unsat ses.solver) :
    Meets (cover (S := S) (A := A) u rounds covered) ses (fun _ t => Nested n t.solver)
      (BrokenOff (· = n + 1)) := by
  induction rounds generalizing covered ses with
  | zero => exact brokenOff_fault _
  | succ k ih =>
      apply (nested_image hn).bind
      intro new ses₁ h₁
      apply (Talk.nested_pop h₁).bind
      rintro _ ses₂ ⟨h₂, -⟩
      apply (nested_isCovered h₂ new covered).bind
      intro status ses₃ h₃
      cases status with
      | unsat | unknown => exact h₃
      | sat =>
          apply (nested_split h₃ new).bind
          intro _ ses₄ h₄
          apply (nested_assertViolation h₄).bind
          intro _ ses₅ h₅
          apply (Talk.nested_check h₅).bind
          intro status ses₆ h₆
          cases status with
          | unsat => exact ih h₆
          | sat | unknown => exact (Talk.nested_pop h₆.nested).bind fun _ _ ht => ht.1

theorem nested_decideViolation (hn : Nested (n + 1) ses.solver) :
    Meets (decideViolation u rounds r p) ses (fun _ t => Nested n t.solver) (BrokenOff (· = n + 1)) := by
  apply (nested_assertViolation hn).bind
  intro _ ses₁ h₁
  apply (Talk.nested_check h₁).bind
  intro status ses₂ h₂
  cases status with
  | sat =>
      apply (Search.nested_counterexample h₂ u.lastFrame).bind
      intro t ses₃ h₃
      exact (Talk.nested_pop h₃).bind fun _ _ ht => ht.1
  | unknown => exact (Talk.nested_pop h₂.nested).bind fun _ _ ht => ht.1
  | unsat => exact (nested_cover rounds h₂).bind fun _ _ ht => ht

theorem nested_refine (hn : Nested n ses.solver) :
    Meets (refine u rounds loopFree r p) ses (fun _ t => Nested n t.solver) (BrokenOff (· = n + 1)) := by
  rw [refine_eq]
  apply (nested_split hn u.init).bind
  intro _ ses₁ h₁
  cases loopFree with
  | false => exact nested_decideViolation h₁
  | true =>
      apply (nested_isBeyondPaths h₁).bind
      intro beyond ses₂ h₂
      cases beyond with
      | true => exact (Talk.nested_pop h₂).bind fun _ _ ht => ht.1
      | false => exact nested_decideViolation h₂

/-- Of the two scopes that are open when the newest frame is broken off, the outer one is closed. -/
theorem nested_turn (hn : Nested n ses.solver) :
    Meets (turn u rounds loopFree r p) ses (fun _ t => Nested n t.solver) (BrokenOff (· = n + 1)) := by
  apply (nested_violationsFrom hn _ p).bind
  rintro ⟨_ | o, p⟩ ses₁ h₁
  · apply (Talk.nested_push h₁).bind
    intro _ ses₂ h₂
    apply Talk.meets_andFinally_of_last (nested_refine h₂)
    · exact fun _ _ h₃ => (Talk.nested_pop h₃).imp fun _ _ ht => ht.1
    · exact fun _ _ _ => brokenOff_fault _
    · exact fun _ _ hb => hb.close
  · exact h₁

end Interpolation

end Invariance
