import Invariance.Engine.Session
import Invariance.Proofs.Computation
import Invariance.Proofs.Engine.Traces

/-!
What the strategies rely on in a solver. A solver keeps track of a context: the assertions of its open scopes, and
the last check while it stands. The contract says what its answers mean in the context.
-/

namespace Invariance

/-- A formula that was asserted, on one side or on none. -/
abbrev Assertion := Option Partition × Formula

/-- The assertions of the innermost scope and of those around it, and the last check if nothing happened since. -/
structure Context where
  outer : List (List Assertion) := []
  scope : List Assertion := []
  last : Option Status := none

namespace Context

variable {c : Context} {p : Option Partition} {e : Formula} {es : List Formula} {σ : Assignment} {a : Assertion}

/-- The assertions of all open scopes. -/
def active (c : Context) : List Assertion :=
  c.scope ++ c.outer.flatten

def assert (c : Context) (p : Option Partition) (e : Formula) : Context :=
  { c with scope := c.scope ++ [(p, e)], last := none }

def assertAll (c : Context) (p : Option Partition) (es : List Formula) : Context :=
  es.foldl (fun c e => c.assert p e) c

def push (c : Context) : Context where
  outer := c.scope :: c.outer

def checked (c : Context) (s : Status) : Context :=
  { c with last := some s }

/-- The assignment makes all assertions true. -/
def Satisfied (c : Context) (σ : Assignment) : Prop :=
  ∀ a ∈ c.active, σ.Satisfies a.2

/-- The assertions that count with the first side of a pattern: those on it and those on no side. -/
def First (c : Context) (p : Pattern) (a : Assertion) : Prop :=
  a ∈ c.active ∧ (a.1 = none ∨ a.1 = some p.first)

/-- The assertions on the second side of a pattern. -/
def Second (c : Context) (p : Pattern) (a : Assertion) : Prop :=
  a ∈ c.active ∧ a.1 = some p.second

/-- The formula follows from the first side, contradicts the second, and speaks of what both speak of. -/
structure Interpolant (c : Context) (p : Pattern) (e : Formula) : Prop where
  implied : ∀ σ : Assignment, (∀ a, c.First p a → σ.Satisfies a.2) → σ.Satisfies e
  refuting : ∀ σ : Assignment, (∀ a, c.Second p a → σ.Satisfies a.2) → ¬ σ.Satisfies e
  shared : ∀ g, .sym g ∈ e.subformulas →
    (∃ a, c.First p a ∧ .sym g ∈ a.2.subformulas) ∧ ∃ a, c.Second p a ∧ .sym g ∈ a.2.subformulas

@[simp] theorem mem_active_assert : a ∈ (c.assert p e).active ↔ a ∈ c.active ∨ a = (p, e) := by
  simp only [active, assert, List.mem_append, List.mem_singleton]
  tauto

@[simp] theorem mem_active_assertAll : a ∈ (c.assertAll p es).active ↔ a ∈ c.active ∨ ∃ e ∈ es, a = (p, e) := by
  induction es generalizing c with
  | nil => simp [assertAll]
  | cons e es ih =>
      rw [assertAll, List.foldl_cons, ← assertAll, ih, mem_active_assert]
      simp only [List.mem_cons, exists_eq_or_imp, or_assoc]

@[simp] theorem mem_active_push : a ∈ c.push.active ↔ a ∈ c.active := by
  simp [active, push]

@[simp] theorem outer_assertAll : (c.assertAll p es).outer = c.outer := by
  induction es generalizing c with
  | nil => rfl
  | cons e es ih => rw [assertAll, List.foldl_cons, ← assertAll, ih]; rfl

@[simp] theorem satisfied_assert : (c.assert p e).Satisfied σ ↔ c.Satisfied σ ∧ σ.Satisfies e := by
  simp only [Satisfied, mem_active_assert, or_imp, forall_and, forall_eq]

@[simp] theorem satisfied_assertAll :
    (c.assertAll p es).Satisfied σ ↔ c.Satisfied σ ∧ ∀ e ∈ es, σ.Satisfies e := by
  simp only [Satisfied, mem_active_assertAll, or_imp, forall_and, forall_exists_index, and_imp]
  refine and_congr_right fun _ => ⟨fun h e he => h _ e he rfl, ?_⟩
  rintro h _ e he rfl
  exact h e he

@[simp] theorem satisfied_push : c.push.Satisfied σ ↔ c.Satisfied σ := by
  simp only [Satisfied, mem_active_push]

@[simp] theorem satisfied_checked {s : Status} : (c.checked s).Satisfied σ ↔ c.Satisfied σ :=
  Iff.rfl

end Context

/-- The contract of a solver that keeps track of contexts. A lenient solver may refuse any request, and may leave
a check undecided; one that is not accepts all predicates, and interpolates by such. Models are right unless the
solver is `lost`, which it stays when a scope is closed. -/
structure Contract {σ : Type} [Solver σ] (lenient : Prop) (lost : σ → Prop) (Tracks : σ → Context → Prop) :
    Prop where
  /-- A formula is asserted in the innermost scope. -/
  assert : ∀ {s c} (p : Option Partition) (e : Formula), Tracks s c →
    (lenient ∨ e.Predicate fun _ => True) →
    Meets (Solver.assert p e) s (fun _ t => Tracks t (c.assert p e)) fun _ _ => lenient
  push : ∀ {s c}, Tracks s c → Tracks (Solver.push s) c.push
  /-- Exactly the innermost scope is discarded. -/
  pop : ∀ {s scope outer c}, Tracks s c → c.outer = scope :: outer →
    Meets Solver.pop s (fun _ t => Tracks t ⟨outer, scope, none⟩) fun _ _ => lenient
  lost_pop : ∀ {s}, lost s → Meets Solver.pop s (fun _ t => lost t) fun _ t => lost t
  check : ∀ {s c}, Tracks s c →
    Meets Solver.check s
      (fun status t => Tracks t (c.checked status) ∧ (status = .unsat → ∀ τ, ¬ c.Satisfied τ) ∧
        (status = .sat → ∃ τ, c.Satisfied τ) ∧ (status = .unknown → lenient))
      fun _ _ => lenient
  model : ∀ {s c}, Tracks s c → c.last = some .sat →
    Meets Solver.model s (fun m t => Tracks t c ∧ (lost t ∨ ∃ τ, c.Satisfied τ ∧ m.Reports τ))
      fun _ t => lenient ∨ lost t
  interpolant : ∀ {s c} (p : Pattern), Tracks s c → c.last = some .unsat →
    Meets (Solver.interpolant p) s
      (fun e t => Tracks t c ∧ c.Interpolant p e ∧ (lenient ∨ e.Predicate fun _ => True)) fun _ _ => lenient

/-! ### Sessions with a solver under contract -/

/-- A conversation is cut short only where `L` may be said, or by a solver that is lost. -/
def Cut {ε σ : Type} (L : Prop) (lost : σ → Prop) (_ : ε) (ses : Session σ) : Prop :=
  L ∨ lost ses.solver

namespace Talk

variable {σ α : Type} {ses : Session σ} {L : Prop} {lost : σ → Prop}

/-- A request changes the solver as it would outside the session, and the log by one exchange. -/
theorem meets_request {note : Except (Halt SolverError) α → Exchange} {r : Request σ α} {Q : α → Session σ → Prop}
    {E : Halt CheckError → Session σ → Prop} :
    Meets (request note r) ses Q E ↔ Meets r ses.solver (fun a t => Q a ⟨t, ses.log.push (note (.ok a))⟩)
      fun e t => E (e.map .solver) ⟨t, ses.log.push (note (.error e))⟩ := by
  have hrun : (request note r).run.run ses = ((r.run.run ses.solver).1.mapError (Halt.map .solver),
      ⟨(r.run.run ses.solver).2, ses.log.push (note (r.run.run ses.solver).1)⟩) := rfl
  unfold Meets
  rw [hrun]
  rcases r.run.run ses.solver with ⟨_ | _, _⟩ <;> rfl

@[simp] theorem meets_ofFault_ok {a : α} {Q : α → Session σ → Prop} {E : Halt CheckError → Session σ → Prop} :
    Meets (ofFault (.ok a)) ses Q E ↔ Q a ses :=
  Iff.rfl

/-- A conversation with a last request after it, in any case but a fault. -/
theorem meets_andFinally_of_last {talk : Talk σ α} {last : Talk σ Unit} {Q R : α → Session σ → Prop}
    {E E' : Halt CheckError → Session σ → Prop} (h : Meets talk ses Q E)
    (hlast : ∀ a t, Q a t → Meets last t (fun _ t' => R a t') E') (hfault : ∀ f t, E (.fault f) t → E' (.fault f) t)
    (herror : ∀ e t, E (.error e) t → Meets last t (fun _ t' => E' (.error e) t') E') :
    Meets (andFinally talk last) ses R E' := by
  rw [andFinally, meets_bind, meets_tryCatch, meets_bind]
  refine h.mono (fun a t ha => ?_) fun e t ht => ?_
  · exact (hlast a t ha).bind fun _ _ ha' => ha'
  · cases e with
    | fault f => exact hfault f t ht
    | error e => exact (herror e t ht).bind fun _ _ ht' => ht'

theorem meets_andFinally {talk : Talk σ α} {last : Talk σ Unit} {Q R : α → Session σ → Prop}
    (h : Meets talk ses Q (Cut L lost))
    (hlast : ∀ a t, Q a t → Meets last t (fun _ t' => R a t') (Cut L lost))
    (hlost : ∀ t : Session σ, lost t.solver →
      Meets last t (fun _ t' => lost t'.solver) fun _ t' => lost t'.solver) :
    Meets (andFinally talk last) ses R (Cut L lost) := by
  refine meets_andFinally_of_last h hlast (fun _ _ => id) fun e t ht => ?_
  cases ht with
  | inl hL => exact meets_of_forall (fun _ _ => .inl hL) fun _ _ => .inl hL
  | inr ht => exact (hlost t ht).mono (fun _ _ => .inr) fun _ _ => .inr

variable [Solver σ] {lenient : Prop} {Tracks : σ → Context → Prop} {c : Context}
-- Only models are affected when a solver is lost: of the other requests, any `gone` may be said to cut them short.
variable {gone : σ → Prop} (K : Contract lenient lost Tracks) (hL : lenient → L)

include K hL

theorem meets_assert (h : Tracks ses.solver c) (p : Option Partition) {e : Formula}
    (he : lenient ∨ e.Predicate fun _ => True) :
    Meets (Talk.assert p e) ses (fun _ t => Tracks t.solver (c.assert p e)) (Cut L gone) :=
  meets_request.mpr ((K.assert p e h he).mono (fun _ _ => id) fun _ _ h => .inl (hL h))

theorem meets_assertAll (h : Tracks ses.solver c) (p : Option Partition) {es : List Formula}
    (hes : ∀ e ∈ es, lenient ∨ e.Predicate fun _ => True) :
    Meets (Talk.assertAll p es) ses (fun _ t => Tracks t.solver (c.assertAll p es)) (Cut L gone) := by
  refine meets_forM (fun done (t : Session σ) => Tracks t.solver (c.assertAll p done)) ?_ h
  intro done e rest t hl ht
  refine (meets_assert K hL ht p (hes e (by simp [hl]))).imp fun _ u hu => ?_
  rwa [Context.assertAll, List.foldl_append]

omit hL in
theorem meets_push (h : Tracks ses.solver c) :
    Meets (Talk.push : Talk σ Unit) ses (fun _ t => Tracks t.solver c.push) (Cut L gone) :=
  K.push h

theorem meets_pop (h : Tracks ses.solver c) {scope : List Assertion} {outer : List (List Assertion)}
    (hc : c.outer = scope :: outer) :
    Meets (Talk.pop : Talk σ Unit) ses (fun _ t => Tracks t.solver ⟨outer, scope, none⟩) (Cut L gone) :=
  meets_request.mpr ((K.pop h hc).mono (fun _ _ => id) fun _ _ h => .inl (hL h))

omit hL in
theorem lost_pop (h : lost ses.solver) :
    Meets (Talk.pop : Talk σ Unit) ses (fun _ t => lost t.solver) fun _ t => lost t.solver :=
  meets_request.mpr (K.lost_pop h)

/-- Closing a scope does not find a lost solver again. -/
theorem meets_close (h : Tracks ses.solver c) {scope : List Assertion} {outer : List (List Assertion)}
    (hc : c.outer = scope :: outer) :
    Meets (Talk.pop : Talk σ Unit) ses
      (fun _ t => Tracks t.solver ⟨outer, scope, none⟩ ∧ (lost ses.solver → lost t.solver)) (Cut L gone) := by
  have hpop : Meets (Talk.pop : Talk σ Unit) ses (fun _ t => Tracks t.solver ⟨outer, scope, none⟩) (Cut L gone) :=
    meets_pop K hL h hc
  by_cases hlost : lost ses.solver
  · exact (hpop.and (lost_pop K hlost)).mono (fun _ _ ht => ⟨ht.1, fun _ => ht.2⟩) fun _ _ ht => ht.1
  · exact hpop.imp fun _ _ ht => ⟨ht, fun h => absurd h hlost⟩

theorem meets_check (h : Tracks ses.solver c) :
    Meets (Talk.check : Talk σ Status) ses
      (fun status t => Tracks t.solver (c.checked status) ∧ (status = .unsat → ∀ τ, ¬ c.Satisfied τ) ∧
        (status = .sat → ∃ τ, c.Satisfied τ) ∧ (status = .unknown → L))
      (Cut L gone) :=
  meets_request.mpr ((K.check h).mono (fun _ _ ⟨ht, hu, hs, hk⟩ => ⟨ht, hu, hs, fun h => hL (hk h)⟩)
    fun _ _ h => .inl (hL h))

theorem meets_interpolant (h : Tracks ses.solver c) (hlast : c.last = some .unsat) (p : Pattern) :
    Meets (Talk.interpolant p : Talk σ Formula) ses
      (fun e t => Tracks t.solver c ∧ c.Interpolant p e ∧ (lenient ∨ e.Predicate fun _ => True)) (Cut L gone) :=
  meets_request.mpr ((K.interpolant p h hlast).mono (fun _ _ => id) fun _ _ h => .inl (hL h))

theorem meets_model (h : Tracks ses.solver c) (hlast : c.last = some .sat) :
    Meets (Talk.model : Talk σ Model) ses
      (fun m t => Tracks t.solver c ∧ (lost t.solver ∨ ∃ τ, c.Satisfied τ ∧ m.Reports τ)) (Cut L lost) :=
  meets_request.mpr ((K.model h hlast).mono (fun _ _ => id) fun _ _ h => h.imp_left hL)

end Talk

end Invariance
