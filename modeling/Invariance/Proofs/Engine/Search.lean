import Invariance.Engine.Search
import Invariance.Proofs.Solver.Contract

/-!
Bounded search. Its context holds the path to the newest frame examined, and with every frame examined the
shortest executions to a violation get longer. It settles the property where a violation is found, or where no
loop-free execution is left.
-/

namespace Invariance

open TransitionSystem Invariance.Dynamics

/-- What a strategy takes its turn with: a solver under contract, and an unrolling of a regular system whose
assertions the solver accepts. `L` is what may be said where the turn is cut short. -/
structure Stage {σ : Type} [Solver σ] (lenient : Prop) (lost : σ → Prop)
    (Tracks : σ → Context → Prop) (L : Prop) (s : TransitionSystem) (n : Nat) (u : Unrolling) : Prop where
  contract : Contract lenient lost Tracks
  cut : lenient → L
  regular : s.Regular
  unrolled : Unrolled s n u

namespace TransitionSystem

variable {s : TransitionSystem} {τ : Assignment} {f p : Nat}

/-- The first `p` frames are those of an execution. -/
structure Reaches (s : TransitionSystem) (τ : Assignment) (p : Nat) : Prop where
  initial : 0 < p → τ.Satisfies s.initial
  steps : ∀ i, i + 1 < p → τ.Satisfies (s.stepFrom i)

/-- The first `p` frames have different states. -/
def Apart (s : TransitionSystem) (τ : Assignment) (p : Nat) : Prop :=
  ∀ i j, i < j → j < p → s.state τ i ≠ s.state τ j

/-- The frames up to `f` are those of an execution to a violation. -/
structure Refutes (s : TransitionSystem) (τ : Assignment) (f : Nat) : Prop where
  reaches : s.Reaches τ (f + 1)
  bad : ¬ τ.Satisfies (s.propIn f)

/-- What an outcome settles. A violation is a shortest one, and the trace to it has its length; it is read off
unless models are lost. -/
def Settled {S A : Type} (s : TransitionSystem) (r : Reconstruction S A) (lost L : Prop) (n : Nat) :
    Outcome S A → Prop
  | .safe => s.dynamics.Safe
  | .violated t => ∃ f ≤ n, t.length = f ∧ s.dynamics.SafeBelow f ∧
      ∃ τ, s.Refutes τ f ∧ (lost ∨ t = s.trace r τ f)
  | .unknown => L

theorem Settled.mono {S A : Type} {r : Reconstruction S A} {lost lost' L : Prop} {n : Nat} {o : Outcome S A}
    (h : s.Settled r lost L n o) (hlost : lost → lost') : s.Settled r lost' L n o := by
  cases o with
  | safe => exact h
  | violated t =>
      obtain ⟨f, hf, hlen, hbelow, τ, hτ, htrace⟩ := h
      exact ⟨f, hf, hlen, hbelow, τ, hτ, htrace.imp_left hlost⟩
  | unknown => exact h

theorem Reaches.execution (h : s.Regular) (hτ : s.Reaches τ (f + 1)) :
    s.dynamics.Execution (s.state τ) f :=
  h.execution_of_satisfies (hτ.initial f.succ_pos) fun i hi => hτ.steps i (by omega)

theorem Reaches.mono {q : Nat} (hτ : s.Reaches τ q) (h : p ≤ q) : s.Reaches τ p :=
  ⟨fun hp => hτ.initial (by omega), fun i hi => hτ.steps i (by omega)⟩

/-- An execution is what the first frames are under some assignment. -/
theorem Regular.exists_reaches (h : s.Regular) {π : Nat → State s.vars.elements}
    (hπ : s.dynamics.Execution π f) : ∃ τ, s.Reaches τ (f + 1) ∧ ∀ i ≤ f, s.state τ i = π i := by
  obtain ⟨τ, hstate, hinit, hstep⟩ := h.exists_execution hπ
  exact ⟨τ, ⟨fun _ => hinit, fun i hi => hstep i (by omega)⟩, hstate⟩

theorem Refutes.not_safe (h : s.Regular) (hτ : s.Refutes τ f) : ¬ s.dynamics.Safe :=
  fun hsafe => hτ.bad (h.good_iff.mp (hsafe f _ (hτ.reaches.execution h)))

theorem apart_iff_loopFree : s.Apart τ (f + 1) ↔ LoopFree (s.state τ) f :=
  forall_congr' fun _ => forall_congr' fun _ => forall_congr' fun _ => by rw [Nat.lt_succ_iff]

/-- Executions get longer where all assignments to loop-free ones are good. -/
theorem Regular.safeBelow_succ (h : s.Regular) (hbelow : s.dynamics.SafeBelow f)
    (hgood : ∀ τ, s.Reaches τ (f + 1) → s.Apart τ (f + 1) → τ.Satisfies (s.propIn f)) :
    s.dynamics.SafeBelow (f + 1) := by
  refine hbelow.succ fun π hπ hfree => ?_
  obtain ⟨τ, hτ, hstate⟩ := h.exists_reaches hπ
  rw [← hstate f le_rfl, h.good_iff]
  refine hgood τ hτ (apart_iff_loopFree.mpr fun i j hij hj => ?_)
  rw [hstate i (by omega), hstate j hj]
  exact hfree i j hij hj

theorem Apart.succ (h : s.Apart τ p) (hp : ∀ i < p, s.state τ i ≠ s.state τ p) : s.Apart τ (p + 1) := by
  intro i j hij hj
  rcases Nat.lt_succ_iff_lt_or_eq.mp hj with hlt | rfl
  · exact h i j hij hlt
  · exact hp i hij

theorem Apart.mono {q : Nat} (h : s.Apart τ q) (hp : p ≤ q) : s.Apart τ p :=
  fun i j hij hj => h i j hij (by omega)

end TransitionSystem

section Turns

variable {σ S A : Type} [Solver σ] {lenient L : Prop} {lost : σ → Prop} {Tracks : σ → Context → Prop}
variable {s : TransitionSystem} {u : Unrolling} {n f : Nat} {r : Reconstruction S A} {ses : Session σ}
variable {c : Context} {loopFree : Bool}

variable (st : Stage lenient lost Tracks L s n u)

include st

/-- A counterexample is read out of a model of the context. -/
theorem Search.meets_counterexample (ht : Tracks ses.solver c) (hlast : c.last = some .sat) (hf : f ≤ n)
    (hbad : ∃ τ, c.Satisfied τ) (hc : ∀ τ, c.Satisfied τ → s.Refutes τ f) :
    Meets (Search.counterexample u r f) ses
      (fun t ses' => Tracks ses'.solver c ∧ t.length = f ∧
        ∃ τ, s.Refutes τ f ∧ (lost ses'.solver ∨ t = s.trace r τ f))
      (Cut L lost) := by
  obtain ⟨τ, hτ⟩ := hbad
  refine (Talk.meets_model st.contract st.cut ht hlast).bind ?_
  rintro m ses' ⟨ht', hlost | ⟨ρ, hρ, hreports⟩⟩
  · cases htrace : u.trace m f r with
    | ok t => exact ⟨ht', st.unrolled.length_trace hf htrace, τ, hc τ hτ, .inl hlost⟩
    | error => exact .inr hlost
  · rw [st.unrolled.trace hf hreports r]
    exact ⟨ht', length_trace r, ρ, hc ρ hρ, .inr rfl⟩

/-- The scope of a frame is decided and closed: the trace is that of a refutation in the scope, or there is none. -/
theorem Search.meets_decide {ρ : Type} (violated : Trace S A → ρ) (unknown good : ρ) {scope : List Assertion}
    {outer : List (List Assertion)} (ht : Tracks ses.solver c) (houter : c.outer = scope :: outer) (hf : f ≤ n)
    (hc : ∀ τ, c.Satisfied τ → s.Refutes τ f) :
    Meets (do
      let outcome ← match ← Talk.check with
        | .sat => do pure (violated (← Search.counterexample u r f))
        | .unknown => pure unknown
        | .unsat => pure good
      Talk.pop
      return outcome : Talk σ ρ) ses
      (fun o ses' => Tracks ses'.solver ⟨outer, scope, none⟩ ∧
        ((∃ t, o = violated t ∧ t.length = f ∧ ∃ τ, s.Refutes τ f ∧ (lost ses'.solver ∨ t = s.trace r τ f)) ∨
          o = unknown ∧ L ∨ o = good ∧ ∀ τ, ¬ c.Satisfied τ))
      (Cut L lost) := by
  refine (Talk.meets_check st.contract st.cut ht).bind ?_
  rintro status ses₁ ⟨ht₁, hunsat, hsat, hunknown⟩
  cases status with
  | sat =>
      simp only [pure_bind]
      refine (Search.meets_counterexample st ht₁ rfl hf (hsat rfl) hc).bind ?_
      rintro t ses₂ ⟨ht₂, hlen, τ, hτ, htrace⟩
      refine (Talk.meets_close st.contract st.cut ht₂ houter).bind fun _ ses₃ ht₃ => ?_
      exact ⟨ht₃.1, .inl ⟨t, rfl, hlen, τ, hτ, htrace.imp_left ht₃.2⟩⟩
  | unknown =>
      refine (Talk.meets_pop st.contract st.cut ht₁ houter).bind fun _ ses₂ ht₂ => ?_
      exact ⟨ht₂, .inr (.inl ⟨rfl, hunknown rfl⟩)⟩
  | unsat =>
      refine (Talk.meets_pop st.contract st.cut ht₁ houter).bind fun _ ses₂ ht₂ => ?_
      exact ⟨ht₂, .inr (.inr ⟨rfl, hunsat rfl⟩)⟩

namespace Search

/-- The context of the search before it examines the frame `p`. If all paths have to be loop-free, it says so. -/
structure Searched (s : TransitionSystem) (free : Prop) (p : Nat) (c : Context) : Prop where
  admits : ∀ τ, s.Reaches τ p → s.Apart τ p → c.Satisfied τ
  reaches : ∀ τ, c.Satisfied τ → s.Reaches τ p ∧ (free → s.Apart τ p)

variable {free : Prop}

omit [Solver σ] st in
theorem searched_zero (hc : c.active = []) : Searched s free 0 c where
  admits _ _ _ a ha := by
    rw [hc] at ha
    cases ha
  reaches _ _ := ⟨⟨fun h => absurd h (Nat.lt_irrefl 0), fun _ h => absurd h (Nat.not_lt_zero _)⟩,
    fun _ _ _ _ h => absurd h (Nat.not_lt_zero _)⟩

/-- What leads to a frame. -/
def entry (s : TransitionSystem) : Nat → Formula
  | 0 => s.initial
  | f + 1 => s.stepFrom f

omit [Solver σ] st in
theorem reaches_succ {τ : Assignment} : s.Reaches τ (f + 1) ↔ s.Reaches τ f ∧ τ.Satisfies (entry s f) := by
  constructor
  · intro h
    refine ⟨h.mono f.le_succ, ?_⟩
    cases f with
    | zero => exact h.initial Nat.one_pos
    | succ f => exact h.steps f (Nat.lt_succ_self _)
  · rintro ⟨h, he⟩
    cases f with
    | zero => exact ⟨fun _ => he, fun i hi => absurd hi (by omega)⟩
    | succ f =>
        refine ⟨fun _ => h.initial f.succ_pos, fun i hi => ?_⟩
        rcases Nat.lt_succ_iff_lt_or_eq.mp hi with hlt | heq
        · exact h.steps i hlt
        · cases heq
          exact he

theorem meets_reach (ht : Tracks ses.solver c) (hf : f ≤ n) :
    Meets (reach u f) ses (fun _ ses' => Tracks ses'.solver (c.assert none (entry s f))) (Cut L lost) := by
  cases f with
  | zero =>
      rw [reach, st.unrolled.init]
      exact Talk.meets_assert st.contract st.cut ht none (.inr st.regular.predicate_initial.weaken)
  | succ f =>
      rw [reach, st.unrolled.stepAt hf]
      exact Talk.meets_assert st.contract st.cut ht none (.inr (st.regular.predicate_stepFrom f).weaken)

/-- The constraints that the frame `f` differs from the earlier ones are asserted, and decided. -/
theorem meets_isBeyondPaths (ht : Tracks ses.solver c) (hf : f ≤ n)
    (hc : ∀ τ, c.Satisfied τ → s.Reaches τ (f + 1) ∧ (free → s.Apart τ f))
    (hadmits : ∀ τ, s.Reaches τ (f + 1) → s.Apart τ f → c.Satisfied τ) (hfree : free → s.Moving) :
    Meets (isBeyondPaths u f) ses
      (fun beyond ses' => (beyond → ∀ π, s.dynamics.Execution π f → ¬ LoopFree π f) ∧
        (¬ beyond → ∃ d, Tracks ses'.solver d ∧ Searched s free (f + 1) d ∧
          (free → L ∨ ∃ π, s.dynamics.Execution π f ∧ LoopFree π f)))
      (Cut L lost) := by
  obtain ⟨es, hes, hpred, hadm, hapart⟩ := st.unrolled.exists_distinct hf
  rw [isBeyondPaths, hes]
  refine (Talk.meets_assertAll st.contract st.cut ht none fun e he => Or.inr (hpred e he).weaken).bind ?_
  intro _ ses₁ ht₁
  have hsearched : Searched s free (f + 1) (c.assertAll none es) := by
    refine ⟨fun τ hreach hτ => ?_, fun τ hτ => ?_⟩
    · rw [Context.satisfied_assertAll]
      exact ⟨hadmits τ hreach (hτ.mono f.le_succ), hadm τ fun i hi => hτ i f hi f.lt_succ_self⟩
    · rw [Context.satisfied_assertAll] at hτ
      obtain ⟨hreach, hτfree⟩ := hc τ hτ.1
      exact ⟨hreach, fun hf => (hτfree hf).succ (hapart (hfree hf) τ hτ.2)⟩
  refine (Talk.meets_check st.contract st.cut ht₁).bind ?_
  rintro status ses₂ ⟨ht₂, hunsat, hsat, hunknown⟩
  simp only [meets_pure, decide_eq_true_eq]
  refine ⟨?_, fun hne => ⟨_, ht₂, ⟨hsearched.admits, hsearched.reaches⟩, fun hf => ?_⟩⟩
  · rintro hstatus π hπ hloop
    obtain ⟨τ, hτ, hstate⟩ := st.regular.exists_reaches hπ
    refine hunsat hstatus τ (hsearched.admits τ hτ fun i j hij hj => ?_)
    rw [hstate i (by omega), hstate j (by omega)]
    exact hloop i j hij (by omega)
  · cases status with
    | unsat => exact absurd rfl hne
    | unknown => exact .inl (hunknown rfl)
    | sat =>
        obtain ⟨τ, hτ⟩ := hsat rfl
        obtain ⟨hreach, hap⟩ := hsearched.reaches τ hτ
        exact .inr ⟨_, hreach.execution st.regular, apart_iff_loopFree.mp (hap hf)⟩

/-- A frame is examined for a violation in a scope of its own. -/
theorem meets_violation (ht : Tracks ses.solver c) (hf : f ≤ n) (hbelow : s.dynamics.SafeBelow f)
    (hc : ∀ τ, c.Satisfied τ → s.Reaches τ (f + 1)) :
    Meets (violation u r f) ses
      (fun o ses' => match o with
        | some o => s.Settled r (lost ses'.solver) L n o
        | none => Tracks ses'.solver ⟨c.outer, c.scope, none⟩ ∧
            ∀ τ, c.Satisfied τ → τ.Satisfies (s.propIn f))
      (Cut L lost) := by
  rw [violation, st.unrolled.violationAt st.regular hf]
  have hprop := st.regular.predicate_propIn f
  refine (Talk.meets_push st.contract ht).bind fun _ ses₁ ht₁ => ?_
  rw [meets_bind, Talk.meets_ofFault_ok]
  refine (Talk.meets_assert st.contract st.cut ht₁ none (.inr hprop.mkNot.weaken)).bind fun _ ses₂ ht₂ => ?_
  have hsat : ∀ τ, (c.push.assert none (s.propIn f).mkNot).Satisfied τ ↔
      c.Satisfied τ ∧ ¬ τ.Satisfies (s.propIn f) := fun τ => by
    rw [Context.satisfied_assert, Context.satisfied_push, Assignment.satisfies_mkNot hprop]
  have hrefutes : ∀ τ, (c.push.assert none (s.propIn f).mkNot).Satisfied τ → s.Refutes τ f :=
    fun τ hτ => ⟨hc τ ((hsat τ).mp hτ).1, ((hsat τ).mp hτ).2⟩
  have hdecide := meets_decide st (u := u) (r := r) (fun t => some (Outcome.violated t)) (some Outcome.unknown) none ht₂
    rfl hf hrefutes
  refine hdecide.imp ?_
  rintro _ ses₃ ⟨ht₃, ⟨t, rfl, hlen, τ, hτ, htrace⟩ | ⟨rfl, hL⟩ | ⟨rfl, hnone⟩⟩
  · exact ⟨f, hf, hlen, hbelow, τ, hτ, htrace⟩
  · exact hL
  · refine ⟨ht₃, fun τ hτ => ?_⟩
    by_contra hbad
    exact hnone τ ((hsat τ).mpr ⟨hτ, hbad⟩)

/-- What is known after a frame was examined without a result. -/
structure Examined (s : TransitionSystem) (Tracks : σ → Context → Prop) (free L : Prop) (f : Nat)
    (ses : Session σ) : Prop where
  safeBelow : s.dynamics.SafeBelow (f + 1)
  searched : ∃ c, Tracks ses.solver c ∧ Searched s free (f + 1) c
  loopFree : 0 < f → free → L ∨ ∃ π, s.dynamics.Execution π f ∧ LoopFree π f

/-- A frame that the context leads to is good if it has no violation. -/
private theorem meets_violation_of_searched (ht : Tracks ses.solver c) (hs : Searched s free (f + 1) c)
    (hf : f ≤ n) (hbelow : s.dynamics.SafeBelow f)
    (hloop : 0 < f → free → L ∨ ∃ π, s.dynamics.Execution π f ∧ LoopFree π f) :
    Meets (violation u r f) ses
      (fun o ses' => match o with
        | some o => s.Settled r (lost ses'.solver) L n o
        | none => Examined s Tracks free L f ses')
      (Cut L lost) := by
  refine (meets_violation st ht hf hbelow fun τ hτ => (hs.reaches τ hτ).1).imp fun o ses' ho => ?_
  cases o with
  | some o => exact ho
  | none =>
      obtain ⟨ht', hgood⟩ := ho
      have hnext : s.dynamics.SafeBelow (f + 1) :=
        st.regular.safeBelow_succ hbelow fun τ hτ hapart => hgood τ (hs.admits τ hτ hapart)
      exact ⟨hnext, ⟨_, ht', ⟨hs.admits, hs.reaches⟩⟩, hloop⟩

theorem meets_examine (ht : Tracks ses.solver c) (hs : Searched s free f c) (hf : f ≤ n)
    (hbelow : s.dynamics.SafeBelow f) (hfree : free → loopFree = true) (hmoving : free → s.Moving) :
    Meets (examine u loopFree r f) ses
      (fun o ses' => match o with
        | some o => s.Settled r (lost ses'.solver) L n o
        | none => Examined s Tracks free L f ses')
      (Cut L lost) := by
  rw [examine]
  refine (meets_reach st ht hf).bind fun _ ses₁ ht₁ => ?_
  have hreaches : ∀ τ, (c.assert none (entry s f)).Satisfied τ → s.Reaches τ (f + 1) ∧ (free → s.Apart τ f) :=
    fun τ hτ => by
      rw [Context.satisfied_assert] at hτ
      obtain ⟨hreach, hapart⟩ := hs.reaches τ hτ.1
      exact ⟨reaches_succ.mpr ⟨hreach, hτ.2⟩, hapart⟩
  have hadmits : ∀ τ, s.Reaches τ (f + 1) → s.Apart τ f → (c.assert none (entry s f)).Satisfied τ :=
    fun τ hτ hapart => by
      rw [reaches_succ] at hτ
      exact Context.satisfied_assert.mpr ⟨hs.admits τ hτ.1 hapart, hτ.2⟩
  by_cases hlf : (loopFree && decide (0 < f)) = true
  · rw [if_pos hlf]
    refine (meets_isBeyondPaths st ht₁ hf hreaches hadmits hmoving).bind ?_
    rintro beyond ses₂ ⟨hnone, hsome⟩
    cases beyond with
    | true => exact safe_of_exhausted hbelow (hnone rfl)
    | false =>
        obtain ⟨d, ht₂, hd, hloop⟩ := hsome (by decide)
        exact meets_violation_of_searched st ht₂ hd hf hbelow fun _ => hloop
  · rw [if_neg hlf]
    have hzero : free → f = 0 := fun h => by
      rw [hfree h, Bool.true_and, decide_eq_true_eq] at hlf
      omega
    refine meets_violation_of_searched st ht₁ ⟨fun τ hτ hapart => hadmits τ hτ (hapart.mono f.le_succ),
      fun τ hτ => ⟨(hreaches τ hτ).1, fun h i j hij hj => ?_⟩⟩ hf hbelow fun hpos h => ?_
    · rw [hzero h] at hj
      omega
    · exact absurd (hzero h) hpos.ne'

/-- Frames are examined one after the other, until one settles the property. -/
theorem meets_examineFrom (k : Nat) (ht : Tracks ses.solver c) (hs : Searched s free f c) (hk : f + k = n + 1)
    (hbelow : s.dynamics.SafeBelow f) (hfree : free → loopFree = true) (hmoving : free → s.Moving)
    (hloop : f = n + 1 → 0 < n → free → L ∨ ∃ π, s.dynamics.Execution π n ∧ LoopFree π n) :
    Meets (examineFrom u loopFree r k f) ses
      (fun o ses' => match o with
        | (some o, _) => s.Settled r (lost ses'.solver) L n o
        | (none, p) => p = n + 1 ∧ Examined s Tracks free L n ses')
      (Cut L lost) := by
  induction k generalizing f c ses with
  | zero =>
      obtain rfl : f = n + 1 := hk
      exact ⟨rfl, hbelow, ⟨c, ht, hs⟩, hloop rfl⟩
  | succ k ih =>
      rw [examineFrom]
      refine (meets_examine st ht hs (by omega) hbelow hfree hmoving).bind fun o ses₁ ho => ?_
      cases o with
      | some o => exact ho
      | none =>
          obtain ⟨d, ht₁, hd⟩ := ho.searched
          refine ih ht₁ hd (by omega) ho.safeBelow fun heq => ?_
          obtain rfl : f = n := by omega
          exact ho.loopFree

/-- A turn of the search. -/
theorem meets_turn (ht : Tracks ses.solver c) (hs : Searched s free f c) (hf : f ≤ n)
    (hbelow : s.dynamics.SafeBelow f) (hfree : free → loopFree = true) (hmoving : free → s.Moving) :
    Meets (turn u loopFree r f) ses
      (fun o ses' => match o with
        | (some o, _) => s.Settled r (lost ses'.solver) L n o
        | (none, p) => p = n + 1 ∧ Examined s Tracks free L n ses')
      (Cut L lost) := by
  rw [turn, st.unrolled.lastFrame]
  exact meets_examineFrom st _ ht hs (by omega) hbelow hfree hmoving fun h => absurd h (by omega)

end Search

end Turns

end Invariance
