import Invariance.Engine.Interpolation
import Invariance.Proofs.Dynamics.Finite
import Invariance.Proofs.Engine.Search
import Mathlib.Order.CompletePartialOrder

/-!
Interpolation. The path to the newest frame is cut after its first step, and the interpolant at the cut, moved
back to the first frame, holds of all states that the step leads to, but of none from which the other steps lead
to a violation. The sets covered so far are closed under steps, except for the steps from the newest of them, and
each round covers a state more.
-/

namespace Invariance

open TransitionSystem Invariance.Dynamics

namespace TransitionSystem

variable {s : TransitionSystem} {τ : Assignment} {e g : Formula} {a : State s.vars.elements} {f n : Nat}

/-- The states that a formula over the first frame holds of. -/
def Holds (s : TransitionSystem) (e : Formula) (a : State s.vars.elements) : Prop :=
  ∃ τ, s.state τ 0 = a ∧ τ.Satisfies e

/-- A symbol of a variable of the system, at a frame. -/
structure At (s : TransitionSystem) (f : Nat) (g : Symbol) : Prop where
  mem : g.base ∈ s.vars.elements
  eq : g.generation = s.frame f g.base

theorem holds_state (he : e.Predicate (s.Upto 0)) : s.Holds e (s.state τ 0) ↔ τ.Satisfies e := by
  have hsym : ∀ g, .sym g ∈ e.subformulas → g.base ∈ s.vars.elements ∧ g.generation = s.frame 0 g.base :=
    fun g hg => by
      obtain ⟨hx, hle⟩ := he.symbols g hg
      rw [frame_zero] at hle ⊢
      exact ⟨hx, Nat.le_zero.mp hle⟩
  constructor
  · rintro ⟨ρ, hstate, hρ⟩
    exact (satisfies_congr_state he.timed hsym hstate).mp hρ
  · exact fun hτ => ⟨τ, rfl, hτ⟩

theorem holds_mkOr (he : e.Predicate (s.Upto 0)) (hg : g.Predicate (s.Upto 0)) :
    s.Holds (.mkOr [e, g]) a ↔ s.Holds e a ∨ s.Holds g a := by
  have hes : ∀ d ∈ [e, g], d.Predicate (s.Upto 0) := by simp [he, hg]
  simp only [Holds, Assignment.satisfies_mkOr hes, List.mem_cons, List.not_mem_nil, or_false,
    exists_eq_or_imp, exists_eq_left, and_or_left, exists_or]

/-- A formula over a frame, moved back to the first one. -/
def backFrom (s : TransitionSystem) (f : Nat) (e : Formula) : Formula :=
  e.retime fun x m => m - s.frame f x

theorem predicate_backFrom (he : e.Predicate (s.At f)) : (s.backFrom f e).Predicate (s.Upto 0) :=
  he.retime fun g hg => ⟨hg.mem, by simp only [hg.eq, Nat.sub_self, Nat.zero_le]⟩

theorem holds_backFrom (he : e.Predicate (s.At f)) (hτ : τ.Satisfies e) :
    s.Holds (s.backFrom f e) (s.state τ f) := by
  refine ⟨τ.onward (s.frame f), state_onward, ?_⟩
  rw [backFrom, Assignment.satisfies_retime he.timed]
  refine (Assignment.satisfies_congr he.timed fun g hg => ?_).mpr hτ
  simp only [Assignment.retime, Assignment.onward, (he.symbols g hg).eq, Nat.sub_self, Nat.add_zero]

end TransitionSystem

namespace Interpolation

/-! ### Scopes with a path -/

/-- The scope of a context was opened within another one, and these are the active assertions. -/
structure Inside (b : Context) (A : Assertion → Prop) (c : Context) : Prop where
  outer : c.outer = b.scope :: b.outer
  active : ∀ a, a ∈ c.active ↔ A a

/-- The path to the frame `n` from the states `first`, cut after its first step. -/
def OnPath (s : TransitionSystem) (n : Nat) (first : Formula) (a : Assertion) : Prop :=
  a = (some .a, first) ∨ a = (some .a, s.stepFrom 0) ∨ ∃ i, 1 ≤ i ∧ i < n ∧ a = (some .b, s.stepFrom i)

/-- The path, with a violation in its last frame. -/
def OnBadPath (s : TransitionSystem) (n : Nat) (first : Formula) (a : Assertion) : Prop :=
  OnPath s n first a ∨ a = (some .b, (s.propIn n).mkNot)

section Scopes

variable {s : TransitionSystem} {n : Nat} {first : Formula} {b c : Context} {τ : Assignment}

theorem Inside.assert {A : Assertion → Prop} (h : Inside b A c) (p : Option Partition) (e : Formula) :
    Inside b (fun a => A a ∨ a = (p, e)) (c.assert p e) :=
  ⟨h.outer, fun a => by rw [Context.mem_active_assert, h.active]⟩

theorem Inside.satisfied {A : Assertion → Prop} (h : Inside b A c) :
    c.Satisfied τ ↔ ∀ a, A a → τ.Satisfies a.2 :=
  forall_congr' fun a => by rw [h.active]

theorem satisfies_onPath (hn : 0 < n) : (∀ a, OnPath s n first a → τ.Satisfies a.2) ↔
    τ.Satisfies first ∧ ∀ i < n, τ.Satisfies (s.stepFrom i) := by
  constructor
  · intro hall
    refine ⟨hall _ (.inl rfl), fun i hi => ?_⟩
    cases i with
    | zero => exact hall _ (.inr (.inl rfl))
    | succ i => exact hall (some .b, _) (.inr (.inr ⟨i + 1, Nat.le_add_left 1 i, hi, rfl⟩))
  · rintro ⟨hfirst, hsteps⟩ a (rfl | rfl | ⟨i, -, hi, rfl⟩)
    · exact hfirst
    · exact hsteps 0 hn
    · exact hsteps i hi

theorem satisfies_onBadPath (hs : s.Regular) (hn : 0 < n) : (∀ a, OnBadPath s n first a → τ.Satisfies a.2) ↔
    (τ.Satisfies first ∧ ∀ i < n, τ.Satisfies (s.stepFrom i)) ∧ ¬ τ.Satisfies (s.propIn n) := by
  rw [← satisfies_onPath hn, ← Assignment.satisfies_mkNot (hs.predicate_propIn n)]
  simp only [OnBadPath, or_imp, forall_and, forall_eq]

/-- The first side holds the states at the beginning and the first step. -/
theorem Inside.first_iff (h : Inside b (OnBadPath s n first) c) {e : Formula} :
    (∃ a, c.First .forward a ∧ a.2 = e) ↔ e = first ∨ e = s.stepFrom 0 := by
  simp only [Context.First, h.active, Pattern.forward]
  constructor
  · rintro ⟨_, ⟨(rfl | rfl | ⟨i, -, -, rfl⟩) | rfl, hp | hp⟩, rfl⟩ <;> cases hp
    · exact .inl rfl
    · exact .inr rfl
  · rintro (rfl | rfl)
    · exact ⟨_, ⟨.inl (.inl rfl), .inr rfl⟩, rfl⟩
    · exact ⟨_, ⟨.inl (.inr (.inl rfl)), .inr rfl⟩, rfl⟩

/-- The second side holds the other steps and the violation. -/
theorem Inside.second_iff (h : Inside b (OnBadPath s n first) c) {e : Formula} :
    (∃ a, c.Second .forward a ∧ a.2 = e) ↔
      (∃ i, 1 ≤ i ∧ i < n ∧ e = s.stepFrom i) ∨ e = (s.propIn n).mkNot := by
  simp only [Context.Second, h.active, Pattern.forward]
  constructor
  · rintro ⟨_, ⟨(rfl | rfl | ⟨i, hi, hin, rfl⟩) | rfl, hp⟩, rfl⟩ <;> cases hp
    · exact .inl ⟨i, hi, hin, rfl⟩
    · exact .inr rfl
  · rintro (⟨i, hi, hin, rfl⟩ | rfl)
    · exact ⟨_, ⟨.inl (.inr (.inr ⟨i, hi, hin, rfl⟩)), rfl⟩, rfl⟩
    · exact ⟨_, ⟨.inr rfl, rfl⟩, rfl⟩

/-- What an interpolant of the path with a violation says, in terms of paths. -/
theorem of_interpolant (h : Inside b (OnBadPath s n first) c) (hs : s.Regular) (hn : 0 < n) {e : Formula}
    (he : c.Interpolant .forward e) :
    (∀ τ : Assignment, τ.Satisfies first → τ.Satisfies (s.stepFrom 0) → τ.Satisfies e) ∧
    (∀ τ : Assignment, τ.Satisfies e → (∀ i, 1 ≤ i → i < n → τ.Satisfies (s.stepFrom i)) →
      τ.Satisfies (s.propIn n)) ∧
    (first.Predicate (s.Upto 0) → ∀ g, .sym g ∈ e.subformulas → s.At 1 g) := by
  refine ⟨fun τ hfirst hstep => he.implied τ fun a ha => ?_, fun τ hτ hsteps => ?_, fun hfirst g hg => ?_⟩
  · rcases h.first_iff.mp ⟨a, ha, rfl⟩ with heq | heq <;> rwa [heq]
  · by_contra hbad
    refine he.refuting τ (fun a ha => ?_) hτ
    rcases h.second_iff.mp ⟨a, ha, rfl⟩ with ⟨i, hi, hin, heq⟩ | heq
    · rw [heq]
      exact hsteps i hi hin
    · rwa [heq, Assignment.satisfies_mkNot (hs.predicate_propIn n)]
  · obtain ⟨⟨a, ha, hag⟩, ⟨d, hd, hdg⟩⟩ := he.shared g hg
    have hle : s.Upto 1 g := by
      rcases h.first_iff.mp ⟨a, ha, rfl⟩ with heq | heq <;> rw [heq] at hag
      · exact (hfirst.symbols g hag).mono (Nat.zero_le 1)
      · exact (hs.predicate_stepFrom 0).symbols g hag
    refine ⟨hle.mem, hle.le.antisymm ?_⟩
    rcases h.second_iff.mp ⟨d, hd, rfl⟩ with ⟨i, hi, -, heq⟩ | heq <;> rw [heq] at hdg
    · exact (frame_mono hi _).trans (hs.of_sym_mem_stepFrom hdg).le
    · rw [(hs.of_sym_mem_propIn (Formula.mem_subformulas_mkNot rfl hdg)).2]
      exact frame_mono hn _

/-- The states that a step leads to from `first` are in the interpolant, and away from violations. -/
theorem holds_interpolant (h : Inside b (OnBadPath s n first) c) (hs : s.Regular) (hn : 0 < n) {e : Formula}
    (he : c.Interpolant .forward e) (hfirst : first.Predicate (s.Upto 0)) (hpred : e.Predicate (s.At 1))
    {p q : State s.vars.elements} (hp : s.Holds first p) (hstep : s.dynamics.Step p q) :
    s.Holds (s.backFrom 1 e) q ∧ s.dynamics.Avoids (n - 1) q := by
  obtain ⟨himplied, hrefuting, -⟩ := of_interpolant h hs hn he
  have hpath : ∀ π m, π 0 = q → s.dynamics.Path π m → ∃ τ, τ.Satisfies e ∧
      (∀ i ≤ m, s.state τ (i + 1) = π i) ∧ ∀ i < m, τ.Satisfies (s.stepFrom (i + 1)) := by
    intro π m hπ hpath
    have hlong : s.dynamics.Path (fun i => if i = 0 then p else π (i - 1)) (m + 1) := by
      intro i hi
      cases i with
      | zero => simpa [hπ] using hstep
      | succ i => simpa using hpath i (by omega)
    obtain ⟨τ, hstate, hsteps⟩ := hs.exists_assignment hlong
    refine ⟨τ, himplied τ ?_ (hsteps 0 m.succ_pos), fun i hi => ?_, fun i hi => hsteps (i + 1) (by omega)⟩
    · rwa [← holds_state hfirst, hstate 0 (Nat.zero_le _)]
    · simpa using hstate (i + 1) (by omega)
  constructor
  · obtain ⟨τ, hτ, hstate, -⟩ := hpath (fun _ => q) 0 rfl fun i hi => absurd hi (Nat.not_lt_zero i)
    rw [← hstate 0 le_rfl]
    exact holds_backFrom hpred hτ
  · intro π hπ hpi
    obtain ⟨τ, hτ, hstate, hsteps⟩ := hpath π (n - 1) hπ hpi
    rw [← hstate (n - 1) le_rfl, Nat.sub_add_cancel hn, hs.good_iff]
    refine hrefuting τ hτ fun i hi hin => ?_
    obtain ⟨i, rfl⟩ := Nat.exists_eq_add_of_le' hi
    exact hsteps i (by omega)

end Scopes

/-! ### Turns -/

variable {σ S A : Type} [Solver σ] {lenient L : Prop} {lost gone : σ → Prop} {Tracks : σ → Context → Prop}
variable {s : TransitionSystem} {u : Unrolling} {n f : Nat} {r : Reconstruction S A} {ses : Session σ}
variable {b c : Context} {first covered : Formula} {loopFree : Bool}

variable (st : Stage lenient lost Tracks L s n u)

include st

/-- A frame is examined in a scope of its own, with the path to it. -/
theorem meets_violation (ht : Tracks ses.solver c) (hidle : c.active = []) (hf : f ≤ n) :
    Meets (violation u r f) ses
      (fun o ses' => match o with
        | some (some o) => s.dynamics.SafeBelow f → s.Settled r (lost ses'.solver) L n o
        | some none => L ∧ Tracks ses'.solver ⟨c.outer, c.scope, none⟩
        | none => (s.dynamics.SafeBelow f → s.dynamics.SafeBelow (f + 1)) ∧
            Tracks ses'.solver ⟨c.outer, c.scope, none⟩)
      (Cut L lost) := by
  rw [violation, st.unrolled.init, st.unrolled.take_steps hf, st.unrolled.violationAt st.regular hf]
  have hprop := st.regular.predicate_propIn f
  have hsteps : ∀ e ∈ (List.range f).map s.stepFrom, lenient ∨ e.Predicate fun _ => True := by
    intro e he
    obtain ⟨i, hi, rfl⟩ := List.mem_map.mp he
    exact .inr (st.regular.predicate_stepFrom i).weaken
  refine (Talk.meets_push st.contract ht).bind fun _ ses₁ ht₁ => ?_
  refine (Talk.meets_assert st.contract st.cut ht₁ none
    (.inr st.regular.predicate_initial.weaken)).bind fun _ ses₂ ht₂ => ?_
  refine (Talk.meets_assertAll st.contract st.cut ht₂ none hsteps).bind fun _ ses₃ ht₃ => ?_
  rw [meets_bind, Talk.meets_ofFault_ok]
  refine (Talk.meets_assert st.contract st.cut ht₃ none (.inr hprop.mkNot.weaken)).bind fun _ ses₄ ht₄ => ?_
  generalize hd : (((c.push.assert none s.initial).assertAll none ((List.range f).map s.stepFrom)).assert none
    (s.propIn f).mkNot) = d at ht₄
  have hsat : ∀ τ, d.Satisfied τ ↔ s.Refutes τ f := by
    intro τ
    have hempty : c.Satisfied τ := by simp [Context.Satisfied, hidle]
    rw [← hd, Context.satisfied_assert, Context.satisfied_assertAll, Context.satisfied_assert,
      Context.satisfied_push, Assignment.satisfies_mkNot hprop]
    simp only [List.forall_mem_map, List.mem_range]
    constructor
    · rintro ⟨⟨⟨-, hinit⟩, hstep⟩, hbad⟩
      exact ⟨⟨fun _ => hinit, fun i hi => hstep i (by omega)⟩, hbad⟩
    · rintro ⟨⟨hinit, hstep⟩, hbad⟩
      exact ⟨⟨⟨hempty, hinit f.succ_pos⟩, fun i hi => hstep i (by omega)⟩, hbad⟩
  have houter : d.outer = c.scope :: c.outer := by
    rw [← hd]
    exact Context.outer_assertAll
  have hdecide := Search.meets_decide st (u := u) (r := r) (fun t => some (some (Outcome.violated t))) (some none) none
    ht₄ houter hf fun τ hτ => (hsat τ).mp hτ
  refine hdecide.imp ?_
  rintro _ ses₅ ⟨ht₅, ⟨t, rfl, hlen, τ, hτ, htrace⟩ | ⟨rfl, hL⟩ | ⟨rfl, hnone⟩⟩
  · exact fun hbelow => ⟨f, hf, hlen, hbelow, τ, hτ, htrace⟩
  · exact ⟨hL, ht₅⟩
  · refine ⟨fun hbelow => st.regular.safeBelow_succ hbelow fun τ hτ _ => ?_, ht₅⟩
    by_contra hbad
    exact hnone τ ((hsat τ).mpr ⟨hτ, hbad⟩)

/-- What is known after a turn that settled nothing: the frames before `p` are good, and the solver is idle. -/
structure Progress (s : TransitionSystem) (Tracks : σ → Context → Prop) (p : Nat) (ses : Session σ) : Prop where
  safeBelow : s.dynamics.SafeBelow p
  idle : ∃ c, Tracks ses.solver c ∧ c.active = []

theorem meets_violationsFrom (k : Nat) (ht : Tracks ses.solver c) (hidle : c.active = []) (hk : f + k = n)
    (hbelow : s.dynamics.SafeBelow f) :
    Meets (violationsFrom u r k f) ses
      (fun o ses' => match o with
        | (some (some o), _) => s.Settled r (lost ses'.solver) L n o
        | (some none, p) => L ∧ p ≤ n ∧ Progress s Tracks p ses'
        | (none, p) => p = n ∧ Progress s Tracks n ses')
      (Cut L lost) := by
  induction k generalizing f c ses with
  | zero =>
      obtain rfl : f = n := hk
      exact ⟨rfl, hbelow, c, ht, hidle⟩
  | succ k ih =>
      rw [violationsFrom]
      refine (meets_violation st ht hidle (by omega)).bind fun o ses₁ ho => ?_
      match o, ho with
      | some (some o), ho => exact ho hbelow
      | some none, ⟨hL, ht₁⟩ => exact ⟨hL, by omega, hbelow, _, ht₁, hidle⟩
      | none, ⟨hnext, ht₁⟩ => exact ih ht₁ hidle (by omega) (hnext hbelow)

theorem meets_split (ht : Tracks ses.solver b) (hidle : b.active = [])
    (hfirst : lenient ∨ first.Predicate fun _ => True) (hn : 0 < n) :
    Meets (split u first) ses
      (fun _ ses' => ∃ c, Tracks ses'.solver c ∧ Inside b (OnPath s n first) c) (Cut L gone) := by
  rw [split, st.unrolled.stepAt hn]
  have hstep : ∀ e ∈ u.steps.toList.drop 1, lenient ∨ e.Predicate fun _ => True := by
    intro e he
    obtain ⟨i, -, hi, rfl⟩ := st.unrolled.mem_drop_steps.mp he
    exact .inr (st.regular.predicate_stepFrom i).weaken
  refine (Talk.meets_push st.contract ht).bind fun _ ses₁ ht₁ => ?_
  refine (Talk.meets_assert st.contract st.cut ht₁ _ hfirst).bind fun _ ses₂ ht₂ => ?_
  refine (Talk.meets_assert st.contract st.cut ht₂ _
    (.inr (st.regular.predicate_stepFrom 0).weaken)).bind fun _ ses₃ ht₃ => ?_
  refine (Talk.meets_assertAll st.contract st.cut ht₃ _ hstep).imp fun _ ses₄ ht₄ => ?_
  refine ⟨_, ht₄, Context.outer_assertAll, fun a => ?_⟩
  rw [Context.mem_active_assertAll, Context.mem_active_assert, Context.mem_active_assert,
    Context.mem_active_push, hidle, OnPath]
  simp only [List.not_mem_nil, false_or, or_assoc, st.unrolled.mem_drop_steps]
  refine or_congr_right (or_congr_right ⟨?_, ?_⟩)
  · rintro ⟨_, ⟨i, hi, hin, rfl⟩, rfl⟩
    exact ⟨i, hi, hin, rfl⟩
  · rintro ⟨i, hi, hin, rfl⟩
    exact ⟨_, ⟨i, hi, hin, rfl⟩, rfl⟩

theorem meets_assertViolation (ht : Tracks ses.solver c) (hc : Inside b (OnPath s n first) c) :
    Meets (assertViolation u) ses
      (fun _ ses' => ∃ d, Tracks ses'.solver d ∧ Inside b (OnBadPath s n first) d) (Cut L gone) := by
  rw [assertViolation, st.unrolled.lastFrame, st.unrolled.violationAt st.regular le_rfl]
  have hviolation : lenient ∨ (s.propIn n).mkNot.Predicate fun _ => True :=
    .inr (st.regular.predicate_propIn n).mkNot.weaken
  refine (Talk.meets_assert st.contract st.cut ht _ hviolation).imp fun _ ses₁ ht₁ => ?_
  exact ⟨_, ht₁, hc.assert _ _⟩

theorem meets_isBeyondPaths (ht : Tracks ses.solver c) (hc : Inside b (OnPath s n s.initial) c) (hn : 0 < n) :
    Meets (isBeyondPaths u) ses
      (fun beyond ses' => (beyond → s.dynamics.SafeBelow n → s.dynamics.Safe) ∧
        Tracks ses'.solver ⟨c.outer, c.scope, none⟩)
      (Cut L gone) := by
  obtain ⟨es, hes, hpred, hadm, -⟩ := st.unrolled.exists_distinct le_rfl
  rw [isBeyondPaths, st.unrolled.lastFrame, hes]
  refine (Talk.meets_push st.contract ht).bind fun _ ses₁ ht₁ => ?_
  refine (Talk.meets_assertAll st.contract st.cut ht₁ none fun e he => Or.inr (hpred e he).weaken).bind ?_
  intro _ ses₂ ht₂
  refine (Talk.meets_check st.contract st.cut ht₂).bind ?_
  rintro status ses₃ ⟨ht₃, hunsat, -⟩
  refine (Talk.meets_pop st.contract st.cut ht₃ Context.outer_assertAll).bind fun _ ses₄ ht₄ => ?_
  refine ⟨fun hstatus hbelow => safe_of_exhausted hbelow fun π hπ hfree => ?_, ht₄⟩
  obtain ⟨τ, hτ, hstate⟩ := st.regular.exists_reaches hπ
  refine hunsat (of_decide_eq_true hstatus) τ ?_
  rw [Context.satisfied_assertAll, Context.satisfied_push, hc.satisfied, satisfies_onPath hn]
  refine ⟨⟨hτ.initial n.succ_pos, fun i hi => hτ.steps i (by omega)⟩, hadm τ fun i hi => ?_⟩
  rw [hstate i hi.le, hstate n le_rfl]
  exact hfree i n hi le_rfl

/-! ### Sets of states -/

/-- The interpolant at the cut, moved back to the first frame. A lenient solver interpolates by anything where no
step leads on from `first`. -/
theorem meets_image (ht : Tracks ses.solver c) (hlast : c.last = some .unsat)
    (hc : Inside b (OnBadPath s n first) c) (hfirst : lenient ∨ first.Predicate (s.Upto 0)) (hn : 0 < n) :
    Meets (image u) ses
      (fun new ses' => Tracks ses'.solver c ∧ (lenient ∨ new.Predicate (s.Upto 0)) ∧
        (first.Predicate (s.Upto 0) → ∀ p q, s.Holds first p → s.dynamics.Step p q →
          new.Predicate (s.Upto 0) ∧ s.Holds new q ∧ s.dynamics.Avoids (n - 1) q))
      (Cut L gone) := by
  obtain ⟨c₁, hc₁, -, hget₁⟩ := st.unrolled.exists_clockAt hn
  obtain ⟨c₀, hc₀, -, hget₀⟩ := st.unrolled.exists_clockAt n.zero_le
  rw [image, hc₁, hc₀]
  refine (Talk.meets_interpolant st.contract st.cut ht hlast .forward).bind ?_
  rintro e ses₁ ⟨ht₁, he, haccept⟩
  obtain ⟨himplied, -, hsym⟩ := of_interpolant hc st.regular hn he
  by_cases hpred : first.Predicate (s.Upto 0) ∧ e.Predicate (s.At 1)
  · obtain ⟨hfirst, hpred⟩ := hpred
    have hat : ∀ g, .sym g ∈ e.subformulas → g.generation = c₁.get g.base := fun g hg => by
      rw [(hget₁ _).1, (hpred.symbols g hg).eq]
    obtain ⟨f, hf, hunfold⟩ := Formula.exists_fold_unfold_eq_ok (c := c₁) (d := c₀) hpred.timed
      (fun g hg => (hat g hg).ge) fun g hg => by
        rw [hat g hg, Nat.sub_self]
        exact (hget₀ _).2
    have hplace : (e.retime fun x m => c₀.get x + (m - c₁.get x)) = s.backFrom 1 e := by
      rw [backFrom]
      congr 1
      funext x m
      rw [(hget₀ x).1, (hget₁ x).1, frame_zero, Nat.zero_add]
    simp only [hf, hunfold, hplace, meets_bind, Talk.meets_ofFault_ok]
    exact ⟨ht₁, .inr (predicate_backFrom hpred), fun _ p q hp hstep =>
      ⟨predicate_backFrom hpred, holds_interpolant hc st.regular hn he hfirst hpred hp hstep⟩⟩
  · have hnone : ∀ p q, first.Predicate (s.Upto 0) → s.Holds first p → s.dynamics.Step p q → False := by
      intro p q hfirst hp hstep
      obtain ⟨τ, hstate, hsteps⟩ := st.regular.exists_assignment
        (π := fun i => if i = 0 then p else q) (n := 1) fun i hi => by
          obtain rfl := Nat.lt_one_iff.mp hi
          exact hstep
      rw [← show s.state τ 0 = p from hstate 0 (Nat.zero_le 1), holds_state hfirst] at hp
      exact hpred ⟨hfirst, Formula.predicate_of_evaluates (himplied τ hp (hsteps 0 Nat.one_pos)) (hsym hfirst)⟩
    have hlenient : lenient := by
      rcases hfirst with h | hfirst
      · exact h
      · exact haccept.resolve_right fun h => hpred ⟨hfirst, h.bool, h.timed, hsym hfirst⟩
    cases he₁ : e.fold c₁ with
    | error =>
        simp only [he₁, meets_bind, Talk.meets_ofFault_ok]
        exact .inl (st.cut hlenient)
    | ok f =>
        cases hf : f.unfold c₀ with
        | error =>
            simp only [he₁, hf, meets_bind, Talk.meets_ofFault_ok]
            exact .inl (st.cut hlenient)
        | ok new =>
            simp only [he₁, hf, meets_bind, Talk.meets_ofFault_ok]
            exact ⟨ht₁, .inl hlenient, fun hfirst p q hp hstep => (hnone p q hfirst hp hstep).elim⟩

theorem meets_isCovered {new : Formula} (ht : Tracks ses.solver c)
    (hnew : lenient ∨ new.Predicate fun _ => True) (hcovered : lenient ∨ covered.mkNot.Predicate fun _ => True)
    (hidle : c.active = []) :
    Meets (isCovered new covered) ses
      (fun status ses' => Tracks ses'.solver ⟨c.outer, c.scope, none⟩ ∧
        (status = .unsat → ∀ τ : Assignment, τ.Satisfies new → ¬ τ.Satisfies covered.mkNot) ∧
        (status = .sat → ∃ τ : Assignment, τ.Satisfies new ∧ τ.Satisfies covered.mkNot))
      (Cut L gone) := by
  rw [isCovered]
  refine (Talk.meets_push st.contract ht).bind fun _ ses₁ ht₁ => ?_
  refine (Talk.meets_assert st.contract st.cut ht₁ _ hnew).bind fun _ ses₂ ht₂ => ?_
  refine (Talk.meets_assert st.contract st.cut ht₂ _ hcovered).bind fun _ ses₃ ht₃ => ?_
  refine (Talk.meets_check st.contract st.cut ht₃).bind ?_
  rintro status ses₄ ⟨ht₄, hunsat, hsat, -⟩
  refine (Talk.meets_pop st.contract st.cut ht₄ rfl).bind fun _ ses₅ ht₅ => ?_
  have hiff : ∀ τ, ((c.push.assert (some .a) new).assert (some .a) covered.mkNot).Satisfied τ ↔
      τ.Satisfies new ∧ τ.Satisfies covered.mkNot := fun τ => by
    rw [Context.satisfied_assert, Context.satisfied_assert, Context.satisfied_push]
    simp [Context.Satisfied, hidle]
  refine ⟨ht₅, fun h τ hnew hnot => hunsat h τ ((hiff τ).mpr ⟨hnew, hnot⟩), fun h => ?_⟩
  obtain ⟨τ, hτ⟩ := hsat h
  exact ⟨τ, (hiff τ).mp hτ⟩

/-- What is known before a round, the states `first` being the newest of those covered. -/
structure Covering (s : TransitionSystem) (lenient : Prop) (n : Nat) (first covered : Formula) : Prop where
  newest : lenient ∨ first.Predicate (s.Upto 0)
  all : lenient ∨ covered.Predicate (s.Upto 0)
  covers : s.dynamics.Safe ∨ first.Predicate (s.Upto 0) ∧ covered.Predicate (s.Upto 0) ∧
    s.dynamics.Covers (n - 1) (s.Holds covered) (s.Holds first)

omit [Solver σ] st in
theorem Covering.safe {new : Formula} (h : Covering s lenient n first covered) (hn : 0 < n)
    (hbelow : s.dynamics.SafeBelow (n + 1))
    (himage : first.Predicate (s.Upto 0) → ∀ p q, s.Holds first p → s.dynamics.Step p q →
      new.Predicate (s.Upto 0) ∧ s.Holds new q ∧ s.dynamics.Avoids (n - 1) q)
    (hin : ∀ τ : Assignment, τ.Satisfies new → ¬ τ.Satisfies covered.mkNot) : s.dynamics.Safe := by
  rcases h.covers with hsafe | ⟨hfirst, hcovered, hcovers⟩
  · exact hsafe
  · refine hcovers.safe (fun p q hp hstep => ?_) (by rwa [show n - 1 + 2 = n + 1 by omega])
    obtain ⟨-, ⟨τ, hstate, hτ⟩, haway⟩ := himage hfirst p q hp hstep
    refine ⟨⟨τ, hstate, ?_⟩, haway⟩
    by_contra hnot
    exact hin τ hτ ((Assignment.satisfies_mkNot hcovered).mpr hnot)

omit [Solver σ] st in
theorem Covering.extend {new : Formula} (h : Covering s lenient n first covered) (hn : 0 < n)
    (hbelow : s.dynamics.SafeBelow (n + 1)) (hnew : lenient ∨ new.Predicate (s.Upto 0))
    (himage : first.Predicate (s.Upto 0) → ∀ p q, s.Holds first p → s.dynamics.Step p q →
      new.Predicate (s.Upto 0) ∧ s.Holds new q ∧ s.dynamics.Avoids (n - 1) q) :
    Covering s lenient n new (.mkOr [covered, new]) := by
  have hor : covered.Predicate (s.Upto 0) → new.Predicate (s.Upto 0) →
      (Formula.mkOr [covered, new]).Predicate (s.Upto 0) :=
    fun hcovered hnew => .mkOr (by simp [hcovered, hnew])
  refine ⟨hnew, ?_, ?_⟩
  · rcases h.all with hl | hcovered
    · exact .inl hl
    · exact hnew.imp_right (hor hcovered)
  · rcases h.covers with hsafe | ⟨hfirst, hcovered, hcovers⟩
    · exact .inl hsafe
    · by_cases hstep : ∃ p q, s.Holds first p ∧ s.dynamics.Step p q
      · obtain ⟨p, q, hp, hpq⟩ := hstep
        have hpred := (himage hfirst p q hp hpq).1
        refine .inr ⟨hpred, hor hcovered hpred, ?_⟩
        rw [show s.Holds (.mkOr [covered, new]) = fun a => s.Holds covered a ∨ s.Holds new a from
          funext fun a => propext (holds_mkOr hcovered hpred)]
        exact hcovers.extend fun p q hp hpq => (himage hfirst p q hp hpq).2
      · -- no step leads on from the newest states
        refine .inl (hcovers.safe (fun p q hp hpq => absurd ⟨p, q, hp, hpq⟩ hstep) ?_)
        rwa [show n - 1 + 2 = n + 1 by omega]

omit [Solver σ] st in
/-- A state that is new makes the covered set larger. -/
theorem ssubset_mkOr {new : Formula} (hcovered : covered.Predicate (s.Upto 0))
    (hnew : new.Predicate (s.Upto 0)) (h : ∃ τ : Assignment, τ.Satisfies new ∧ τ.Satisfies covered.mkNot) :
    {a | s.Holds covered a} ⊂ {a | s.Holds (.mkOr [covered, new]) a} := by
  obtain ⟨τ, hτ, hnot⟩ := h
  rw [Assignment.satisfies_mkNot hcovered, ← holds_state hcovered] at hnot
  refine ⟨fun a ha => (holds_mkOr hcovered hnew).mpr (.inl ha), fun hsub => hnot ?_⟩
  exact hsub ((holds_mkOr hcovered hnew).mpr (.inr ⟨τ, rfl, hτ⟩))

/-- Rounds go on until nothing new is covered, or a violation may have come in. -/
theorem meets_cover (rounds : Nat) (ht : Tracks ses.solver c) (hlast : c.last = some .unsat)
    (hc : Inside b (OnBadPath s n first) c) (hidle : b.active = []) (hn : 0 < n)
    (hbelow : s.dynamics.SafeBelow (n + 1)) (hcov : Covering s lenient n first covered)
    (hrounds : L ∨ Nat.card (State s.vars.elements) < rounds + {a | s.Holds covered a}.ncard) :
    Meets (cover u rounds covered : Talk σ (Option (Outcome S A))) ses
      (fun o ses' => (o = none ∨ o = some .safe ∧ s.dynamics.Safe) ∧ Tracks ses'.solver ⟨b.outer, b.scope, none⟩)
      (Cut L lost) := by
  have haccepts : ∀ {e : Formula}, lenient ∨ e.Predicate (s.Upto 0) → lenient ∨ e.Predicate fun _ => True :=
    .imp_right .weaken
  induction rounds generalizing first covered c ses with
  | zero =>
      refine .inl (hrounds.resolve_right fun h => ?_)
      have := Set.ncard_le_card {a | s.Holds covered a}
      omega
  | succ k ih =>
      rw [cover]
      refine (meets_image st ht hlast hc hcov.newest hn).bind ?_
      rintro new ses₁ ⟨ht₁, hnew, himage⟩
      refine (Talk.meets_pop st.contract st.cut ht₁ hc.outer).bind fun _ ses₂ ht₂ => ?_
      have hnot : lenient ∨ covered.mkNot.Predicate (s.Upto 0) := hcov.all.imp_right fun h => h.mkNot
      refine (meets_isCovered st ht₂ (haccepts hnew) (haccepts hnot) hidle).bind ?_
      rintro status ses₃ ⟨ht₃, hunsat, hsat⟩
      cases status with
      | unsat =>
          exact ⟨.inr ⟨rfl, hcov.safe hn hbelow himage (hunsat rfl)⟩, ht₃⟩
      | unknown => exact ⟨.inl rfl, ht₃⟩
      | sat =>
          refine (meets_split st ht₃ hidle (haccepts hnew) hn).bind ?_
          rintro _ ses₄ ⟨d, ht₄, hd⟩
          refine (meets_assertViolation st ht₄ hd).bind ?_
          rintro _ ses₅ ⟨d', ht₅, hd'⟩
          refine (Talk.meets_check st.contract st.cut ht₅).bind ?_
          rintro status ses₆ ⟨ht₆, -⟩
          cases status with
          | sat | unknown =>
              exact (Talk.meets_pop st.contract st.cut ht₆ hd'.outer).bind fun _ _ ht₇ => ⟨.inl rfl, ht₇⟩
          | unsat =>
              refine ih ht₆ rfl ⟨hd'.outer, hd'.active⟩ (hcov.extend hn hbelow hnew himage) ?_
              by_cases hL : L
              · exact .inl hL
              · have hl : ¬ lenient := fun h => hL (st.cut h)
                have hlt := Set.ncard_lt_ncard
                  (ssubset_mkOr (hcov.all.resolve_left hl) (hnew.resolve_left hl) (hsat rfl))
                exact .inr (by have := hrounds.resolve_left hL; omega)

omit [Solver σ] st in
theorem satisfies_onBadPath_initial (hs : s.Regular) (hn : 0 < n) {τ : Assignment} :
    (∀ a, OnBadPath s n s.initial a → τ.Satisfies a.2) ↔ s.Refutes τ n := by
  rw [satisfies_onBadPath hs hn]
  constructor
  · rintro ⟨⟨hfirst, hsteps⟩, hbad⟩
    exact ⟨⟨fun _ => hfirst, fun i hi => hsteps i (by omega)⟩, hbad⟩
  · rintro ⟨⟨hfirst, hsteps⟩, hbad⟩
    exact ⟨⟨hfirst n.succ_pos, fun i hi => hsteps i (by omega)⟩, hbad⟩

omit st in
/-- What `refine` does once the path is open, and may be possible. -/
def decideViolation (u : Unrolling) (rounds : Nat) (r : Reconstruction S A) (checked : Nat) :
    Talk σ (Option (Outcome S A) × Nat) := do
  assertViolation u
  match ← Talk.check with
  | .sat =>
    let t ← Search.counterexample u r u.lastFrame
    Talk.pop
    return (some (.violated t), checked)
  | .unknown =>
    Talk.pop
    return (none, checked)
  | .unsat => return (← cover u rounds u.init, u.lastFrame + 1)

omit st in
theorem refine_eq {rounds checked : Nat} :
    (refine u rounds loopFree r checked : Talk σ (Option (Outcome S A) × Nat)) = (do
      split u u.init
      if loopFree then
        if ← isBeyondPaths u then
          Talk.pop
          return (some .safe, checked)
        else decideViolation u rounds r checked
      else decideViolation u rounds r checked) :=
  rfl

/-- What the newest frame settles, or how far the frames are good after it. -/
def Refined (s : TransitionSystem) (r : Reconstruction S A) (lost L : Prop) (n : Nat) :
    Option (Outcome S A) × Nat → Prop
  | (some o, _) => s.Settled r lost L n o
  | (none, p) => p ≤ n + 1 ∧ s.dynamics.SafeBelow p ∧ (L ∨ p = n + 1)

theorem meets_decideViolation {rounds : Nat} (ht : Tracks ses.solver c)
    (hc : Inside b (OnPath s n s.initial) c) (hidle : b.active = []) (hn : 0 < n)
    (hbelow : s.dynamics.SafeBelow n) (hrounds : L ∨ Nat.card (State s.vars.elements) < rounds) :
    Meets (decideViolation u rounds r n) ses
      (fun o ses' => Refined s r (lost ses'.solver) L n o ∧ Tracks ses'.solver ⟨b.outer, b.scope, none⟩)
      (Cut L lost) := by
  rw [decideViolation, st.unrolled.lastFrame, st.unrolled.init]
  refine (meets_assertViolation st ht hc).bind ?_
  rintro _ ses₁ ⟨d, ht₁, hd⟩
  have hsat : ∀ τ, d.Satisfied τ ↔ s.Refutes τ n := fun τ => by
    rw [hd.satisfied, satisfies_onBadPath_initial st.regular hn]
  refine (Talk.meets_check st.contract st.cut ht₁).bind ?_
  rintro status ses₂ ⟨ht₂, hunsat, hmodel, hunknown⟩
  cases status with
  | sat =>
      refine (Search.meets_counterexample st ht₂ rfl le_rfl (hmodel rfl) fun τ hτ => (hsat τ).mp hτ).bind ?_
      rintro t ses₃ ⟨ht₃, hlen, τ, hτ, htrace⟩
      refine (Talk.meets_close st.contract st.cut ht₃ hd.outer).bind fun _ ses₄ ht₄ => ?_
      exact ⟨⟨n, le_rfl, hlen, hbelow, τ, hτ, htrace.imp_left ht₄.2⟩, ht₄.1⟩
  | unknown =>
      refine (Talk.meets_pop st.contract st.cut ht₂ hd.outer).bind fun _ ses₃ ht₃ => ?_
      exact ⟨⟨n.le_succ, hbelow, .inl (hunknown rfl)⟩, ht₃⟩
  | unsat =>
      have hinit := st.regular.predicate_initial
      have hgood : s.dynamics.SafeBelow (n + 1) := st.regular.safeBelow_succ hbelow fun τ hτ _ => by
        by_contra hbad
        exact hunsat rfl τ ((hsat τ).mpr ⟨hτ, hbad⟩)
      have hcov : Covering s lenient n s.initial s.initial :=
        ⟨.inr hinit, .inr hinit, .inr ⟨hinit, hinit, covers_initial⟩⟩
      have hless : L ∨ Nat.card (State s.vars.elements) < rounds + {a | s.Holds s.initial a}.ncard :=
        hrounds.imp_right fun h => h.trans_le (Nat.le_add_right _ _)
      refine (meets_cover st rounds ht₂ rfl ⟨hd.outer, hd.active⟩ hidle hn hgood hcov hless).bind ?_
      rintro o ses₃ ⟨rfl | ⟨rfl, hsafe⟩, ht₃⟩
      · exact ⟨⟨le_rfl, hgood, .inr rfl⟩, ht₃⟩
      · exact ⟨hsafe, ht₃⟩

/-- The newest frame is examined, all frames before it being good. -/
theorem meets_refine {rounds : Nat} (ht : Tracks ses.solver b) (hidle : b.active = []) (hn : 0 < n)
    (hbelow : s.dynamics.SafeBelow n) (hrounds : L ∨ Nat.card (State s.vars.elements) < rounds) :
    Meets (refine u rounds loopFree r n) ses
      (fun o ses' => Refined s r (lost ses'.solver) L n o ∧ Tracks ses'.solver ⟨b.outer, b.scope, none⟩)
      (Cut L lost) := by
  rw [refine_eq, st.unrolled.init]
  refine (meets_split st ht hidle (.inr st.regular.predicate_initial.weaken) hn).bind ?_
  rintro _ ses₁ ⟨c, ht₁, hc⟩
  cases loopFree with
  | false => exact meets_decideViolation st ht₁ hc hidle hn hbelow hrounds
  | true =>
      refine (meets_isBeyondPaths st ht₁ hc hn).bind ?_
      rintro beyond ses₂ ⟨hbeyond, ht₂⟩
      cases beyond with
      | true =>
          refine (Talk.meets_pop st.contract st.cut ht₂ hc.outer).bind fun _ ses₃ ht₃ => ?_
          exact ⟨hbeyond rfl hbelow, ht₃⟩
      | false => exact meets_decideViolation st ht₂ ⟨hc.outer, hc.active⟩ hidle hn hbelow hrounds

/-- A turn of interpolation. -/
theorem meets_turn {rounds : Nat} (ht : Tracks ses.solver c) (hidle : c.active = []) (hn : 0 < n) (hf : f ≤ n)
    (hbelow : s.dynamics.SafeBelow f) (hrounds : L ∨ Nat.card (State s.vars.elements) < rounds) :
    Meets (turn u rounds loopFree r f) ses
      (fun o ses' => match o with
        | (some o, _) => s.Settled r (lost ses'.solver) L n o
        | (none, p) => p ≤ n + 1 ∧ (L ∨ p = n + 1) ∧ Progress s Tracks p ses')
      (Cut L lost) := by
  rw [turn, st.unrolled.lastFrame]
  refine (meets_violationsFrom st (n - f) ht hidle (by omega) hbelow).bind fun o ses₁ ho => ?_
  match o, ho with
  | (some (some o), p), ho => exact ho
  | (some none, p), ⟨hL, hp, hprogress⟩ => exact ⟨by omega, .inl hL, hprogress⟩
  | (none, p), ⟨hp, hbelow', d, ht₁, hd⟩ =>
      subst hp
      refine (Talk.meets_push st.contract ht₁).bind fun _ ses₂ ht₂ => ?_
      have hidle₂ : d.push.active = [] := hd
      refine Talk.meets_andFinally (meets_refine st ht₂ hidle₂ hn hbelow' hrounds) (fun o ses₃ ⟨ho, ht₃⟩ => ?_)
        fun _ => Talk.lost_pop st.contract
      refine (Talk.meets_close st.contract st.cut ht₃ rfl).imp fun _ ses₄ ⟨ht₄, hlost⟩ => ?_
      match o, ho with
      | (some o, _), ho => exact ho.mono hlost
      | (none, p), ⟨hp, hgood, hL⟩ => exact ⟨hp, hL, hgood, _, ht₄, hd⟩

end Interpolation

end Invariance
