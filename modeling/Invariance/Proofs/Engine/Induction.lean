import Invariance.Engine.Induction
import Invariance.Proofs.Engine.Search

/-!
Induction. Its context holds a path of good states from anywhere, and it settles the property where no such path
can end in a violation. The shortest execution to a violation would be such a path.
-/

namespace Invariance.Induction

open TransitionSystem Invariance.Dynamics

variable {σ S A : Type} [Solver σ] {lenient L : Prop} {lost : σ → Prop} {Tracks : σ → Context → Prop}
variable {s : TransitionSystem} {u : Unrolling} {n p : Nat} {ses : Session σ} {c : Context} {loopFree : Bool}

/-- The context holds no more than that `p` steps lead through good states, all different, from anywhere. -/
def Prolonged (s : TransitionSystem) (p : Nat) (c : Context) : Prop :=
  ∀ τ : Assignment, (∀ i < p, τ.Satisfies (s.propIn i) ∧ τ.Satisfies (s.stepFrom i)) → s.Apart τ (p + 1) →
    c.Satisfied τ

omit [Solver σ] in
theorem prolonged_zero (hc : c.active = []) : Prolonged s 0 c := by
  intro τ _ _ a ha
  rw [hc] at ha
  cases ha

variable (st : Stage lenient lost Tracks L s n u)

include st

theorem meets_prolong (ht : Tracks ses.solver c) (hc : Prolonged s p c) (hp : p < n) :
    Meets (prolong u loopFree p) ses (fun _ ses' => ∃ d, Tracks ses'.solver d ∧ Prolonged s (p + 1) d)
      (Cut L lost) := by
  rw [prolong, st.unrolled.propAt st.regular hp.le, st.unrolled.stepAt hp]
  have hprop : lenient ∨ (s.propIn p).Predicate fun _ => True := .inr (st.regular.predicate_propIn p).weaken
  have hstep : lenient ∨ (s.stepFrom p).Predicate fun _ => True := .inr (st.regular.predicate_stepFrom p).weaken
  refine (Talk.meets_assert st.contract st.cut ht none hprop).bind fun _ ses₁ ht₁ => ?_
  refine (Talk.meets_assert st.contract st.cut ht₁ none hstep).bind fun _ ses₂ ht₂ => ?_
  have hprolonged : ∀ τ : Assignment, (∀ i < p + 1, τ.Satisfies (s.propIn i) ∧ τ.Satisfies (s.stepFrom i)) →
      s.Apart τ (p + 1) → ((c.assert none (s.propIn p)).assert none (s.stepFrom p)).Satisfied τ :=
    fun τ hτ hapart => by
      rw [Context.satisfied_assert, Context.satisfied_assert]
      obtain ⟨hgood, htaken⟩ := hτ p p.lt_succ_self
      exact ⟨⟨hc τ (fun i hi => hτ i (by omega)) hapart, hgood⟩, htaken⟩
  cases loopFree with
  | false => exact ⟨_, ht₂, fun τ hτ hapart => hprolonged τ hτ (hapart.mono (p + 1).le_succ)⟩
  | true =>
      obtain ⟨es, hes, hpred, hadm, -⟩ := st.unrolled.exists_distinct hp
      rw [if_pos rfl, hes]
      refine (Talk.meets_assertAll st.contract st.cut ht₂ none fun e he => Or.inr (hpred e he).weaken).imp ?_
      intro _ ses₃ ht₃
      refine ⟨_, ht₃, fun τ hτ hapart => ?_⟩
      rw [Context.satisfied_assertAll]
      exact ⟨hprolonged τ hτ (hapart.mono (p + 1).le_succ),
        hadm τ fun i hi => hapart i (p + 1) hi (p + 1).lt_succ_self⟩

theorem meets_conclude (ht : Tracks ses.solver c) (hc : Prolonged s n c) (hbelow : s.dynamics.SafeBelow n) :
    Meets (conclude u) ses
      (fun status ses' => (status = .unsat → s.dynamics.Safe) ∧ Tracks ses'.solver ⟨c.outer, c.scope, none⟩)
      (Cut L lost) := by
  rw [conclude, st.unrolled.lastFrame, st.unrolled.violationAt st.regular le_rfl]
  have hprop := st.regular.predicate_propIn n
  refine (Talk.meets_push st.contract ht).bind fun _ ses₁ ht₁ => ?_
  refine (Talk.meets_assert st.contract st.cut ht₁ none (.inr hprop.mkNot.weaken)).bind fun _ ses₂ ht₂ => ?_
  refine (Talk.meets_check st.contract st.cut ht₂).bind ?_
  rintro status ses₃ ⟨ht₃, hunsat, -⟩
  refine (Talk.meets_pop st.contract st.cut ht₃ rfl).bind fun _ ses₄ ht₄ => ?_
  refine ⟨fun hstatus => safe_of_induction hbelow fun π hpath hfree hgood => ?_, ht₄⟩
  obtain ⟨τ, hstate, hstep⟩ := st.regular.exists_assignment hpath
  have hiff : ∀ i ≤ n, (s.dynamics.Good (π i) ↔ τ.Satisfies (s.propIn i)) := fun i hi => by
    rw [← hstate i hi, st.regular.good_iff]
  rw [hiff n le_rfl]
  by_contra hbad
  refine hunsat hstatus τ ?_
  rw [Context.satisfied_assert, Context.satisfied_push, Assignment.satisfies_mkNot hprop]
  refine ⟨hc τ (fun i hi => ⟨(hiff i hi.le).mp (hgood i hi), hstep i hi⟩) fun i j hij hj => ?_, hbad⟩
  rw [hstate i (by omega), hstate j (by omega)]
  exact hfree i j hij (by omega)

/-- A turn of induction, the executions shorter than the unrolling being good. -/
theorem meets_turn (ht : Tracks ses.solver c) (hc : Prolonged s p c) (hp : p ≤ n)
    (hbelow : s.dynamics.SafeBelow n) {r : Reconstruction S A} :
    Meets (turn u loopFree p : Talk σ (Option (Outcome S A) × Nat)) ses
      (fun o ses' => match o with
        | (some o, _) => s.Settled r (lost ses'.solver) L n o
        | (none, q) => q = n ∧ ∃ d, Tracks ses'.solver d ∧ Prolonged s n d)
      (Cut L lost) := by
  rw [turn, st.unrolled.size_steps]
  have hloop := meets_forM (l := List.range' p (n - p)) (f := prolong u loopFree) (s := ses)
    (E := (Cut L lost))
    (fun done ses' => ∃ d, Tracks ses'.solver d ∧ Prolonged s (p + done.length) d)
    (fun done frame rest ses' hl ⟨d, ht', hd⟩ => by
      have hlen := congrArg List.length hl
      rw [List.length_range', List.length_append, List.length_cons] at hlen
      have hframe : frame = p + done.length := by
        have hget : (List.range' p (n - p))[done.length]? = some frame := by rw [hl]; simp
        rw [List.getElem?_range' (by omega)] at hget
        simpa [eq_comm] using hget
      rw [hframe, List.length_append]
      exact meets_prolong st ht' hd (by omega))
    ⟨c, ht, hc⟩
  refine hloop.bind ?_
  rintro _ ses₁ ⟨d, ht₁, hd⟩
  rw [List.length_range', Nat.add_sub_cancel' hp] at hd
  refine (meets_conclude st ht₁ hd hbelow).bind ?_
  rintro status ses₂ ⟨hunsat, ht₂⟩
  cases status with
  | unsat => exact hunsat rfl
  | sat | unknown => exact ⟨Nat.max_eq_right hp, _, ht₂, hd⟩

end Invariance.Induction
