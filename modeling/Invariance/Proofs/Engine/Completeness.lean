import Invariance.Proofs.Dynamics.Finite
import Invariance.Proofs.Engine.Counterexamples

/-!
Completeness. A solver that is never in doubt makes no run miss a violation: the first iteration that looks as far as
the shortest one ends the run with a trace of its length. On loop-free paths the run ends in any case, as there are only
so many states.
-/

namespace Invariance.Checker

open TransitionSystem Invariance.Dynamics DecisionSolver

variable {s : TransitionSystem} {schedule : Schedule} {limits : Limits}
variable {bmc kInduction imc : Option (Supplied DecisionSolver)} {c c' : Checker DecisionSolver}
variable {result : Except (Halt CheckError) (Verdict Valuation Update)}

/-- Every strategy that has its turn in some iteration has a solver. -/
def Staffed (schedule : Schedule) (bmc kInduction imc : Option (Supplied DecisionSolver)) : Prop :=
  ∀ a i, 0 < i → schedule.has i a = true → (supplied bmc kInduction imc a).isSome

/-- Induction has its turn only where the search has, which is its base case. -/
def Grounded (schedule : Schedule) : Prop :=
  ∀ i, 0 < i → schedule.kInduction i = true → schedule.bmc i = true

/-- The bounds on a run allow for so many iterations, and for as many interpolants as there can be states. -/
structure Allow (limits : Limits) (s : TransitionSystem) (n : Nat) : Prop where
  iterations : n ≤ limits.iterations
  rounds : 2 ^ totalBits s.vars.elements < limits.rounds

/-- Under the exact contract, iterations are cut short only by a solver that is lost. -/
theorem plan_of_exact {free : Prop} {n N : Nat} (hs : s.Monolithic) (hgrounded : Grounded schedule)
    (hallow : Allow limits s n) (hfree : free → ∀ k, schedule.loopFree k = true) (hN : N < Word.bound32) :
    Plan False Crowded Tracks False free s schedule limits N where
  stage _ _ _ hu := ⟨contract False, id, hs.regular, hu⟩
  regular := hs.regular
  loopFree := hfree
  moving _ := ⟨⟨"x", .bool⟩, by rw [hs.offset, Clock.get_all]; exact Nat.one_pos⟩
  generations := .inr fun n hn => by
    have hrest : s.offset.rest = 1 := by rw [hs.offset]; rfl
    rw [hrest, Nat.mul_one, hs.frame_eq]
    exact ⟨hn.trans_lt hN, fun _ => hn.trans_lt hN⟩
  rounds := .inr ((State.card_le (SortedSet.nodup_elements _)).trans_lt hallow.rounds)
  baseCase := .inr hgrounded

/-- A run that nothing but a lost solver can cut short has a verdict if no solver is lost in the end. -/
theorem exists_ok_of_room {x : Run DecisionSolver (Verdict Valuation Update)}
    {Q : Verdict Valuation Update → Checker DecisionSolver → Prop} (h : Meets x c Q (Stops False Crowded))
    (hrun : x.run.run c = (result, c')) (hroom : ¬ c'.Loses Crowded) : ∃ v, result = .ok v ∧ Q v c' := by
  unfold Meets at h
  rw [hrun] at h
  cases result with
  | error e => exact absurd (h.resolve_left id) hroom
  | ok v => exact ⟨v, rfl, h⟩

/-! ### The shortest violation is found -/

/-- The shortest violations have `d` steps. -/
structure Distance (s : TransitionSystem) (d : Nat) : Prop where
  violation : ∃ π, s.Violation π d
  least : ∀ m < d, ∀ π, ¬ s.Violation π m

/-- The first iteration, from the given number on, in which search or interpolation has its turn. The run does not give
up before it. -/
structure Due (schedule : Schedule) (d i : Nat) : Prop where
  pos : 0 < i
  le : d ≤ i
  turn : schedule.bmc i = true ∨ schedule.imc i = true
  idle : ∀ j, 0 < j → d ≤ j → j < i → schedule.bmc j = false ∧ schedule.imc j = false
  patient : ∀ m < i, schedule.givesUp m = false

theorem Distance.le_of_safeBelow {d n : Nat} (h : Distance s d) (hs : s.Monolithic) (hn : s.dynamics.SafeBelow n) :
    n ≤ d := by
  by_contra hlt
  obtain ⟨π, hπ⟩ := h.violation
  exact hs.safeBelow_iff.mp hn d (by omega) π hπ

theorem Distance.eq_of_refutes {d n : Nat} {τ : Assignment} (h : Distance s d) (hs : s.Monolithic)
    (hτ : s.Refutes τ n) (hn : s.dynamics.SafeBelow n) : n = d := by
  apply Nat.le_antisymm (h.le_of_safeBelow hs hn)
  by_contra hlt
  exact h.least n (by omega) _ (hs.refutes_iff.mp hτ)

/-- Before it is due no strategy has its turn, as induction has none without the search. -/
theorem Due.eq_of_has {d i n : Nat} {a : Strategy} (h : Due schedule d i)
    (hgrounded : Grounded schedule) (hn : 0 < n) (hdn : d ≤ n) (hni : n ≤ i) (ha : schedule.has n a = true) : n = i := by
  by_contra hne
  obtain ⟨hbmc, himc⟩ := h.idle n hn hdn (by omega)
  cases a with
  | bmc => exact absurd ha (by simp [Schedule.has, hbmc])
  | kInduction => exact absurd (hgrounded n hn ha) (by simp [hbmc])
  | imc => exact absurd ha (by simp [Schedule.has, himc])

section Shortest

variable {d i n : Nat} (hs : s.Monolithic) (hdistance : Distance s d) (hdue : Due schedule d i)

include hs hdistance hdue

/-- An iteration that is due does not pass. -/
theorem lt_of_passed (hni : n ≤ i) (h : Passed s False False schedule n) : n < i := by
  have hfar : ¬ s.dynamics.SafeBelow (i + 1) := fun hsafe => by
    have := hdistance.le_of_safeBelow hs hsafe
    have := hdue.le
    omega
  apply lt_of_le_of_ne hni
  rintro rfl
  rcases hdue.turn with hbmc | himc
  · exact hfar (h .bmc hbmc).1
  · exact hfar ((h .imc himc).resolve_left id)

/-- What an iteration decides is the violation, once it is due. -/
theorem violated_of_decided (hgrounded : Grounded schedule) {lost : Prop} {v : Verdict Valuation Update} (hn : 0 < n)
    (hni : n ≤ i) (h : Decided s .explicit lost False schedule n v) :
    ∃ t, v = .violated (if schedule.bmc i then .bmc else .imc) i t ∧ t.length = d := by
  obtain ⟨a, o, rfl, ha, hsettled, hsearched⟩ := h
  cases o with
  | safe =>
      obtain ⟨π, hπ⟩ := hdistance.violation
      exact absurd hπ (hs.safe_iff.mp hsettled d π)
  | unknown => exact hsettled.elim
  | violated t =>
      obtain ⟨f, hfn, hlength, hbelow, τ, hτ, -⟩ := hsettled
      have hfd : f = d := hdistance.eq_of_refutes hs hτ hbelow
      obtain rfl : n = i := hdue.eq_of_has hgrounded hn (hfd ▸ hfn) hni ha
      -- where the search had its turn before, it left no violation within the unrolling
      have hfirst : schedule.bmc n = true → a = .bmc := by
        intro hb
        by_contra hne
        have := hdistance.le_of_safeBelow hs (hsearched hne hb)
        omega
      have hstrategy : a = if schedule.bmc n then .bmc else .imc := by
        cases hb : schedule.bmc n with
        | true => exact hfirst hb
        | false =>
            cases a with
            | bmc => exact absurd ha (by simp [Schedule.has, hb])
            | kInduction => exact absurd (hgrounded n hn ha) (by simp [hb])
            | imc => rfl
      exact ⟨t, by rw [hstrategy]; rfl, hlength.trans hfd⟩

end Shortest

/-- The first iteration that looks as far as the shortest violation ends the run with a trace of its length. Generations
are words of 32 bits, and no solver is to run out of literals. -/
theorem run_eq_violated_of_distance (h : Begins s bmc kInduction imc c) (hstaffed : Staffed schedule bmc kInduction imc)
    (hgrounded : Grounded schedule) {d i : Nat} (hdistance : Distance s d) (hdue : Due schedule d i)
    (hallow : Allow limits s i) (hi : i < Word.bound32) (hrun : (run limits schedule .explicit).run.run c = (result, c'))
    (hroom : ¬ c'.Loses Crowded) :
    ∃ t, result = .ok (.violated (if schedule.bmc i then .bmc else .imc) i t) ∧ t.length = d := by
  have hs := h.monolithic
  have hmeets : Meets (run limits schedule .explicit) c
      (fun v _ => ∃ t, v = .violated (if schedule.bmc i then .bmc else .imc) i t ∧ t.length = d)
      (Stops False Crowded) := by
    apply meets_runFrom fun m c => m < i ∧ Ready s Tracks False False schedule (fun _ => m) m c
    · intro m c hm hg
      rw [hdue.patient m hm.1] at hg
      cases hg
    · intro m c hm _
      apply (meets_iterate (plan_of_exact hs hgrounded hallow False.elim hi) hm.2 hm.1).imp
      rintro (_ | v) c' hv
      · exact ⟨lt_of_passed hs hdistance hdue hm.1 hv.2, hv.1⟩
      · exact violated_of_decided hs hdistance hdue hgrounded m.succ_pos hm.1 hv
    · intro c hc
      have := hallow.iterations
      omega
    · exact ⟨hdue.pos, h.ready (.inr hstaffed)⟩
  obtain ⟨v, rfl, t, rfl, ht⟩ := exists_ok_of_room hmeets hrun hroom
  exact ⟨t, rfl, ht⟩

theorem distance_toggle : Distance toggle 1 where
  violation := by
    refine ⟨fun i => SortedMap.empty.insert ⟨"x", .bool⟩ (.bool (i == 1)), fun i _ => ⟨rfl, fun x w hw => ?_⟩, rfl, ?_, rfl⟩
    · rw [SortedMap.get?_insert] at hw
      split at hw
      · next heq =>
          cases hw
          rw [heq]
          rfl
      · cases hw
    · intro i hi
      obtain rfl := Nat.lt_one_iff.mp hi
      rfl
  least m hm π hπ := by
    obtain rfl := Nat.lt_one_iff.mp hm
    cases hπ.init.symm.trans hπ.bad

/-- Search in every other iteration. -/
def evenOnly : Schedule where
  bmc i := i % 2 == 0
  kInduction _ := false
  imc _ := false

/-- In the second iteration, the search goes back to the frame that it has skipped. -/
theorem run_toggle_eq_violated : ∃ x c c' t, ofBits 0 = .ok x ∧
    ofSystem toggle (some ⟨0, x⟩) (some ⟨1, x⟩) (some ⟨2, x⟩) = .ok c ∧
    (run ⟨2, 3⟩ evenOnly .explicit).run.run c = (.ok (.violated .bmc 2 t), c') ∧ t.length = 1 := by
  have hstart : ∃ x c, ofBits 0 = .ok x ∧
      ofSystem toggle (some ⟨0, x⟩) (some ⟨1, x⟩) (some ⟨2, x⟩) = .ok c ∧
      ¬ ((run (A := Update) ⟨2, 3⟩ evenOnly .explicit).run.run c).2.Loses Crowded :=
    ⟨_, _, rfl, rfl, by decide +kernel⟩
  obtain ⟨x, c, hx, hc, hroom⟩ := hstart
  have hstaffed : Staffed evenOnly (some ⟨0, x⟩) (some ⟨1, x⟩) (some ⟨2, x⟩) := by
    rintro (_ | _ | _) _ _ _ <;> rfl
  have hdue : Due evenOnly 1 2 := {
    pos := by decide
    le := by decide
    turn := .inl rfl
    idle := fun j hj _ hji => by
      obtain rfl : j = 1 := by omega
      exact ⟨rfl, rfl⟩
    patient := fun _ _ => rfl }
  have hallow : Allow ⟨2, 3⟩ toggle 2 := ⟨le_rfl, by decide⟩
  obtain ⟨t, hresult, ht⟩ := run_eq_violated_of_distance (begins_of_ofBits monolithic_toggle hx hc) hstaffed
    (fun _ _ hk => nomatch hk) distance_toggle hdue hallow (by decide) Prod.mk.eta.symm hroom
  exact ⟨x, c, _, t, hx, hc, Prod.ext hresult rfl, ht⟩

/-! ### On loop-free paths the run ends -/

/-- What an iteration decides is that the property holds, or that it does not. -/
theorem decides_of_decided {lost : Prop} {n N : Nat} {v : Verdict Valuation Update} (hs : s.Monolithic) (hn : n ≤ N)
    (h : Decided s .explicit lost False schedule n v) :
    (v.isSafe = true ∨ v.isViolated = true) ∧ v.iteration ≤ N ∧ (v.isSafe = true ↔ s.dynamics.Safe) := by
  obtain ⟨a, o, rfl, -, hsettled, -⟩ := h
  cases o with
  | safe => exact ⟨.inl rfl, hn, fun _ => hsettled, fun _ => rfl⟩
  | unknown => exact hsettled.elim
  | violated t =>
      obtain ⟨f, -, -, -, τ, hτ, -⟩ := hsettled
      exact ⟨.inr rfl, hn, iff_of_false (by simp [Verdict.ofOutcome, Verdict.isSafe]) (hτ.not_safe hs.regular)⟩

/-- With search in every iteration and on loop-free paths only, the run decides the property, within as many iterations
as there can be states. -/
theorem decides_run_of_loopFree (h : Begins s bmc kInduction imc c) (hstaffed : Staffed schedule bmc kInduction imc)
    (hbits : totalBits s.vars.elements ≤ 31) (hbmc : ∀ i, 0 < i → schedule.bmc i = true)
    (hfree : ∀ k, schedule.loopFree k = true)
    (hpatient : ∀ m < 2 ^ totalBits s.vars.elements, schedule.givesUp m = false)
    (hallow : Allow limits s (2 ^ totalBits s.vars.elements))
    (hrun : (run limits schedule .explicit).run.run c = (result, c')) (hroom : ¬ c'.Loses Crowded) :
    ∃ v, result = .ok v ∧ (v.isSafe = true ∨ v.isViolated = true) ∧ v.iteration ≤ 2 ^ totalBits s.vars.elements ∧
      (v.isSafe = true ↔ ∀ n π, ¬ s.Violation π n) := by
  have hs := h.monolithic
  have hgrounded : Grounded schedule := fun i hi _ => hbmc i hi
  have hbound : 2 ^ totalBits s.vars.elements < Word.bound32 :=
    (Nat.pow_le_pow_right (by decide) hbits).trans_lt (by decide)
  have hmeets : Meets (run limits schedule .explicit) c
      (fun v _ => (v.isSafe = true ∨ v.isViolated = true) ∧ v.iteration ≤ 2 ^ totalBits s.vars.elements ∧
        (v.isSafe = true ↔ s.dynamics.Safe))
      (Stops False Crowded) := by
    apply meets_runFrom fun m c =>
      m < 2 ^ totalBits s.vars.elements ∧ Ready s Tracks False True schedule (fun _ => m) m c
    · intro m c hm hg
      rw [hpatient m hm.1] at hg
      cases hg
    · intro m c hm _
      apply (meets_iterate (plan_of_exact hs hgrounded hallow (fun _ => hfree) hbound) hm.2 hm.1).imp
      rintro (_ | v) c' hv
      · obtain ⟨π, -, hloop⟩ := ((hv.2 .bmc (hbmc _ m.succ_pos)).2 trivial).resolve_left id
        exact ⟨hloop.lt_card.trans_le (State.card_le (SortedSet.nodup_elements _)), hv.1⟩
      · exact decides_of_decided hs hm.1 hv
    · intro c hc
      have := hallow.iterations
      omega
    · exact ⟨Nat.two_pow_pos _, h.ready (.inr hstaffed)⟩
  obtain ⟨v, rfl, hdone, hiteration, hsafe⟩ := exists_ok_of_room hmeets hrun hroom
  exact ⟨v, rfl, hdone, hiteration, hsafe.trans hs.safe_iff⟩

/-- All strategies together find that the bit is never set, in as many iterations as it has values. -/
theorem decides_run_latch : ∃ x c v c', ofBits 0 = .ok x ∧
    ofSystem latch (some ⟨0, x⟩) (some ⟨1, x⟩) (some ⟨2, x⟩) = .ok c ∧
    (run ⟨2, 3⟩ .always .explicit).run.run c = (.ok v, c') ∧ v.iteration ≤ 2 ∧
    (v.isSafe = true ↔ ∀ n π, ¬ latch.Violation π n) := by
  have hstart : ∃ x c, ofBits 0 = .ok x ∧
      ofSystem latch (some ⟨0, x⟩) (some ⟨1, x⟩) (some ⟨2, x⟩) = .ok c ∧
      ¬ ((run (A := Update) ⟨2, 3⟩ .always .explicit).run.run c).2.Loses Crowded :=
    ⟨_, _, rfl, rfl, by decide +kernel⟩
  obtain ⟨x, c, hx, hc, hroom⟩ := hstart
  have hstaffed : Staffed .always (some ⟨0, x⟩) (some ⟨1, x⟩) (some ⟨2, x⟩) := by
    rintro (_ | _ | _) _ _ _ <;> rfl
  have hallow : Allow ⟨2, 3⟩ latch (2 ^ totalBits latch.vars.elements) := ⟨by decide, by decide⟩
  obtain ⟨v, hresult, -, hiteration, hsafe⟩ := decides_run_of_loopFree (begins_of_ofBits monolithic_latch hx hc) hstaffed
    (by decide) (fun _ _ => rfl) (fun _ => rfl) (fun _ _ => rfl) hallow Prod.mk.eta.symm hroom
  exact ⟨x, c, v, _, hx, hc, Prod.ext hresult rfl, hiteration, hsafe⟩

end Invariance.Checker
