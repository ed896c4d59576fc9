import Invariance.Proofs.Engine.Soundness
import Invariance.Proofs.Solver.Protocol
import Invariance.Solver.Script

/-!
Runs keep to the protocol of their solvers, whatever these answer. A turn leaves no scope open, so that the exchanges
of one solver are in order over a whole run if they are in order in each of its turns.
-/

namespace Invariance

variable {σ S A : Type} [Solver σ] {u : Unrolling} {r : Reconstruction S A} {loopFree : Bool} {b k : Nat}

/-! ### Turns -/

namespace Search

theorem keeps_reach (frame : Nat) : Keeps (σ := σ) b (reach u frame) ⟨k, none⟩ fun _ => ⟨k, none⟩ := by
  cases frame with
  | zero => exact .assert none _
  | succ frame => exact (Keeps.ofFault _).bind fun _ => .assert none _

theorem keeps_isBeyondPaths (frame : Nat) :
    Keeps (σ := σ) b (isBeyondPaths u frame) ⟨k, none⟩ fun _ => ⟨k, none⟩ := by
  apply (Keeps.ofFault _).bind
  intro es
  apply (Keeps.assertAll none es).bind
  intro _
  exact Keeps.check.bind fun _ => .pure _

theorem keeps_counterexample (frame : Nat) :
    Keeps (σ := σ) b (counterexample u r frame) ⟨k, some .sat⟩ fun _ => ⟨k, none⟩ := by
  apply Keeps.model.bind
  intro m
  cases u.trace m frame r with
  | ok t => exact .pure t
  | error h => exact .throw _

/-- A check for a violation, and the end of its scope. -/
theorem keeps_decide {ρ : Type} (frame : Nat) (violated : Trace S A → ρ) (unknown good : ρ) :
    Keeps (σ := σ) b (do
      let outcome ← match ← Talk.check with
        | .sat => do pure (violated (← counterexample u r frame))
        | .unknown => pure unknown
        | .unsat => pure good
      Talk.pop
      return outcome) ⟨k + 1, none⟩ fun _ => ⟨k, none⟩ := by
  apply Keeps.check.bind
  intro status
  have hclose : ∀ outcome : ρ, Keeps (σ := σ) b (do Talk.pop; return outcome) ⟨k + 1, none⟩ fun _ => ⟨k, none⟩ :=
    fun outcome => Keeps.pop.bind fun _ => .pure outcome
  cases status with
  | sat => exact (keeps_counterexample frame).bind fun t => (Keeps.pure _).bind hclose
  | unknown | unsat => exact (Keeps.pure _).bind hclose

theorem keeps_violation (frame : Nat) :
    Keeps (σ := σ) b (violation u r frame) ⟨k, none⟩ fun _ => ⟨k, none⟩ := by
  apply Keeps.push.bind
  intro _
  apply (Keeps.ofFault _).bind
  intro bad
  apply (Keeps.assert none bad).bind
  intro _
  exact keeps_decide frame _ _ _

theorem keeps_examine (frame : Nat) :
    Keeps (σ := σ) b (examine u loopFree r frame) ⟨k, none⟩ fun _ => ⟨k, none⟩ := by
  apply (keeps_reach frame).bind
  intro _
  split
  · apply (keeps_isBeyondPaths frame).bind
    intro beyond
    cases beyond with
    | true => exact .pure _
    | false => exact keeps_violation frame
  · exact keeps_violation frame

theorem keeps_examineFrom (n frame : Nat) :
    Keeps (σ := σ) b (examineFrom u loopFree r n frame) ⟨k, none⟩ fun _ => ⟨k, none⟩ := by
  induction n generalizing frame with
  | zero => exact .pure _
  | succ n ih =>
      apply (keeps_examine frame).bind
      intro outcome
      cases outcome with
      | some o => exact .pure _
      | none => exact ih (frame + 1)

end Search

namespace Induction

theorem keeps_prolong (frame : Nat) :
    Keeps (σ := σ) b (prolong u loopFree frame) ⟨k, none⟩ fun _ => ⟨k, none⟩ := by
  apply (Keeps.ofFault _).bind
  intro good
  apply (Keeps.assert none good).bind
  intro _
  apply (Keeps.ofFault _).bind
  intro step
  apply (Keeps.assert none step).bind
  intro _
  cases loopFree with
  | true => exact (Keeps.ofFault _).bind fun es => .assertAll none es
  | false => exact .pure _

theorem keeps_conclude : Keeps (σ := σ) b (conclude u) ⟨k, none⟩ fun _ => ⟨k, none⟩ := by
  apply Keeps.push.bind
  intro _
  apply (Keeps.ofFault _).bind
  intro bad
  apply (Keeps.assert none bad).bind
  intro _
  apply Keeps.check.bind
  intro status
  exact Keeps.pop.bind fun _ => .pure status

theorem keeps_turn (synced : Nat) :
    Keeps (σ := σ) b (turn (S := S) (A := A) u loopFree synced) ⟨k, none⟩ fun _ => ⟨k, none⟩ := by
  apply (Keeps.forM keeps_prolong _).bind
  intro _
  apply keeps_conclude.bind
  intro status
  cases status with
  | unsat | sat | unknown => exact .pure _

end Induction

namespace Interpolation

theorem keeps_violation (frame : Nat) :
    Keeps (σ := σ) b (violation u r frame) ⟨k, none⟩ fun _ => ⟨k, none⟩ := by
  apply Keeps.push.bind
  intro _
  apply (Keeps.assert none u.init).bind
  intro _
  apply (Keeps.assertAll none _).bind
  intro _
  apply (Keeps.ofFault _).bind
  intro bad
  apply (Keeps.assert none bad).bind
  intro _
  exact Search.keeps_decide frame _ _ _

theorem keeps_violationsFrom (n frame : Nat) :
    Keeps (σ := σ) b (violationsFrom u r n frame) ⟨k, none⟩ fun _ => ⟨k, none⟩ := by
  induction n generalizing frame with
  | zero => exact .pure _
  | succ n ih =>
      apply (keeps_violation frame).bind
      intro outcome
      cases outcome with
      | some o => exact .pure _
      | none => exact ih (frame + 1)

theorem keeps_split (first : Formula) :
    Keeps (σ := σ) b (split u first) ⟨k, none⟩ fun _ => ⟨k + 1, none⟩ := by
  apply Keeps.push.bind
  intro _
  apply (Keeps.assert (some .a) first).bind
  intro _
  apply (Keeps.ofFault _).bind
  intro step
  apply (Keeps.assert (some .a) step).bind
  intro _
  exact .assertAll (some .b) _

theorem keeps_assertViolation : Keeps (σ := σ) b (assertViolation u) ⟨k, none⟩ fun _ => ⟨k, none⟩ :=
  (Keeps.ofFault _).bind fun bad => .assert (some .b) bad

theorem keeps_isBeyondPaths : Keeps (σ := σ) b (isBeyondPaths u) ⟨k, none⟩ fun _ => ⟨k, none⟩ := by
  apply Keeps.push.bind
  intro _
  apply (Keeps.ofFault _).bind
  intro es
  apply (Keeps.assertAll none es).bind
  intro _
  apply Keeps.check.bind
  intro status
  exact Keeps.pop.bind fun _ => .pure _

theorem keeps_image : Keeps (σ := σ) b (image u) ⟨k, some .unsat⟩ fun _ => ⟨k, none⟩ := by
  apply (Keeps.interpolant .forward).bind
  intro e
  apply (Keeps.ofFault _).bind
  intro clock
  cases e.fold clock with
  | error e => exact .throw _
  | ok e => exact (Keeps.ofFault _).bind fun _ => .ofFault _

theorem keeps_isCovered (new covered : Formula) :
    Keeps (σ := σ) b (isCovered new covered) ⟨k, none⟩ fun _ => ⟨k, none⟩ := by
  apply Keeps.push.bind
  intro _
  apply (Keeps.assert (some .a) new).bind
  intro _
  apply (Keeps.assert (some .a) covered.mkNot).bind
  intro _
  apply Keeps.check.bind
  intro status
  exact Keeps.pop.bind fun _ => .pure status

/-- Every way out of the loop closes the scope it was entered with. -/
theorem keeps_cover (rounds : Nat) (covered : Formula) :
    Keeps (σ := σ) b (cover (S := S) (A := A) u rounds covered) ⟨k + 1, some .unsat⟩ fun _ => ⟨k, none⟩ := by
  induction rounds generalizing covered with
  | zero => exact .throw _
  | succ n ih =>
      apply keeps_image.bind
      intro new
      apply Keeps.pop.bind
      intro _
      apply (keeps_isCovered new covered).bind
      intro status
      cases status with
      | unsat | unknown => exact .pure _
      | sat =>
          apply (keeps_split new).bind
          intro _
          apply keeps_assertViolation.bind
          intro _
          apply Keeps.check.bind
          intro status
          cases status with
          | unsat => exact ih _
          | sat | unknown => exact Keeps.pop.bind fun _ => .pure _

theorem keeps_decideViolation (rounds checked : Nat) :
    Keeps (σ := σ) b (decideViolation u rounds r checked) ⟨k + 1, none⟩ fun _ => ⟨k, none⟩ := by
  apply keeps_assertViolation.bind
  intro _
  apply Keeps.check.bind
  intro status
  cases status with
  | sat => exact (Search.keeps_counterexample u.lastFrame).bind fun t => Keeps.pop.bind fun _ => .pure _
  | unknown => exact Keeps.pop.bind fun _ => .pure _
  | unsat => exact (keeps_cover rounds u.init).bind fun o => .pure _

theorem keeps_refine (rounds checked : Nat) :
    Keeps (σ := σ) b (refine u rounds loopFree r checked) ⟨k, none⟩ fun _ => ⟨k, none⟩ := by
  rw [refine_eq]
  apply (keeps_split u.init).bind
  intro _
  cases loopFree with
  | false => exact keeps_decideViolation rounds checked
  | true =>
      apply keeps_isBeyondPaths.bind
      intro beyond
      cases beyond with
      | true => exact Keeps.pop.bind fun _ => .pure _
      | false => exact keeps_decideViolation rounds checked

/-- A turn leaves no scope open, and closes its own after an error. -/
theorem meets_turn_stands (rounds checked : Nat) {ses : Session σ} (hs : Stands 0 ⟨0, none⟩ ses.log.toList) :
    Meets (turn u rounds loopFree r checked) ses (fun _ t => Stands 0 ⟨0, none⟩ t.log.toList)
      fun _ t => Ends True t.log.toList := by
  have hbefore : Meets (violationsFrom u r (u.lastFrame - checked) checked) ses
      (fun _ t => Stands 0 ⟨0, none⟩ t.log.toList) fun _ t => Ends True t.log.toList :=
    (keeps_violationsFrom _ checked ses hs).mono (fun _ _ ht => ht) fun _ _ ht => ht.ends_log
  apply hbefore.bind
  rintro ⟨outcome, checked⟩ t ht
  cases outcome with
  | some o => exact ht
  | none =>
      have hopened : Meets (Talk.push : Talk σ Unit) t (fun _ t' => Stands 0 ⟨1, none⟩ t'.log.toList)
          fun _ t' => Ends True t'.log.toList := Keeps.push t ht
      exact hopened.bind fun _ t' ht' => (keeps_refine rounds checked).andFinally ht'

end Interpolation

namespace Checker

variable {limits : Limits} {schedule : Schedule} {s : TransitionSystem} {c : Checker σ} {α β : Type}

/-- A turn starts a log of its own, which is in order. -/
theorem meets_turn_stands (a : Strategy) (progress : Nat) (x : σ) :
    Meets (turn limits r u loopFree progress a) ⟨x, #[]⟩ (fun _ t => Stands 0 ⟨0, none⟩ t.log.toList)
      fun _ t => Ends (a = .imc) t.log.toList := by
  cases a with
  | bmc =>
      exact (Search.keeps_examineFrom _ progress ⟨x, #[]⟩ stands_nil).mono (fun _ _ ht => ht)
        fun _ _ ht => ht.ends_log
  | kInduction =>
      exact (Induction.keeps_turn progress ⟨x, #[]⟩ stands_nil).mono (fun _ _ ht => ht) fun _ _ ht => ht.ends_log
  | imc =>
      refine (Interpolation.meets_turn_stands limits.rounds progress stands_nil).mono (fun _ _ ht => ht) ?_
      exact fun _ _ ht => ⟨ht.orderly, fun before y after heq hy => (ht.ends before y after heq hy).imp_right
        fun h => ⟨rfl, h.2⟩⟩

end Checker

/-! ### Runs -/

/-- The exchanges of a transcript with the solver of one strategy. -/
def exchangesWith (transcript : List (Strategy × Exchange)) (a : Strategy) : List Exchange :=
  (transcript.filter fun e => e.1 = a).map Prod.snd

/-- The transcript of a run that keeps to the protocol. -/
structure Disciplined (transcript : List (Strategy × Exchange)) : Prop where
  /-- The exchanges with each of the solvers are in order. -/
  orderly : ∀ a, Orderly (exchangesWith transcript a)
  /-- Once a request has failed there are no others, except that interpolation closes one scope of its own. -/
  ends : ∀ before a x after, transcript = before ++ (a, x) :: after → x.failed = true →
    after = [] ∨ a = .imc ∧ ∃ answer, after = [(.imc, .pop answer)]

/-- The transcript of a run between turns. -/
def Idle (transcript : List (Strategy × Exchange)) : Prop :=
  ∀ a, Stands 0 ⟨0, none⟩ (exchangesWith transcript a)

section Transcripts

variable {transcript : List (Strategy × Exchange)} {log : List Exchange} {a : Strategy}

theorem exchangesWith_append (d : Strategy) :
    exchangesWith (transcript ++ log.map (Prod.mk a)) d =
      exchangesWith transcript d ++ if a = d then log else [] := by
  rw [exchangesWith, List.filter_append, List.map_append, ← exchangesWith, List.filter_map, List.map_map]
  split
  · next h => simp [Function.comp_def, h]
  · next h => simp [Function.comp_def, h]

theorem Idle.granted (h : Idle transcript) {x : Exchange} (hx : (a, x) ∈ transcript) : ¬ x.failed = true := by
  refine (h a).granted x (List.mem_map.mpr ⟨(a, x), List.mem_filter.mpr ⟨hx, ?_⟩, rfl⟩)
  exact decide_eq_true rfl

theorem Idle.disciplined (h : Idle transcript) : Disciplined transcript where
  orderly a := (h a).orderly
  ends := by
    intro before a x after heq hx
    exact absurd hx (h.granted (a := a) (by simp [heq]))

/-- The log of a turn is entered. -/
theorem Idle.append (h : Idle transcript) (hlog : Stands 0 ⟨0, none⟩ log) :
    Idle (transcript ++ log.map (Prod.mk a)) := by
  intro d
  rw [exchangesWith_append]
  split
  · exact (h d).append hlog
  · rw [List.append_nil]
    exact h d

/-- The log of the last turn is entered. -/
theorem Idle.disciplined_append (h : Idle transcript) (hlog : Ends (a = .imc) log) :
    Disciplined (transcript ++ log.map (Prod.mk a)) where
  orderly := by
    intro d
    rw [exchangesWith_append]
    split
    · exact (h d).orderly.append (h d).closed hlog.orderly
    · rw [List.append_nil]
      exact (h d).orderly
  ends := by
    intro before d x after heq hx
    -- What failed is not among the exchanges of earlier turns, so that the split is one of the log.
    obtain ⟨between, hbetween⟩ : ∃ between, log.map (Prod.mk a) = between ++ (d, x) :: after := by
      rcases List.append_eq_append_iff.mp heq with ⟨between, -, hlater⟩ | ⟨between, hearlier, hlater⟩
      · exact ⟨between, hlater⟩
      · cases between with
        | nil => exact ⟨[], hlater.symm⟩
        | cons e between =>
            obtain ⟨rfl, -⟩ := List.cons.inj hlater
            exact absurd hx (h.granted (a := d) (by simp [hearlier]))
    obtain ⟨earlier, rest, hsplit, -, hrest⟩ := List.map_eq_append_iff.mp hbetween
    obtain ⟨y, later, rfl, hy, rfl⟩ := List.map_eq_cons_iff.mp hrest
    cases hy
    rcases hlog.ends earlier x later hsplit hx with rfl | ⟨rfl, answer, rfl⟩
    · exact .inl rfl
    · exact .inr ⟨rfl, answer, rfl⟩

end Transcripts

namespace Checker

variable {limits : Limits} {schedule : Schedule} {s : TransitionSystem} {c : Checker σ} {α β : Type}

/-- Begun between turns, the work ends between turns, or is cut short in order. -/
def Tidy (work : Run σ α) : Prop :=
  ∀ c, Idle c.transcript.toList →
    Meets work c (fun _ c' => Idle c'.transcript.toList) fun _ c' => Disciplined c'.transcript.toList

omit [Solver σ] in
theorem Tidy.bind {work : Run σ α} {f : α → Run σ β} (h : Tidy work) (hf : ∀ a, Tidy (f a)) : Tidy (work >>= f) :=
  fun c hc => (h c hc).bind fun a c' hc' => hf a c' hc'

omit [Solver σ] in
theorem tidy_pure (a : α) : Tidy (σ := σ) (pure a) :=
  fun _ hc => hc

omit [Solver σ] in
theorem tidy_throw (e : Halt CheckError) : Tidy (σ := σ) (α := α) (throw e) :=
  fun _ hc => hc.disciplined

omit [Solver σ] in
theorem tidy_extend : Tidy (σ := σ) extend := by
  intro c hc
  have hrun : extend.run.run c = _ := run_extend
  rcases hext : c.unrolling.extend with ⟨f | _, u⟩ <;> rw [hext] at hrun
  · exact meets_of_run_error hrun hc.disciplined
  · exact meets_of_run_ok hrun hc

omit [Solver σ] in
theorem tidy_askLoopFree : Tidy (σ := σ) (askLoopFree schedule) :=
  fun _ hc => hc

omit [Solver σ] in
theorem tidy_summon (a : Strategy) : Tidy (σ := σ) (summon a) := by
  intro c hc
  refine meets_summon.imp ?_
  rintro _ _ ⟨-, rfl⟩
  exact hc

omit [Solver σ] in
/-- A turn in the course of a run, by what it does to a log of its own. -/
theorem tidy_perform {a : Strategy} {x : σ} {progress : Nat} {talk : Talk σ (Option (Outcome S A) × Nat)}
    (h : Meets talk ⟨x, #[]⟩ (fun _ t => Stands 0 ⟨0, none⟩ t.log.toList) fun _ t => Ends (a = .imc) t.log.toList) :
    Tidy (perform a x progress talk) := by
  intro c hc
  refine meets_perform.mpr (h.mono (fun _ t ht => ?_) fun _ t ht => ?_)
  · rw [Array.toList_append, Array.toList_map]
    exact hc.append ht
  · rw [Array.toList_append, Array.toList_map]
    exact hc.disciplined_append ht

theorem tidy_consult (n : Nat) (a : Strategy) : Tidy (σ := σ) (consult limits schedule r n a) := by
  apply (tidy_summon a).bind
  intro member
  cases member with
  | none => exact tidy_throw _
  | some m =>
      apply tidy_askLoopFree.bind
      intro loopFree c hc
      rw [meets_bind, meets_get]
      have hturn : Tidy (perform a m.solver m.progress (turn limits r c.unrolling loopFree m.progress a)) :=
        tidy_perform (meets_turn_stands a m.progress m.solver)
      exact (hturn c hc).bind fun _ _ hc' => hc'

theorem tidy_inTurn (n : Nat) (a : Strategy) {rest : Run σ (Option (Verdict S A))} (h : Tidy rest) :
    Tidy (inTurn limits schedule r n a rest) := by
  rw [inTurn]
  split
  · apply (tidy_consult n a).bind
    intro verdict
    cases verdict with
    | some v => exact tidy_pure _
    | none => exact h
  · exact h

theorem tidy_iterate (n : Nat) : Tidy (σ := σ) (iterate limits schedule r n) := by
  rw [iterate_eq]
  apply tidy_extend.bind
  intro _
  apply tidy_inTurn
  split
  · exact tidy_throw _
  · apply tidy_inTurn
    exact tidy_inTurn _ _ (tidy_pure none)

theorem tidy_runFrom (n done : Nat) : Tidy (σ := σ) (runFrom limits schedule r n done) := by
  induction n generalizing done with
  | zero => exact tidy_throw _
  | succ n ih =>
      rw [runFrom]
      split
      · exact tidy_pure _
      · apply (tidy_iterate (done + 1)).bind
        intro verdict
        cases verdict with
        | some v => exact tidy_pure v
        | none => exact ih (done + 1)

/-- Whatever the solvers answer, a run keeps to their protocol, and one that ends with a verdict has closed all scopes. -/
theorem disciplined_run {bmc kInduction imc : Option (Supplied σ)} {result : Except (Halt CheckError) (Verdict S A)}
    {c' : Checker σ} (h : ofSystem s bmc kInduction imc = .ok c)
    (hrun : (run limits schedule r).run.run c = (result, c')) :
    Disciplined c'.transcript.toList ∧
      ∀ v, result = .ok v → ∀ a, Closed (exchangesWith c'.transcript.toList a) := by
  have hidle : Idle c.transcript.toList := by
    rw [(of_ofSystem_eq_ok h).2.1]
    exact fun _ => stands_nil
  have hmeets : Meets (run limits schedule r) c (fun _ c' => Idle c'.transcript.toList)
      fun _ c' => Disciplined c'.transcript.toList := tidy_runFrom limits.iterations 0 c hidle
  cases result with
  | ok v =>
      have hidle' : Idle c'.transcript.toList := hmeets.of_run_ok hrun
      exact ⟨hidle'.disciplined, fun _ _ a => (hidle' a).closed⟩
  | error e => exact ⟨hmeets.of_run_error hrun, fun _ => nofun⟩

/-- A solver that finds a contradiction and has no interpolant for it. -/
def refusing : Script where
  statuses := [.unsat, .sat, .unsat]

/-- A solver with an interpolant that covers all states. -/
def covering : Script where
  statuses := [.unsat, .sat, .unsat, .unsat]
  interpolants := [.bool true]

/-- An interpolant is refused, after which one scope is closed. With the interpolant, the run has a verdict and leaves no
scope open. -/
theorem disciplined_run_latch :
    (∃ c e c', ofSystem latch none none (some ⟨0, refusing⟩) = .ok c ∧
      (run ⟨1, 1⟩ .imcOnly .explicit).run.run c = (.error e, c') ∧
      ((exchangesWith c'.transcript.toList .imc).map Exchange.failed).drop 15 = [true, false] ∧
      Disciplined c'.transcript.toList) ∧
    ∃ c v c', ofSystem latch none none (some ⟨0, covering⟩) = .ok c ∧
      (run ⟨1, 1⟩ .imcOnly .explicit).run.run c = (.ok v, c') ∧
      (exchangesWith c'.transcript.toList .imc).countP Exchange.isPush = 5 ∧
      Closed (exchangesWith c'.transcript.toList .imc) := by
  constructor
  · have hstart : ∃ c, ofSystem latch none none (some ⟨0, refusing⟩) = .ok c ∧
        Meets (run ⟨1, 1⟩ .imcOnly .explicit) c (fun _ _ => False) fun _ c' =>
          ((exchangesWith c'.transcript.toList .imc).map Exchange.failed).drop 15 = [true, false] :=
      ⟨_, rfl, by decide +kernel⟩
    obtain ⟨c, hc, hmeets⟩ := hstart
    cases hrun : (run ⟨1, 1⟩ .imcOnly .explicit).run.run c with
    | mk result c' =>
        cases result with
        | ok v => exact (hmeets.of_run_ok hrun).elim
        | error e => exact ⟨c, e, c', hc, hrun, hmeets.of_run_error hrun, (disciplined_run hc hrun).1⟩
  · have hstart : ∃ c, ofSystem latch none none (some ⟨0, covering⟩) = .ok c ∧
        Meets (run ⟨1, 1⟩ .imcOnly .explicit) c
          (fun _ c' => (exchangesWith c'.transcript.toList .imc).countP Exchange.isPush = 5) fun _ _ => False :=
      ⟨_, rfl, by decide +kernel⟩
    obtain ⟨c, hc, hmeets⟩ := hstart
    obtain ⟨v, c', hrun, hpushes⟩ := hmeets.exists_ok
    exact ⟨c, v, c', hc, hrun, hpushes, (disciplined_run hc hrun).2 v rfl .imc⟩

end Checker

end Invariance
