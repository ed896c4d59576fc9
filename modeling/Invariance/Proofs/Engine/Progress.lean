import Invariance.Proofs.Engine.Completeness
import Invariance.Proofs.Solver.Capacity

/-!
Progress. A run with solvers that decide by diagrams does not fail: it ends with a verdict, or goes on for as long as it
is allowed to and generations stay in their range. No request is refused, every model is complete, every interpolant can
be moved back to the first frame, and no frame or step is missing.
-/

namespace Invariance

open TransitionSystem Invariance.Dynamics DecisionSolver

variable {s : TransitionSystem} {u u' : Unrolling} {n : Nat}

/-! ### The range of generations -/

/-- The generations of a frame are numbers of 32 bits. -/
def TransitionSystem.InRange (s : TransitionSystem) (frame : Nat) : Prop :=
  ∀ x, s.frame frame x < Word.bound32

theorem TransitionSystem.InRange.mono {k : Nat} (h : s.InRange n) (hk : k ≤ n) : s.InRange k :=
  fun x => (frame_mono hk x).trans_lt (h x)

/-- The generation of the variables that the offset does not mention, of which there always are some. -/
theorem TransitionSystem.InRange.rest (h : s.InRange n) : n * s.offset.rest < Word.bound32 := by
  obtain ⟨x, hget, -⟩ := s.offset.exists_get_eq_rest s.offset
  have hframe := h x
  rwa [TransitionSystem.frame, hget] at hframe

/-- Only generations that leave their range keep an unrolling from being extended. -/
theorem Unrolled.of_extend_eq_error (hu : Unrolled s n u) (hs : s.Regular) {f : Fault} (h : u.extend = (.error f, u')) :
    f = .overflow ∧ u'.lastFrame = n ∧ ¬ s.InRange (n + 1) := by
  have hrange : ¬ s.InRange (n + 1) := by
    intro hrange
    obtain ⟨v, hv⟩ := hu.exists_extend hs hrange.rest hrange
    rw [hv] at h
    cases h
  obtain ⟨c, hc, -⟩ := hu.exists_clockAt le_rfl
  unfold Unrolling.extend at h
  cases hstep : u.nextStep with
  | error g =>
      rw [hstep] at h
      cases h
      rw [Unrolling.nextStep, hu.lastFrame, hc] at hstep
      exact ⟨Formula.eq_overflow_of_unfoldFrom_eq_error hstep, hu.lastFrame, hrange⟩
  | ok e =>
      simp only [hstep] at h
      cases hclock : Unrolling.nextClock { u with steps := u.steps.push e } with
      | ok d =>
          rw [hclock] at h
          cases h
      | error g =>
          rw [hclock] at h
          cases h
          have hadvance : (u.clockAt u.lastFrame >>= fun c => c.advance u.system.offset) = .error f := hclock
          rw [hu.lastFrame, hc] at hadvance
          exact ⟨Clock.eq_overflow_of_advance_eq_error hadvance, hu.lastFrame, hrange⟩

namespace Checker

variable {S A : Type} {schedule : Schedule} {limits : Limits}
variable {bmc kInduction imc : Option (Supplied DecisionSolver)} {c : Checker DecisionSolver}

/-! ### Runs -/

/-- No solver is supplied for two strategies. -/
def Distinct (bmc kInduction imc : Option (Supplied DecisionSolver)) : Prop :=
  ∀ a b x y, supplied bmc kInduction imc a = some x → supplied bmc kInduction imc b = some y → x.id = y.id → a = b

theorem exists_ofSystem (hs : s.Regular) (h : Distinct bmc kInduction imc) :
    ∃ c, ofSystem s bmc kInduction imc = .ok c := by
  obtain ⟨u, hu, -⟩ := hs.exists_unrolled
  have hshared : ∀ a b, a ≠ b → shared (supplied bmc kInduction imc a) (supplied bmc kInduction imc b) = false := by
    intro a b hne
    cases hx : supplied bmc kInduction imc a with
    | none => rfl
    | some x =>
        cases hy : supplied bmc kInduction imc b with
        | none => rfl
        | some y => exact beq_eq_false_iff_ne.mpr fun hid => hne (h a b x y hx hy hid)
  have h₁ : shared bmc kInduction = false := hshared .bmc .kInduction nofun
  have h₂ : shared bmc imc = false := hshared .bmc .imc nofun
  have h₃ : shared kInduction imc = false := hshared .kInduction .imc nofun
  rw [ofSystem, h₁, h₂, h₃, hu]
  exact ⟨_, rfl⟩

/-- As long as generations stay in their range, iterations are cut short only by a solver whose manager is full. -/
private theorem plan_of_inRange {N : Nat} (hs : s.Regular) (hgrounded : Grounded schedule) (hrange : s.InRange N)
    (hrounds : 2 ^ totalBits s.vars.elements < limits.rounds) :
    Plan False Full Carries False False s schedule limits N where
  stage _ _ _ hu := ⟨contract_full False, id, hs, hu⟩
  regular := hs
  loopFree := False.elim
  moving := False.elim
  generations := .inr fun _ hn => ⟨(hrange.mono hn).rest, hrange.mono hn⟩
  rounds := .inr ((State.card_le (SortedSet.nodup_elements _)).trans_lt hrounds)
  baseCase := .inr hgrounded

/-- The ends of a run that does not fail: a verdict, or no verdict in all the iterations that were allowed, or a next
frame whose generations are out of range. -/
inductive Finishes (s : TransitionSystem) (schedule : Schedule) (limits : Limits) (c : Checker DecisionSolver) :
    Except (Halt CheckError) (Verdict S A) → Prop
  | verdict (v : Verdict S A) : Finishes s schedule limits c (.ok v)
  | unfinished (hall : c.unrolling.lastFrame = limits.iterations)
      (hpatient : ∀ m < limits.iterations, schedule.givesUp m = false) :
      Finishes s schedule limits c (.error (.fault .exhausted))
  | outOfRange (h : ¬ s.InRange (c.unrolling.lastFrame + 1)) : Finishes s schedule limits c (.error (.fault .overflow))

/-- An iteration whose frame is out of range stops before any strategy has its turn. -/
private theorem meets_iterate_of_not_inRange (hs : s.Regular) {r : Reconstruction S A}
    {Q : Option (Verdict S A) → Checker DecisionSolver → Prop} (hu : Unrolled s n c.unrolling)
    (hrange : ¬ s.InRange (n + 1)) :
    Meets (iterate limits schedule r (n + 1)) c Q fun e c' =>
      e = .fault .overflow ∧ ¬ s.InRange (c'.unrolling.lastFrame + 1) := by
  rw [iterate_eq, meets_bind]
  have hrun : extend.run.run c = _ := run_extend
  rcases hext : c.unrolling.extend with ⟨f | _, u⟩ <;> rw [hext] at hrun
  · obtain ⟨rfl, hlast, -⟩ := hu.of_extend_eq_error hs hext
    refine meets_of_run_error hrun ⟨rfl, ?_⟩
    change ¬ s.InRange (u.lastFrame + 1)
    rwa [hlast]
  · obtain ⟨d, -, -, hd⟩ := (hu.extend hs.trans_free hext).exists_clockAt le_rfl
    exact absurd (fun x => (hd x).1 ▸ (hd x).2) hrange

/-- On a system of boolean formulas whose steps stay within its offset, with a solver of its own for each strategy that
has its turn and induction only where the search is, a run can be started, and does not fail for any answers about
loop-free paths. The managers of the solvers are not to have more nodes than edges can tell apart. -/
theorem finishes_run (hs : s.Regular) (hdistinct : Distinct bmc kInduction imc)
    (hidle : ∀ a x, supplied bmc kInduction imc a = some x → x.solver.Idle)
    (hstaffed : Staffed schedule bmc kInduction imc) (hgrounded : Grounded schedule)
    (hrounds : 2 ^ totalBits s.vars.elements < limits.rounds) (r : Reconstruction S A) :
    ∃ c result c', ofSystem s bmc kInduction imc = .ok c ∧ (run limits schedule r).run.run c = (result, c') ∧
      (¬ c'.Loses Full → Finishes s schedule limits c' result) := by
  obtain ⟨c, hc⟩ := exists_ofSystem hs hdistinct
  have hready : Ready s Carries False False schedule (fun _ => 0) 0 c :=
    ready_of_ofSystem hs hc (fun a x hx => (hidle a x hx).carries) (.inr hstaffed)
  have hmeets : Meets (run limits schedule r) c (fun _ _ => True)
      fun e c' => c'.Loses Full ∨ Finishes (S := S) (A := A) s schedule limits c' (.error e) := by
    apply meets_runFrom fun m c =>
      (∀ j < m, schedule.givesUp j = false) ∧ Ready s Carries False False schedule (fun _ => m) m c
    · exact fun _ _ _ _ => trivial
    · intro m c hm hg
      have hpatient : ∀ j < m + 1, schedule.givesUp j = false := by
        intro j hj
        rcases Nat.lt_succ_iff_lt_or_eq.mp hj with hlt | rfl
        · exact hm.1 j hlt
        · exact hg
      by_cases hrange : s.InRange (m + 1)
      · apply (meets_iterate (plan_of_inRange hs hgrounded hrange hrounds) hm.2 le_rfl).mono
        · rintro (_ | v) c' hv
          · exact ⟨hpatient, hv.1⟩
          · trivial
        · exact fun e c' hstops => .inl (hstops.resolve_left id)
      · apply (meets_iterate_of_not_inRange hs hm.2.unrolled hrange).mono fun _ _ => id
        rintro e c' ⟨rfl, hout⟩
        exact .inr (.outOfRange hout)
    · intro c hend
      rw [Nat.zero_add] at hend
      exact .inr (.unfinished hend.2.unrolled.lastFrame hend.1)
    · exact ⟨fun j hj => absurd hj j.not_lt_zero, hready⟩
  refine ⟨c, _, _, hc, Prod.mk.eta.symm, fun hroom => ?_⟩
  unfold Meets at hmeets
  rcases hrun : (run limits schedule r).run.run c with ⟨e | v, c'⟩ <;> rw [hrun] at hmeets hroom
  · exact hmeets.resolve_left hroom
  · exact .verdict v

/-- A bit that is copied two generations on. -/
private def strided : TransitionSystem where
  init := .not (.var ⟨"x", .bool⟩)
  trans := .eq (.prime (.prime (.var ⟨"x", .bool⟩))) (.var ⟨"x", .bool⟩)
  prop := .not (.var ⟨"x", .bool⟩)
  offset := .all 2

private theorem regular_strided : strided.Regular where
  init_bool := .not (.var _)
  trans_bool := .eqBool (.prime (.prime (.var _))) (.var _)
  prop_bool := .not (.var _)
  init_free := by simp [Formula.SymbolFree, strided, Formula.subformulas]
  trans_free := by simp [Formula.SymbolFree, strided, Formula.subformulas]
  prop_free := by simp [Formula.SymbolFree, strided, Formula.subformulas]
  init_now := Formula.PrimeFree.primesWithin (by simp [Formula.PrimeFree, strided, Formula.subformulas])
    (by simp [Formula.SymbolFree, strided, Formula.subformulas])
  trans_within g hg := by
    have hplaced : strided.trans.placeAt (fun _ => 0) = .eq (.sym ⟨⟨"x", .bool⟩, 2⟩) (.sym ⟨⟨"x", .bool⟩, 0⟩) := rfl
    rw [hplaced] at hg
    simp only [Formula.subformulas, List.mem_cons, List.mem_append, reduceCtorEq, Formula.sym.injEq, false_or,
      List.not_mem_nil, or_false] at hg
    rcases hg with rfl | rfl
    · exact le_rfl
    · exact Nat.zero_le 2
  prop_now := Formula.PrimeFree.primesWithin (by simp [Formula.PrimeFree, strided, Formula.subformulas])
    (by simp [Formula.SymbolFree, strided, Formula.subformulas])

/-- One iteration of all strategies, on a system that does not go from one generation to the next. -/
theorem finishes_run_strided : ∃ x c result c', ofBits 0 = .ok x ∧
    ofSystem strided (some ⟨0, x⟩) (some ⟨1, x⟩) (some ⟨2, x⟩) = .ok c ∧
    (run (A := Update) ⟨2, 3⟩ (Schedule.always.maxIterations 1) .explicit).run.run c = (result, c') ∧
    Finishes strided (Schedule.always.maxIterations 1) ⟨2, 3⟩ c' result := by
  have hstart : ∃ x c, ofBits 0 = .ok x ∧
      ofSystem strided (some ⟨0, x⟩) (some ⟨1, x⟩) (some ⟨2, x⟩) = .ok c ∧
      ¬ ((run (A := Update) ⟨2, 3⟩ (Schedule.always.maxIterations 1) .explicit).run.run c).2.Loses Full :=
    ⟨_, _, rfl, rfl, by decide +kernel⟩
  obtain ⟨x, c, hx, hc, hroom⟩ := hstart
  have hdistinct : Distinct (some ⟨0, x⟩) (some ⟨1, x⟩) (some ⟨2, x⟩) := by
    rintro (_ | _ | _) (_ | _ | _) _ _ ⟨⟩ ⟨⟩ hid <;> first | rfl | cases hid
  have hidle : ∀ a y, supplied (some ⟨0, x⟩) (some ⟨1, x⟩) (some ⟨2, x⟩) a = some y → y.solver.Idle := by
    rintro (_ | _ | _) _ ⟨⟩ <;> exact idle_ofBits hx
  have hstaffed : Staffed (Schedule.always.maxIterations 1) (some ⟨0, x⟩) (some ⟨1, x⟩) (some ⟨2, x⟩) := by
    rintro (_ | _ | _) _ _ _ <;> rfl
  have hrounds : 2 ^ totalBits strided.vars.elements < (⟨2, 3⟩ : Limits).rounds := by decide
  obtain ⟨_, result, c', hc', hrun, hends⟩ :=
    finishes_run regular_strided hdistinct hidle hstaffed (fun _ _ _ => rfl) hrounds
      (.explicit : Reconstruction Valuation Update)
  cases hc.symm.trans hc'
  rw [hrun] at hroom
  exact ⟨x, c, result, c', hx, hc, hrun, hends hroom⟩

end Checker

end Invariance
