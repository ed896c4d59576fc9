import Invariance.Engine.Checker
import Invariance.Proofs.Engine.Induction
import Invariance.Proofs.Engine.Interpolation

/-!
Runs. Between iterations, every member of the team is fit for its next turn, and what an iteration that settles
nothing leaves behind is that executions to a violation are longer still. Each claim about runs is a choice of
what to keep from one iteration to the next.
-/

namespace Invariance

open TransitionSystem Invariance.Dynamics

/-- Has the strategy its turn in an iteration? -/
def Schedule.has (s : Schedule) (iteration : Nat) : Strategy → Bool
  | .bmc => s.bmc iteration
  | .kInduction => s.kInduction iteration
  | .imc => s.imc iteration

namespace Team

variable {σ : Type} {t : Team σ} {m : Member σ} {a b : Strategy}

/-- The member for a strategy. -/
def get? (t : Team σ) : Strategy → Option (Member σ)
  | .bmc => t.bmc
  | .kInduction => t.kInduction
  | .imc => t.imc

theorem take_fst : (t.take a).1 = t.get? a := by
  cases a <;> rfl

theorem put_take : (t.take a).2.put m a = t.put m a := by
  cases a <;> rfl

theorem get?_put : (t.put m a).get? b = if b = a then some m else t.get? b := by
  cases a <;> cases b <;> rfl

theorem get?_take : (t.take a).2.get? b = if b = a then none else t.get? b := by
  cases a <;> cases b <;> rfl

end Team

variable {σ S A : Type} [Solver σ] {lenient L free : Prop} {lost : σ → Prop}
variable {Tracks : σ → Context → Prop} {s : TransitionSystem} {schedule : Schedule} {limits : Limits}
variable {r : Reconstruction S A} {u : Unrolling} {n N : Nat} {c : Checker σ} {a : Strategy} {m : Member σ}

/-- The member can take its turn in any iteration after number `n`. -/
def Fit (s : TransitionSystem) (Tracks : σ → Context → Prop) (free : Prop) (n : Nat) (m : Member σ) :
    Strategy → Prop
  | .bmc => m.progress ≤ n + 1 ∧ s.dynamics.SafeBelow m.progress ∧
      ∃ d, Tracks m.solver d ∧ Search.Searched s free m.progress d
  | .kInduction => m.progress ≤ n ∧ ∃ d, Tracks m.solver d ∧ Induction.Prolonged s m.progress d
  | .imc => m.progress ≤ n + 1 ∧ s.dynamics.SafeBelow m.progress ∧ ∃ d, Tracks m.solver d ∧ d.active = []

/-- What is known after a strategy has settled nothing in the iteration `n`. -/
def Gained (s : TransitionSystem) (free L : Prop) (n : Nat) : Strategy → Prop
  | .bmc => s.dynamics.SafeBelow (n + 1) ∧ (free → L ∨ ∃ π, s.dynamics.Execution π n ∧ LoopFree π n)
  | .kInduction => True
  | .imc => L ∨ s.dynamics.SafeBelow (n + 1)

/-- What the iterations up to number `N` rely on. If there is no limit to what is promised where a run is cut
short, some of it is not needed. -/
structure Plan (lenient : Prop) (lost : σ → Prop) (Tracks : σ → Context → Prop) (L free : Prop)
    (s : TransitionSystem) (schedule : Schedule) (limits : Limits) (N : Nat) : Prop where
  stage : ∀ n ≤ N, ∀ u, Unrolled s n u → Stage lenient lost Tracks L s n u
  regular : s.Regular
  loopFree : free → ∀ k, schedule.loopFree k = true
  moving : free → s.Moving
  generations : L ∨ ∀ n ≤ N, n * s.offset.rest < Word.bound32 ∧ ∀ x, s.frame n x < Word.bound32
  rounds : L ∨ Nat.card (State s.vars.elements) < limits.rounds
  baseCase : L ∨ ∀ i, 0 < i → schedule.kInduction i = true → schedule.bmc i = true

/-- The state of a run after the iteration `n`, the members being fit for turns after certain iterations. -/
structure Ready (s : TransitionSystem) (Tracks : σ → Context → Prop) (L free : Prop) (schedule : Schedule)
    (after : Strategy → Nat) (n : Nat) (c : Checker σ) : Prop where
  unrolled : Unrolled s n c.unrolling
  fit : ∀ a m, c.team.get? a = some m → Fit s Tracks free (after a) m a
  staffed : L ∨ ∀ a i, 0 < i → schedule.has i a = true → (c.team.get? a).isSome

/-- Some member of the team has a solver that is lost. -/
def Checker.Loses (lost : σ → Prop) (c : Checker σ) : Prop :=
  ∃ a m, c.team.get? a = some m ∧ lost m.solver

instance {σ : Type} {lost : σ → Prop} [DecidablePred lost] {c : Checker σ} : Decidable (c.Loses lost) :=
  decidable_of_iff (∃ a ∈ [Strategy.bmc, .kInduction, .imc], ∃ m ∈ c.team.get? a, lost m.solver) (by
    constructor
    · rintro ⟨a, -, m, hm, h⟩
      exact ⟨a, m, hm, h⟩
    · rintro ⟨a, m, hm, h⟩
      exact ⟨a, by cases a <;> decide, m, hm, h⟩)

/-- A run is cut short only where `L` may be said, or by a solver that is lost. -/
def Checker.Stops {ε : Type} (L : Prop) (lost : σ → Prop) (_ : ε) (c : Checker σ) : Prop :=
  L ∨ c.Loses lost

/-- A verdict of the iteration `n`, from the outcome of a strategy that had its turn. -/
def Decided (s : TransitionSystem) (r : Reconstruction S A) (lost L : Prop) (schedule : Schedule) (n : Nat)
    (v : Verdict S A) : Prop :=
  ∃ a o, v = .ofOutcome a n o ∧ schedule.has n a = true ∧ s.Settled r lost L n o ∧
    (a ≠ .bmc → schedule.bmc n = true → s.dynamics.SafeBelow (n + 1))

/-- What is known after the iteration `n` has settled nothing. -/
def Passed (s : TransitionSystem) (free L : Prop) (schedule : Schedule) (n : Nat) : Prop :=
  ∀ a, schedule.has n a = true → Gained s free L n a

omit [Solver σ] in
theorem Fit.mono (h : Fit s Tracks free n m a) {k : Nat} (hk : n ≤ k) : Fit s Tracks free k m a := by
  cases a with
  | bmc | imc => exact ⟨h.1.trans (by omega), h.2⟩
  | kInduction => exact ⟨h.1.trans hk, h.2⟩

omit [Solver σ] in
theorem Ready.mono {p q : Strategy → Nat} (h : Ready s Tracks L free schedule p n c) (hpq : ∀ a, p a ≤ q a) :
    Ready s Tracks L free schedule q n c :=
  ⟨h.unrolled, fun a m hm => (h.fit a m hm).mono (hpq a), h.staffed⟩

namespace Checker

/-- The solver supplied for a strategy. -/
def supplied {σ : Type} (bmc kInduction imc : Option (Supplied σ)) : Strategy → Option (Supplied σ)
  | .bmc => bmc
  | .kInduction => kInduction
  | .imc => imc

omit [Solver σ] in
/-- A run starts with the solvers that were supplied, none of which has been asked for anything. -/
theorem of_ofSystem_eq_ok {bmc kInduction imc : Option (Supplied σ)}
    (h : ofSystem s bmc kInduction imc = .ok c) :
    Unrolling.ofSystem s = .ok c.unrolling ∧ c.transcript = #[] ∧
      ∀ a, c.team.get? a = (supplied bmc kInduction imc a).map fun x => { solver := x.solver } := by
  unfold ofSystem at h
  cases h₁ : shared bmc kInduction <;> cases h₂ : shared bmc imc <;> cases h₃ : shared kInduction imc <;>
    cases hu : Unrolling.ofSystem s <;> simp only [h₁, h₂, h₃, hu] at h <;> cases h
  exact ⟨rfl, rfl, fun a => by cases a <;> rfl⟩

omit [Solver σ] in
/-- A run starts with an unrolling of no steps, and solvers without assertions. -/
theorem ready_of_ofSystem {bmc kInduction imc : Option (Supplied σ)} (hs : s.Regular)
    (h : ofSystem s bmc kInduction imc = .ok c)
    (htracks : ∀ a x, supplied bmc kInduction imc a = some x → ∃ d, Tracks x.solver d ∧ d.active = [])
    (hstaffed : L ∨ ∀ a i, 0 < i → schedule.has i a = true → (supplied bmc kInduction imc a).isSome) :
    Ready s Tracks L free schedule (fun _ => 0) 0 c := by
  obtain ⟨u, hu, hunrolled⟩ := hs.exists_unrolled
  obtain ⟨hu', -, hget⟩ := of_ofSystem_eq_ok h
  cases hu.symm.trans hu'
  refine ⟨hunrolled, fun a m hm => ?_, hstaffed.imp_right fun hall a i hi ha => ?_⟩
  · rw [hget, Option.map_eq_some_iff] at hm
    obtain ⟨x, hx, rfl⟩ := hm
    obtain ⟨d, ht, hd⟩ := htracks a x hx
    cases a with
    | bmc => exact ⟨Nat.zero_le _, safeBelow_zero, d, ht, Search.searched_zero hd⟩
    | kInduction => exact ⟨le_rfl, d, ht, Induction.prolonged_zero hd⟩
    | imc => exact ⟨Nat.zero_le _, safeBelow_zero, d, ht, hd⟩
  · rw [hget, Option.isSome_map]
    exact hall a i hi ha

/-- A turn of any strategy, by a member that is fit for it. -/
theorem meets_turn (st : Stage lenient lost Tracks L s n u) (hfit : Fit s Tracks free (n - 1) m a)
    (hn : 0 < n) {loopFree : Bool} (hfree : free → loopFree = true) (hmoving : free → s.Moving)
    (hrounds : L ∨ Nat.card (State s.vars.elements) < limits.rounds)
    (hbase : a = .kInduction → s.dynamics.SafeBelow n) {log : Array Exchange} :
    Meets (turn limits r u loopFree m.progress a) ⟨m.solver, log⟩
      (fun o ses => match o with
        | (some o, _) => s.Settled r (lost ses.solver) L n o
        | (none, p) => Fit s Tracks free n ⟨ses.solver, p⟩ a ∧ Gained s free L n a)
      (Cut L lost) := by
  cases a with
  | bmc =>
      obtain ⟨hp, hbelow, d, ht, hd⟩ := hfit
      refine Meets.imp (Search.meets_turn st ht hd (by omega) hbelow hfree hmoving) ?_
      rintro ⟨_ | o, p⟩ ses ho
      · obtain ⟨rfl, hsafe, hd', hloop⟩ := ho
        exact ⟨⟨le_rfl, hsafe, hd'⟩, hsafe, hloop hn⟩
      · exact ho
  | kInduction =>
      obtain ⟨hp, d, ht, hd⟩ := hfit
      refine Meets.imp (Induction.meets_turn st ht hd (by omega) (hbase rfl) (r := r)) ?_
      rintro ⟨_ | o, p⟩ ses ho
      · obtain ⟨rfl, hd'⟩ := ho
        exact ⟨⟨le_rfl, hd'⟩, trivial⟩
      · exact ho
  | imc =>
      obtain ⟨hp, hbelow, d, ht, hd⟩ := hfit
      refine Meets.imp (Interpolation.meets_turn st ht hd hn (by omega) hbelow hrounds) ?_
      rintro ⟨_ | o, p⟩ ses ho
      · obtain ⟨hp, hL, hsafe, hd'⟩ := ho
        refine ⟨⟨hp, hsafe, hd'⟩, hL.imp_right fun heq => ?_⟩
        rwa [← heq]
      · exact ho

omit [Solver σ] in
theorem run_extend : extend.run.run c = match c.unrolling.extend with
    | (.ok (), u) => (.ok (), { c with unrolling := u })
    | (.error f, u) => (.error (.fault f), { c with unrolling := u }) :=
  rfl

omit [Solver σ] in
theorem meets_extend (hs : s.Regular) (hu : Unrolled s n c.unrolling)
    (hgen : L ∨ (n + 1) * s.offset.rest < Word.bound32 ∧ ∀ x, s.frame (n + 1) x < Word.bound32) :
    Meets extend c (fun _ c' => ∃ u, Unrolled s (n + 1) u ∧ c' = { c with unrolling := u }) (Stops L lost) := by
  have hrun : extend.run.run c = _ := run_extend
  rcases hext : c.unrolling.extend with ⟨f | _, u⟩ <;> rw [hext] at hrun
  · refine meets_of_run_error hrun (.inl (hgen.resolve_right fun h => ?_))
    obtain ⟨u', hu'⟩ := hu.exists_extend hs h.1 h.2
    rw [hu'] at hext
    cases hext
  · exact meets_of_run_ok hrun ⟨u, hu.extend hs.trans_free hext, rfl⟩

omit [Solver σ] in
theorem meets_summon {E : Halt CheckError → Checker σ → Prop} : Meets (summon a) c
    (fun o c' => o = c.team.get? a ∧ c' = { c with team := (c.team.take a).2 }) E := by
  obtain ⟨u, t, k, transcript⟩ := c
  exact ⟨Team.take_fst, rfl⟩

omit [Solver σ] in
@[simp] theorem meets_askLoopFree {Q : Bool → Checker σ → Prop} {E : Halt CheckError → Checker σ → Prop} :
    Meets (askLoopFree schedule) c Q E ↔ Q (schedule.loopFree c.asked) { c with asked := c.asked + 1 } :=
  Iff.rfl

omit [Solver σ] in
theorem loses_put {u : Unrolling} {t : Team σ} {x : σ} {p k : Nat} {transcript : Array (Strategy × Exchange)}
    (h : lost x) : Loses lost ⟨u, t.put ⟨x, p⟩ a, k, transcript⟩ :=
  ⟨a, ⟨x, p⟩, by rw [Team.get?_put, if_pos rfl], h⟩

omit [Solver σ] in
/-- A turn in the course of a run, by what it does to a session of its own. The member called out returns with its
progress. -/
theorem meets_perform {talk : Talk σ (Option (Outcome S A) × Nat)} {x : σ} {p : Nat}
    {R : Option (Outcome S A) → Checker σ → Prop} {E : Halt CheckError → Checker σ → Prop} :
    Meets (perform a x p talk) c R E ↔ Meets talk ⟨x, #[]⟩
      (fun o ses => R o.1 ⟨c.unrolling, c.team.put ⟨ses.solver, o.2⟩ a, c.asked,
        c.transcript ++ ses.log.map fun e => (a, e)⟩)
      fun e ses => E e ⟨c.unrolling, c.team.put ⟨ses.solver, p⟩ a, c.asked,
        c.transcript ++ ses.log.map fun e => (a, e)⟩ := by
  simp only [Meets, perform, ExceptT.run_mk, StateT.run]
  rcases talk.run ⟨x, #[]⟩ with ⟨_ | _, _⟩ <;> rfl

variable (plan : Plan lenient lost Tracks L free s schedule limits N)

include plan

/-- The turn of a strategy in an iteration. -/
theorem meets_consult {p q : Strategy → Nat} (h : Ready s Tracks L free schedule p n c) (hn : 0 < n) (hnN : n ≤ N)
    (ha : schedule.has n a = true) (hp : p a < n) (hpq : ∀ b, b ≠ a → p b ≤ q b) (hq : n ≤ q a)
    (hbase : a = .kInduction → s.dynamics.SafeBelow n) :
    Meets (consult limits schedule r n a) c
      (fun v c' => match v with
        | some v => ∃ o, v = .ofOutcome a n o ∧ s.Settled r (c'.Loses lost) L n o
        | none => Ready s Tracks L free schedule q n c' ∧ Gained s free L n a)
      (Stops L lost) := by
  rw [consult]
  refine meets_summon.bind ?_
  rintro o _ ⟨rfl, rfl⟩
  cases hm : c.team.get? a with
  | none =>
      refine .inl (h.staffed.resolve_right fun hall => ?_)
      have := hall a n hn ha
      rw [hm] at this
      cases this
  | some m =>
      have hfit : Fit s Tracks free (n - 1) m a := (h.fit a m hm).mono (by omega)
      simp only [meets_bind, meets_askLoopFree, meets_get, meets_pure]
      refine meets_perform.mpr ((meets_turn (plan.stage n hnN _ h.unrolled) hfit hn (fun hf => plan.loopFree hf c.asked)
        plan.moving plan.rounds hbase).mono ?_ fun _ _ hcut => hcut.imp_right loses_put)
      rintro ⟨_ | o, k⟩ ses ho
      · obtain ⟨hfit', hgained⟩ := ho
        refine ⟨⟨h.unrolled, fun b m' hm' => ?_, h.staffed.imp_right fun hall b i hi hb => ?_⟩, hgained⟩
        · rw [Team.put_take, Team.get?_put] at hm'
          split at hm'
          · next heq =>
              cases hm'
              rw [heq]
              exact hfit'.mono hq
          · next hne => exact (h.fit b m' hm').mono (hpq b hne)
        · rw [Team.put_take, Team.get?_put]
          split
          · rfl
          · exact hall b i hi hb
      · exact ⟨o, rfl, ho.mono loses_put⟩

omit plan in
/-- The turn of a strategy, if it is scheduled, and what follows if it settles nothing. -/
def inTurn (limits : Limits) (schedule : Schedule) (r : Reconstruction S A) (iteration : Nat) (a : Strategy)
    (rest : Run σ (Option (Verdict S A))) : Run σ (Option (Verdict S A)) := do
  if schedule.has iteration a then
    if let some v ← consult limits schedule r iteration a then return some v
  rest

omit plan in
theorem iterate_eq : (iterate limits schedule r n : Run σ (Option (Verdict S A))) = (do
    extend
    inTurn limits schedule r n .bmc
      (if schedule.kInduction n && !schedule.bmc n then throw (.error (.inductionWithoutBmc n))
      else inTurn limits schedule r n .kInduction (inTurn limits schedule r n .imc (return none)))) := by
  rw [iterate]
  refine bind_congr fun _ => ?_
  unfold inTurn Schedule.has
  cases schedule.bmc n <;> cases schedule.kInduction n <;> rfl

theorem meets_inTurn {p q : Strategy → Nat} {rest : Run σ (Option (Verdict S A))}
    {Q : Checker σ → Prop} (h : Ready s Tracks L free schedule p n c) (hn : 0 < n) (hnN : n ≤ N)
    (hp : p a < n) (hpq : ∀ b, b ≠ a → p b ≤ q b) (hpa : p a ≤ q a) (hq : n ≤ q a)
    (hbase : schedule.has n a = true → a = .kInduction → s.dynamics.SafeBelow n)
    (hbmc : a ≠ .bmc → schedule.bmc n = true → s.dynamics.SafeBelow (n + 1))
    (hrest : ∀ c', Ready s Tracks L free schedule q n c' → (schedule.has n a = true → Gained s free L n a) →
      Meets rest c' (fun v c' => match v with
        | some v => Decided s r (c'.Loses lost) L schedule n v
        | none => Q c') (Stops L lost)) :
    Meets (inTurn limits schedule r n a rest) c
      (fun v c' => match v with
        | some v => Decided s r (c'.Loses lost) L schedule n v
        | none => Q c')
      (Stops L lost) := by
  rw [inTurn]
  by_cases ha : schedule.has n a = true
  · rw [if_pos ha]
    refine (meets_consult plan h hn hnN ha hp hpq hq (hbase ha)).bind ?_
    rintro (_ | v) c' hv
    · exact hrest c' hv.1 fun _ => hv.2
    · obtain ⟨o, rfl, ho⟩ := hv
      exact ⟨a, o, rfl, ha, ho, hbmc⟩
  · rw [if_neg ha]
    refine hrest c (h.mono fun b => ?_) fun h => absurd h ha
    by_cases hb : b = a
    · rw [hb]
      exact hpa
    · exact hpq b hb

/-- An iteration settles the property, or leaves the team ready for the next one. -/
theorem meets_iterate (h : Ready s Tracks L free schedule (fun _ => n) n c) (hN : n + 1 ≤ N) :
    Meets (iterate limits schedule r (n + 1)) c
      (fun v c' => match v with
        | some v => Decided s r (c'.Loses lost) L schedule (n + 1) v
        | none => Ready s Tracks L free schedule (fun _ => n + 1) (n + 1) c' ∧ Passed s free L schedule (n + 1))
      (Stops L lost) := by
  rw [iterate_eq]
  refine (meets_extend plan.regular h.unrolled (plan.generations.imp_right fun hg => hg (n + 1) hN)).bind ?_
  rintro _ _ ⟨u, hu, rfl⟩
  have h₀ : Ready s Tracks L free schedule (fun _ => n) (n + 1) { c with unrolling := u } := ⟨hu, h.fit, h.staffed⟩
  generalize { c with unrolling := u } = c₀ at h₀
  have hpos : 0 < n + 1 := n.succ_pos
  refine meets_inTurn (q := fun a => if a = .bmc then n + 1 else n) plan h₀ hpos hN n.lt_succ_self
    (fun b hb => by simp [hb]) (by simp) (by simp) (fun _ h => nomatch h) (fun h => absurd rfl h) ?_
  intro c₁ h₁ hbmc
  by_cases hind : (schedule.kInduction (n + 1) && !schedule.bmc (n + 1)) = true
  · rw [if_pos hind]
    refine .inl (plan.baseCase.resolve_right fun hall => ?_)
    simp only [Bool.and_eq_true, Bool.not_eq_true'] at hind
    rw [hall _ hpos hind.1] at hind
    exact absurd hind.2 (by decide)
  · rw [if_neg hind]
    have hbase : schedule.kInduction (n + 1) = true → s.dynamics.SafeBelow (n + 1) := by
      intro hk
      have hb : schedule.bmc (n + 1) = true := by simpa [hk] using hind
      exact (hbmc hb).1.mono (n + 1).le_succ
    refine meets_inTurn (q := fun a => if a = .imc then n else n + 1) plan h₁ hpos hN (by simp)
      (fun b hb => by cases b <;> simp) (by simp) (by simp) (fun hk _ => hbase hk) (fun _ hb => (hbmc hb).1) ?_
    intro c₂ h₂ _
    refine meets_inTurn (q := fun _ => n + 1) plan h₂ hpos hN (by simp)
      (fun b _ => by split <;> omega) (by simp) le_rfl (fun _ h => nomatch h)
      (fun _ hb => (hbmc hb).1) ?_
    intro c₃ h₃ himc
    refine ⟨h₃, fun a ha => ?_⟩
    cases a with
    | bmc => exact hbmc ha
    | kInduction => exact trivial
    | imc => exact himc ha

omit plan

/-- A rule for runs: what is kept from one iteration to the next. -/
theorem meets_runFrom {Q : Verdict S A → Checker σ → Prop} {E : Halt CheckError → Checker σ → Prop}
    (I : Nat → Checker σ → Prop) (hgiveUp : ∀ m c, I m c → schedule.givesUp m = true → Q (.unknown m) c)
    (hiterate : ∀ m c, I m c → schedule.givesUp m = false → Meets (iterate limits schedule r (m + 1)) c
      (fun v c' => match v with
        | some v => Q v c'
        | none => I (m + 1) c') E)
    (k : Nat) (hend : ∀ c, I (n + k) c → E (.fault .exhausted) c) (h : I n c) :
    Meets (runFrom limits schedule r k n) c Q E := by
  induction k generalizing n c with
  | zero => exact hend c h
  | succ k ih =>
      rw [runFrom]
      by_cases hg : schedule.givesUp n = true
      · rw [if_pos hg]
        exact hgiveUp n c h hg
      · rw [if_neg hg]
        refine (hiterate n c h (by simpa using hg)).bind ?_
        rintro (_ | v) c' hv
        · exact ih (fun c hc => hend c (by rwa [show n + (k + 1) = n + 1 + k by omega])) hv
        · exact hv

end Checker

end Invariance
