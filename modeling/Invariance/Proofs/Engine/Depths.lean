import Invariance.Proofs.Engine.Runs
import Invariance.Proofs.Engine.Scopes
import Invariance.Proofs.Solver.Calls

/-!
Depths after a run. What a run with solvers that decide by diagrams does not close is one scope at most, of the
strategy whose turn an error broke off: always in interpolation, never in induction, and in a search exactly if the
initial states are a proposition and the property is none. All other solvers come back at the depth at which they were
supplied.
-/

namespace Invariance

open DecisionSolver Unrolling

variable {S A : Type} {s : TransitionSystem} {u : Unrolling} {r : Reconstruction S A} {limits : Limits}
variable {schedule : Schedule} {c : Checker DecisionSolver} {a : Strategy} {m n : Nat}

/-! ### Teams -/

/-- A solver in any state in which calls can leave it. -/
def DecisionSolver.Reached (x : DecisionSolver) : Prop :=
  ∃ bits first calls, ofBits bits = .ok first ∧ (Call.performAll calls first).1 = x

theorem DecisionSolver.Reached.nested {x : DecisionSolver} (h : x.Reached) : Nested x.outer.length x := by
  obtain ⟨bits, first, calls, hfirst, rfl⟩ := h
  have ht := tracks_performAll hfirst calls
  exact ⟨_, ht, (Nat.succ.inj ht.depth_eq).symm⟩

/-- The team has a member for each strategy with a number, and no others, and `R` relates the two. -/
def Team.Has {σ : Type} (R : Strategy → Nat → Member σ → Prop) (scopes : Strategy → Option Nat) (t : Team σ) : Prop :=
  ∀ a, Option.Rel (R a) (scopes a) (t.get? a)

section Teams

variable {σ : Type} {t : Team σ} {R R' : Strategy → Nat → Member σ → Prop} {scopes : Strategy → Option Nat}

theorem Team.Has.mono (h : t.Has R scopes) (hR : ∀ a n x, R a n x → R' a n x) : t.Has R' scopes := by
  intro a
  have ha := h a
  generalize scopes a = o, t.get? a = o' at ha ⊢
  cases ha with
  | some hx => exact .some (hR a _ _ hx)
  | none => exact .none

/-- A member returns, and nothing happened to the others. -/
theorem Team.Has.put (h : t.Has R scopes) (ha : scopes a = some n) {x : Member σ} (hx : R' a n x)
    (hR : ∀ b, b ≠ a → ∀ n y, R b n y → R' b n y) : (t.put x a).Has R' scopes := by
  intro b
  rw [Team.get?_put]
  by_cases hb : b = a
  · subst hb
    rw [if_pos rfl, ha]
    exact .some hx
  · rw [if_neg hb]
    have hother := h b
    generalize scopes b = o, t.get? b = o' at hother ⊢
    cases hother with
    | some hy => exact .some (hR b hb _ _ hy)
    | none => exact .none

end Teams

/-! ### Runs -/

namespace Checker

/-- The strategy whose turn the error broke off. There is nothing in the transcript after that. -/
def brokenOff? {σ : Type} (c : Checker σ) (e : CheckError) : Option Strategy :=
  if e.isFromTurn then c.transcript.back?.map Prod.fst else none

theorem brokenOff?_append {σ : Type} {t : Team σ} {k : Nat} {transcript : Array (Strategy × Exchange)}
    {log : Array Exchange} {e : CheckError} (he : e.isFromTurn = true) (hlog : log ≠ #[]) :
    brokenOff? ⟨u, t, k, transcript ++ log.map fun x => (a, x)⟩ e = some a := by
  obtain ⟨y, hy⟩ := Option.ne_none_iff_exists'.mp (mt Array.back?_eq_none_iff.mp hlog)
  rw [brokenOff?, if_pos he, Array.back?_append, Array.back?_map, hy]
  rfl

/-- The state of a run between turns, the unrolling having `m` steps. Before the run, the solvers had the given numbers
of scopes around the innermost one. -/
structure Level (s : TransitionSystem) (scopes : Strategy → Option Nat) (m : Nat) (c : Checker DecisionSolver) :
    Prop where
  unrolled : After s m c.unrolling
  members : c.team.Has (fun a n x => Nested n x.solver ∧ (0 < x.progress → s.Accepted a)) scopes

/-- An error leaves all members where they were, except for the one whose turn it broke off. -/
def Strands (s : TransitionSystem) (scopes : Strategy → Option Nat) (h : Halt CheckError) (c : Checker DecisionSolver) :
    Prop :=
  ∀ e, h = .error e → (∀ a, c.brokenOff? e = some a → (scopes a).isSome) ∧ c.team.Has
    (fun a n x => ∃ k, Nested k x.solver ∧
      (c.brokenOff? e = some a → s.BreaksAt a n k) ∧ (c.brokenOff? e ≠ some a → k = n)) scopes

variable {scopes : Strategy → Option Nat}

theorem strands_fault (f : Fault) : Strands s scopes (.fault f) c :=
  fun _ => nofun

/-- An error between turns. -/
theorem Level.strands (h : Level s scopes m c) {e : CheckError} (he : e.isFromTurn = false) :
    Strands s scopes (.error e) c := by
  rintro _ ⟨⟩
  have hnone : c.brokenOff? e = none := by
    rw [brokenOff?, he]
    rfl
  rw [hnone]
  refine ⟨nofun, h.members.mono fun a n x hx => ⟨n, hx.1, nofun, fun _ => rfl⟩⟩

theorem level_extend (h : Level s scopes m c) :
    Meets extend c (fun _ => Level s scopes (m + 1)) (Strands s scopes) := by
  have hrun : extend.run.run c = _ := run_extend
  rcases hext : c.unrolling.extend with ⟨f | _, u⟩ <;> rw [hext] at hrun
  · exact meets_of_run_error hrun (strands_fault f)
  · exact meets_of_run_ok hrun ⟨h.unrolled.extend hext, h.members⟩

/-- A turn of any strategy, with the scopes that are open after it. -/
theorem nested_turn {ses : Session DecisionSolver} {loopFree : Bool} {p : Nat} (hu : After s m u) (hm : 0 < m)
    (hn : Nested n ses.solver) (haccepted : 0 < p → s.Accepted a) :
    Meets (turn limits r u loopFree p a) ses (fun o t => Nested n t.solver ∧ (0 < o.2 → s.Accepted a))
      (BrokenOff (s.BreaksAt a n)) := by
  cases a with
  | bmc => exact Search.nested_examineFrom hu hn _ p haccepted
  | kInduction => exact Induction.nested_turn hu hm hn haccepted
  | imc =>
      apply (Interpolation.nested_turn hn).mono
      · exact fun _ _ ht => ⟨ht, fun _ => trivial⟩
      · exact fun _ _ hb => hb.mono fun _ hk => .inl ⟨trivial, hk⟩

theorem level_consult (h : Level s scopes m c) (hm : 0 < m) :
    Meets (consult limits schedule r m a) c (fun v c' => v = none → Level s scopes m c') (Strands s scopes) := by
  rw [consult]
  apply meets_summon.bind
  rintro o _ ⟨rfl, rfl⟩
  have ha := h.members a
  cases hmember : c.team.get? a with
  | none =>
      have hsame : (c.team.take a).2.Has (fun a n x => Nested n x.solver ∧ (0 < x.progress → s.Accepted a)) scopes := by
        intro b
        rw [Team.get?_take]
        split
        · next hb => rwa [hb, ← hmember]
        · exact h.members b
      have hlevel : Level s scopes m ⟨c.unrolling, (c.team.take a).2, c.asked, c.transcript⟩ := ⟨h.unrolled, hsame⟩
      exact hlevel.strands (e := .missingSolver a m) rfl
  | some x =>
      rw [hmember] at ha
      generalize hscopes : scopes a = o at ha
      obtain ⟨hn, haccepted⟩ | _ := ha
      simp only [meets_bind, meets_askLoopFree, meets_get, meets_pure]
      rw [meets_perform]
      apply (nested_turn h.unrolled hm hn haccepted).mono
      · intro o ses ho _
        rw [Team.put_take]
        exact ⟨h.unrolled, h.members.put hscopes ho fun _ _ _ _ => id⟩
      · rintro _ ses hb e rfl
        obtain ⟨hfrom, hlog, k, hk, hnested⟩ := hb e rfl
        rw [Team.put_take]
        simp only [brokenOff?_append hfrom hlog]
        refine ⟨fun b hb => ?_, h.members.put hscopes ⟨k, hnested, fun _ => hk, absurd rfl⟩ ?_⟩
        · cases hb
          rw [hscopes]
          rfl
        · exact fun b hb n y hy => ⟨n, hy.1, fun hab => absurd (Option.some.inj hab).symm hb, fun _ => rfl⟩

theorem level_inTurn {rest : Run DecisionSolver (Option (Verdict S A))} (h : Level s scopes m c) (hm : 0 < m)
    (hrest : ∀ c, Level s scopes m c →
      Meets rest c (fun v c' => v = none → Level s scopes m c') (Strands s scopes)) :
    Meets (inTurn limits schedule r m a rest) c (fun v c' => v = none → Level s scopes m c') (Strands s scopes) := by
  rw [inTurn]
  split
  · apply (level_consult h hm).bind
    intro v c' hc'
    cases v with
    | some v => rintro ⟨⟩
    | none => exact hrest c' (hc' rfl)
  · exact hrest c h

theorem level_iterate (h : Level s scopes m c) :
    Meets (iterate limits schedule r (m + 1)) c (fun v c' => v = none → Level s scopes (m + 1) c')
      (Strands s scopes) := by
  rw [iterate_eq]
  apply (level_extend h).bind
  intro _ c₀ h₀
  apply level_inTurn h₀ m.succ_pos
  intro c₁ h₁
  split
  · exact h₁.strands rfl
  · apply level_inTurn h₁ m.succ_pos
    intro c₂ h₂
    apply level_inTurn h₂ m.succ_pos
    exact fun c₃ h₃ _ => h₃

theorem strands_run (h : Level s scopes 0 c) :
    Meets (run limits schedule r) c (fun _ _ => True) (Strands s scopes) := by
  apply meets_runFrom (Level s scopes)
  · exact fun _ _ _ _ => trivial
  · intro m c hc _
    apply (level_iterate hc).imp
    intro v c' hc'
    cases v with
    | some v => trivial
    | none => exact hc' rfl
  · exact fun _ _ => strands_fault _
  · exact h

/-- After a run that ends with an error, the solver of the strategy whose turn was broken off is one scope deeper than
before if the turn left its scope open, and all others are as deep as before. So all solvers come back at the depth at
which they were supplied exactly if the turn, in case there was one, was not of a strategy that leaves a scope open. -/
theorem depths_after_error {bmc kInduction imc : Option (Supplied DecisionSolver)} {e : CheckError}
    {c' : Checker DecisionSolver}
    (hreached : ∀ a x, supplied bmc kInduction imc a = some x → x.solver.Reached)
    (h : ofSystem s bmc kInduction imc = .ok c)
    (hrun : (run limits schedule r).run.run c = (.error (.error e), c')) :
    (∀ a x, supplied bmc kInduction imc a = some x → ∃ y, c'.team.get? a = some y ∧
      (c'.brokenOff? e = some a ∧ s.LeavesOpen a → y.solver.depth = x.solver.depth + 1) ∧
      (¬ (c'.brokenOff? e = some a ∧ s.LeavesOpen a) → y.solver.depth = x.solver.depth)) ∧
    ((∀ a x y, supplied bmc kInduction imc a = some x → c'.team.get? a = some y → y.solver.depth = x.solver.depth) ↔
      ∀ a, c'.brokenOff? e = some a → ¬ s.LeavesOpen a) := by
  obtain ⟨hu, -, hteam⟩ := of_ofSystem_eq_ok h
  let scopes := fun a => (supplied bmc kInduction imc a).map fun x => x.solver.outer.length
  have hlevel : Level s scopes 0 c := by
    refine ⟨.start hu, fun a => ?_⟩
    simp only [hteam, scopes]
    cases hx : supplied bmc kInduction imc a with
    | none => exact .none
    | some x => exact .some ⟨(hreached a x hx).nested, fun hpos => absurd hpos (Nat.lt_irrefl 0)⟩
  obtain ⟨hsupplied, hmembers⟩ := (strands_run hlevel).of_run_error hrun e rfl
  have hdepths : ∀ a x, supplied bmc kInduction imc a = some x → ∃ y, c'.team.get? a = some y ∧
      (c'.brokenOff? e = some a ∧ s.LeavesOpen a → y.solver.depth = x.solver.depth + 1) ∧
      (¬ (c'.brokenOff? e = some a ∧ s.LeavesOpen a) → y.solver.depth = x.solver.depth) := by
    intro a x hx
    have ha := hmembers a
    simp only [scopes, hx, Option.map_some] at ha
    generalize hy : c'.team.get? a = o at ha
    obtain @⟨_, y, k, hk, hbroken, hother⟩ | _ := ha
    have hdepth : y.solver.depth = k + 1 := hk.depth_eq
    refine ⟨y, rfl, fun hopen => ?_, fun hclosed => ?_⟩
    · rcases hbroken hopen.1 with ⟨-, rfl⟩ | ⟨hnot, -⟩
      · exact hdepth
      · exact absurd hopen.2 hnot
    · by_cases hlast : c'.brokenOff? e = some a
      · rcases hbroken hlast with ⟨hopen, -⟩ | ⟨-, rfl⟩
        · exact absurd ⟨hlast, hopen⟩ hclosed
        · exact hdepth
      · rw [hdepth, hother hlast]
        rfl
  refine ⟨hdepths, fun hsame a hlast hopen => ?_, fun hclosed a x y hx hy => ?_⟩
  · obtain ⟨x, hx⟩ : ∃ x, supplied bmc kInduction imc a = some x := by
      have hsome := hsupplied a hlast
      rwa [Option.isSome_map, Option.isSome_iff_exists] at hsome
    obtain ⟨y, hy, hdeeper, -⟩ := hdepths a x hx
    have := hdeeper ⟨hlast, hopen⟩
    have := hsame a x y hx hy
    omega
  · obtain ⟨z, hz, -, hequal⟩ := hdepths a x hx
    rw [hy, Option.some_inj] at hz
    rw [hz]
    exact hequal fun hopen => hclosed a hopen.1 hopen.2

private def bulb : Formula :=
  .var ⟨"lit", .bool⟩

/-- A lamp that is off, with these steps and this property. -/
private def wired (trans prop : Formula) : TransitionSystem where
  init := .not bulb
  trans := trans
  prop := prop

/-- Of two solvers with a scope open, interpolation leaves its own one deeper, as the steps of the system are no
propositions. The search has no turn. -/
theorem depths_after_error_interpolation : ∃ first x c e c' y z, ofBits 0 = .ok first ∧
    (Call.performAll [.push] first).1 = x ∧
    ofSystem (wired (.neg (.prime bulb)) (.not bulb)) (some ⟨0, x⟩) none (some ⟨1, x⟩) = .ok c ∧
    (run ⟨1, 1⟩ .imcOnly .explicit).run.run c = (.error (.error e), c') ∧
    c'.team.get? .bmc = some y ∧ y.solver.depth = x.depth ∧
    c'.team.get? .imc = some z ∧ z.solver.depth = x.depth + 1 := by
  have hstart : ∃ first x c, ofBits 0 = .ok first ∧ (Call.performAll [.push] first).1 = x ∧
      ofSystem (wired (.neg (.prime bulb)) (.not bulb)) (some ⟨0, x⟩) none (some ⟨1, x⟩) = .ok c ∧
      Meets (run ⟨1, 1⟩ .imcOnly .explicit) c (fun _ _ => False) fun h c' =>
        (match h with | .error e => decide (c'.brokenOff? e = some .imc) | .fault _ => false) = true :=
    ⟨_, _, _, rfl, rfl, rfl, by decide +kernel⟩
  obtain ⟨first, x, c, hfirst, hx, hc, hmeets⟩ := hstart
  obtain ⟨_ | e, c', hrun, hlast⟩ := hmeets.exists_error
  · cases hlast
  · have hlast : c'.brokenOff? e = some .imc := of_decide_eq_true hlast
    have hreached : ∀ a y, supplied (some ⟨0, x⟩) none (some ⟨1, x⟩) a = some y → y.solver.Reached := by
      rintro (_ | _ | _) _ ⟨⟩ <;> exact ⟨0, first, [.push], hfirst, hx⟩
    obtain ⟨hdepths, -⟩ := depths_after_error hreached hc hrun
    obtain ⟨y, hy, -, hsame⟩ := hdepths .bmc _ rfl
    obtain ⟨z, hz, hdeeper, -⟩ := hdepths .imc _ rfl
    refine ⟨first, x, c, e, c', y, z, hfirst, hx, hc, hrun, hy, hsame ?_, hz, hdeeper ⟨hlast, trivial⟩⟩
    rw [hlast]
    exact fun h => nomatch h.1

/-- A property that is no proposition is refused when the search has opened a scope for it, which is not closed. -/
theorem depth_ne_after_error : ∃ x c e c' y, ofBits 0 = .ok x ∧
    ofSystem (wired (.eq (.prime bulb) bulb) (.neg bulb)) (some ⟨0, x⟩) none none = .ok c ∧
    (run ⟨1, 1⟩ .bmcOnly .explicit).run.run c = (.error (.error e), c') ∧
    c'.team.get? .bmc = some y ∧ y.solver.depth ≠ x.depth := by
  have hstart : ∃ x c, ofBits 0 = .ok x ∧
      ofSystem (wired (.eq (.prime bulb) bulb) (.neg bulb)) (some ⟨0, x⟩) none none = .ok c ∧
      Meets (run ⟨1, 1⟩ .bmcOnly .explicit) c (fun _ _ => False) fun h c' =>
        (match h with | .error _ => true | .fault _ => false) = true ∧
          ∃ y ∈ c'.team.get? .bmc, y.solver.depth ≠ x.depth :=
    ⟨_, _, rfl, rfl, by decide +kernel⟩
  obtain ⟨x, c, hx, hc, hmeets⟩ := hstart
  obtain ⟨_ | e, c', hrun, herror, y, hy, hdepth⟩ := hmeets.exists_error
  · cases herror
  · exact ⟨x, c, e, c', y, hx, hc, hrun, hy, hdepth⟩

end Checker

end Invariance
