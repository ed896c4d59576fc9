import Invariance.Proofs.Engine.Conversations
import Invariance.Proofs.Engine.Protocol

/-!
The search does not depend on its schedule. In whichever iterations it has its turns, and whatever the other strategies do,
it has the conversation of one turn over the last unrolling that it was given. A sparse schedule comes to the same end as
one in which the search has a turn in every iteration.
-/

namespace Invariance

/-! ### Turns of a member of the team -/

namespace Search

open Unrolling

variable {σ S A : Type} [Solver σ] {s : TransitionSystem} {u : Unrolling} {loopFree : Bool} {r : Reconstruction S A} {n : Nat}

/-- Where a member of the team stands that has taken turns at searching, and what was said in them. -/
inductive SoFar (s : TransitionSystem) (loopFree : Bool) (r : Reconstruction S A) (x : σ) (schedule : Schedule) :
    Nat → σ → List Exchange → Prop
  | fresh : SoFar s loopFree r x schedule 0 x []
  | upTo {i : Nat} {u : Unrolling} {y : σ} {log : Array Exchange} (hu : After s i u) (hi : schedule.bmc i = true)
      (hrun : alone u loopFree r x = (.ok (none, i + 1), ⟨y, log⟩)) : SoFar s loopFree r x schedule (i + 1) y log.toList

/-- The next turn goes on with the conversation. -/
theorem SoFar.alone_eq {x y : σ} {schedule : Schedule} {p : Nat} {log : List Exchange}
    (h : SoFar s loopFree r x schedule p y log) (hu : After s n u) (hp : p ≤ n) :
    alone u loopFree r x = match (turn u loopFree r p).run.run ⟨y, #[]⟩ with
      | (result, ses) => (result, ⟨ses.solver, log.toArray ++ ses.log⟩) := by
  cases h with
  | fresh =>
      rw [alone]
      rcases (turn u loopFree r 0).run.run ⟨x, #[]⟩ with ⟨result, ses⟩
      simp
  | @upTo i v y log hv hi hrun =>
      rw [Search.alone_eq hv hu (by omega), hrun, turn, hu.lastFrame, Nat.add_sub_add_right]
      exact additive_examineFrom y log

/-- What the search finds in the iteration `n`, if that ends the run. -/
inductive Concludes (n : Nat) :
    Except (Halt CheckError) (Option (Outcome S A) × Nat) → Except (Halt CheckError) (Verdict S A) → Prop
  | settled {o : Outcome S A} {f : Nat} : Concludes n (.ok (some o, f)) (.ok (.ofOutcome .bmc n o))
  | failed {h : Halt CheckError} : Concludes n (.error h) (.error h)

end Search

namespace Checker

open Unrolling Search

variable {σ S A : Type} [Solver σ] {s : TransitionSystem} {u v : Unrolling} {loopFree : Bool} {limits : Limits}
variable {r : Reconstruction S A} {x : σ} {schedule : Schedule} {c c' : Checker σ} {i k n : Nat} {a : Strategy}
variable {result : Except (Halt CheckError) (Verdict S A)}

/-- The state of a run after `n` iterations, the search having examined frames below `k`. -/
structure Searching (s : TransitionSystem) (loopFree : Bool) (r : Reconstruction S A) (x : σ) (schedule : Schedule)
    (k n : Nat) (c : Checker σ) : Prop where
  after : After s n c.unrolling
  member : ∃ m, c.team.get? .bmc = some m ∧ m.progress ≤ k ∧
    SoFar s loopFree r x schedule m.progress m.solver (exchangesWith c.transcript.toList .bmc)

/-- The search of the iteration `i` ends the run. -/
structure Ended (s : TransitionSystem) (loopFree : Bool) (r : Reconstruction S A) (x : σ) (schedule : Schedule) (i : Nat)
    (result : Except (Halt CheckError) (Verdict S A)) (c : Checker σ) : Prop where
  turn : schedule.bmc i = true
  found : ∃ u, After s i u ∧ Concludes i (alone u loopFree r x).1 result ∧
    exchangesWith c.transcript.toList .bmc = (alone u loopFree r x).2.log.toList

/-! ### Iterations -/

/-- The turn of the search. -/
theorem consult_searching (hfree : ∀ j, schedule.loopFree j = loopFree) (h : Searching s loopFree r x schedule n n c)
    (hturn : schedule.bmc n = true) :
    Meets (consult limits schedule r n .bmc) c
      (fun v c' => match v with
        | some v => Ended s loopFree r x schedule n (.ok v) c'
        | none => Searching s loopFree r x schedule (n + 1) n c' ∧
          ∃ u, After s n u ∧ (alone u loopFree r x).1 = .ok (none, n + 1))
      fun e c' => Ended s loopFree r x schedule n (.error e) c' := by
  obtain ⟨m, hm, hp, hsofar⟩ := h.member
  have halone := hsofar.alone_eq h.after hp
  rw [consult]
  apply meets_summon.bind
  intro o c₁ hc₁
  obtain ⟨rfl, rfl⟩ := hc₁
  rw [hm]
  simp only [meets_bind, meets_askLoopFree, meets_get, meets_pure, hfree]
  rw [meets_perform]
  have hlog : ∀ log : Array Exchange,
      exchangesWith (c.transcript ++ log.map fun e => (Strategy.bmc, e)).toList .bmc =
        exchangesWith c.transcript.toList .bmc ++ log.toList := by
    intro log
    rw [Array.toList_append, Array.toList_map, exchangesWith_append, if_pos rfl]
  rcases hrun : (Search.turn c.unrolling loopFree r m.progress).run.run ⟨m.solver, #[]⟩ with ⟨e | ⟨_ | o, f⟩, ses⟩
  · rw [hrun] at halone
    refine meets_of_run_error hrun ⟨hturn, c.unrolling, h.after, ?_, ?_⟩
    · rw [halone]
      exact .failed
    · rw [halone, hlog]
      simp
  · rw [hrun] at halone
    have hf : f = n + 1 := by
      have hturn := halone
      rw [alone, Search.turn, h.after.lastFrame, Nat.sub_zero] at hturn
      rw [frame_of_run_examineFrom hturn, Nat.zero_add]
    subst hf
    refine meets_of_run_ok hrun ⟨⟨h.after, ⟨ses.solver, n + 1⟩, ?_, le_rfl, ?_⟩, c.unrolling, h.after, ?_⟩
    · rw [Team.get?_put, if_pos rfl]
    · have hupTo := SoFar.upTo h.after hturn halone
      rw [Array.toList_append] at hupTo
      simpa only [hlog] using hupTo
    · rw [halone]
  · rw [hrun] at halone
    refine meets_of_run_ok hrun ⟨hturn, c.unrolling, h.after, ?_, ?_⟩
    · rw [halone]
      exact .settled
    · rw [halone, hlog]
      simp

/-- The other strategies have solvers of their own. -/
theorem consult_of_ne (ha : a ≠ .bmc) (i : Nat) :
    Maintains (Searching s loopFree r x schedule k n) (consult (S := S) (A := A) limits schedule r i a) := by
  intro c h
  obtain ⟨m, hm, hp, hsofar⟩ := h.member
  rw [consult]
  apply meets_summon.bind
  intro o c₁ hc₁
  obtain ⟨rfl, rfl⟩ := hc₁
  cases hmember : c.team.get? a with
  | none => exact ⟨h.after, m, by rw [Team.get?_take, if_neg ha.symm, hm], hp, hsofar⟩
  | some m' =>
      simp only [meets_bind, meets_askLoopFree, meets_get, meets_pure]
      rw [meets_perform]
      have hreturn : ∀ (y : σ) (p asked : Nat) (log : Array Exchange), Searching s loopFree r x schedule k n
          ⟨c.unrolling, (c.team.take a).2.put ⟨y, p⟩ a, asked, c.transcript ++ log.map fun e => (a, e)⟩ := by
        intro y p asked log
        refine ⟨h.after, m, ?_, hp, ?_⟩
        · rw [Team.put_take, Team.get?_put, if_neg ha.symm, hm]
        · rwa [Array.toList_append, Array.toList_map, exchangesWith_append, if_neg ha, List.append_nil]
      exact meets_of_forall (fun _ _ => hreturn _ _ _ _) fun _ _ => hreturn _ _ _ _

theorem Searching.mono (h : Searching s loopFree r x schedule k n c) {l : Nat} (hkl : k ≤ l) :
    Searching s loopFree r x schedule l n c where
  after := h.after
  member := by
    obtain ⟨m, hm, hp, hsofar⟩ := h.member
    exact ⟨m, hm, hp.trans hkl, hsofar⟩

/-- What is known after a run, in whichever iteration and by whichever strategy it ended. Either the search had no turn, or
its conversation is that of one turn in the last iteration in which it had one. If it found something there, the run ended
with it. -/
inductive Searched (s : TransitionSystem) (loopFree : Bool) (r : Reconstruction S A) (x : σ) (schedule : Schedule)
    (result : Except (Halt CheckError) (Verdict S A)) (c : Checker σ) : Prop
  | never (hlog : exchangesWith c.transcript.toList .bmc = [])
  | passed (i : Nat) (u : Unrolling) (hu : After s i u) (hturn : schedule.bmc i = true)
      (hnone : (alone u loopFree r x).1 = .ok (none, i + 1))
      (hlog : exchangesWith c.transcript.toList .bmc = (alone u loopFree r x).2.log.toList)
  | ended (i : Nat) (h : Ended s loopFree r x schedule i result c)

theorem searched_of_soFar {p : Nat} {y : σ} {log : List Exchange} (h : SoFar s loopFree r x schedule p y log)
    (hlog : exchangesWith c.transcript.toList .bmc = log) : Searched s loopFree r x schedule result c := by
  cases h with
  | fresh => exact .never hlog
  | @upTo i u y log hu hi hrun => exact .passed i u hu hi (by rw [hrun]) (by rw [hlog, hrun])

theorem Searching.searched (h : Searching s loopFree r x schedule k n c) :
    Searched s loopFree r x schedule result c := by
  obtain ⟨m, -, -, hsofar⟩ := h.member
  exact searched_of_soFar hsofar rfl

theorem inTurn_searching {rest : Run σ (Option (Verdict S A))} {l : Nat}
    (h : Searching s loopFree r x schedule k n c) (ha : a ≠ .bmc)
    (hrest : ∀ c, Searching s loopFree r x schedule k n c → Meets rest c
      (fun v c' => match v with
        | some v => Searched s loopFree r x schedule (.ok v) c'
        | none => Searching s loopFree r x schedule l n c')
      fun e c' => Searched s loopFree r x schedule (.error e) c') :
    Meets (inTurn limits schedule r n a rest) c
      (fun v c' => match v with
        | some v => Searched s loopFree r x schedule (.ok v) c'
        | none => Searching s loopFree r x schedule l n c')
      fun e c' => Searched s loopFree r x schedule (.error e) c' := by
  rw [inTurn]
  split
  · apply ((consult_of_ne ha n c h).mono (fun _ _ => id) fun _ _ hc' => hc'.searched).bind
    intro v c' hc'
    cases v with
    | some v => exact hc'.searched
    | none => exact hrest c' hc'
  · exact hrest c h

theorem extend_searching (h : Searching s loopFree r x schedule (n + 1) n c) :
    Meets extend c (fun _ c' => Searching s loopFree r x schedule (n + 1) (n + 1) c')
      fun e c' => Searched s loopFree r x schedule (.error e) c' := by
  have hrun : extend.run.run c = _ := run_extend
  rcases hext : c.unrolling.extend with ⟨f | _, u⟩ <;> rw [hext] at hrun
  · obtain ⟨m, -, -, hsofar⟩ := h.member
    exact meets_of_run_error hrun (searched_of_soFar hsofar rfl)
  · exact meets_of_run_ok hrun ⟨h.after.extend hext, h.member⟩

/-- An iteration of any strategies. -/
theorem iterate_searching (hfree : ∀ j, schedule.loopFree j = loopFree)
    (h : Searching s loopFree r x schedule (n + 1) n c) :
    Meets (iterate limits schedule r (n + 1)) c
      (fun v c' => match v with
        | some v => Searched s loopFree r x schedule (.ok v) c'
        | none => Searching s loopFree r x schedule (n + 2) (n + 1) c')
      fun e c' => Searched s loopFree r x schedule (.error e) c' := by
  rw [iterate_eq]
  apply (extend_searching h).bind
  intro _ c₀ h₀
  have hothers : ∀ c, Searching s loopFree r x schedule (n + 2) (n + 1) c →
      Meets (if schedule.kInduction (n + 1) && !schedule.bmc (n + 1) then
          throw (.error (.inductionWithoutBmc (n + 1)))
        else inTurn limits schedule r (n + 1) .kInduction (inTurn limits schedule r (n + 1) .imc (return none))) c
        (fun v c' => match v with
          | some v => Searched s loopFree r x schedule (.ok v) c'
          | none => Searching s loopFree r x schedule (n + 2) (n + 1) c')
        fun e c' => Searched s loopFree r x schedule (.error e) c' := by
    intro c h
    split
    · exact h.searched
    · apply inTurn_searching h (a := .kInduction) nofun
      intro c h
      apply inTurn_searching h (a := .imc) nofun
      exact fun c h => h
  rw [inTurn]
  by_cases hturn : schedule.has (n + 1) .bmc = true
  · rw [if_pos hturn]
    apply ((consult_searching hfree h₀ hturn).mono (fun _ _ => id) fun _ _ he => .ended (n + 1) he).bind
    intro v c' hc'
    cases v with
    | some v => exact .ended (n + 1) hc'
    | none => exact hothers c' hc'.1
  · rw [if_neg hturn]
    exact hothers c₀ (h₀.mono (n + 1).le_succ)

/-- An iteration of the search alone. It ends the run with what it finds. -/
theorem iterate_alone (hfree : ∀ j, schedule.loopFree j = loopFree)
    (halone : ∀ j, schedule.kInduction j = false ∧ schedule.imc j = false) (hu : After s (n + 1) u)
    (h : Searching s loopFree r x schedule (n + 1) n c) :
    Meets (iterate limits schedule r (n + 1)) c
      (fun v c' => match v with
        | some v => Ended s loopFree r x schedule (n + 1) (.ok v) c'
        | none => Searching s loopFree r x schedule (n + 2) (n + 1) c' ∧
          (schedule.bmc (n + 1) = true → (alone u loopFree r x).1 = .ok (none, n + 2)))
      fun e c' => Ended s loopFree r x schedule (n + 1) (.error e) c' := by
  obtain ⟨hk, hi⟩ := halone (n + 1)
  have hext : c.unrolling.extend = (.ok (), u) := by
    cases hu with
    | extend hu hext =>
        cases h.after.eq hu
        exact hext
  have hrun : extend.run.run c = _ := run_extend
  rw [hext] at hrun
  have h₀ : Searching s loopFree r x schedule (n + 1) (n + 1) { c with unrolling := u } := ⟨hu, h.member⟩
  rw [iterate_eq]
  simp only [inTurn, Schedule.has, hk, hi, Bool.false_and, Bool.false_eq_true, if_false]
  rw [meets_bind]
  apply meets_of_run_ok hrun
  by_cases hturn : schedule.bmc (n + 1) = true
  · rw [if_pos hturn]
    apply (consult_searching hfree h₀ hturn).bind
    intro v c' hc'
    cases v with
    | some v => exact hc'
    | none =>
        obtain ⟨hc', w, hw, hnone⟩ := hc'
        cases hw.eq hu
        exact ⟨hc', fun _ => hnone⟩
  · rw [if_neg hturn]
    exact ⟨h₀.mono (n + 1).le_succ, fun h => absurd h hturn⟩

/-! ### Runs -/

/-- A run starts before the search has examined any frame. -/
theorem searching_of_ofSystem {id : Nat} {kInduction imc : Option (Supplied σ)}
    (h : ofSystem s (some ⟨id, x⟩) kInduction imc = .ok c) : Searching s loopFree r x schedule 1 0 c := by
  obtain ⟨hu, htranscript, hteam⟩ := of_ofSystem_eq_ok h
  refine ⟨.start hu, { solver := x }, hteam .bmc, Nat.zero_le _, ?_⟩
  rw [htranscript]
  exact .fresh

/-- A run in which the solver `x` takes the turns of the search, with one answer to all questions about loop-free paths. -/
structure Searches (s : TransitionSystem) (loopFree : Bool) (r : Reconstruction S A) (x : σ) (limits : Limits)
    (schedule : Schedule) (result : Except (Halt CheckError) (Verdict S A)) (c' : Checker σ) : Prop where
  loopFree : ∀ j, schedule.loopFree j = loopFree
  run : ∃ id kInduction imc c, ofSystem s (some ⟨id, x⟩) kInduction imc = .ok c ∧
    (Checker.run limits schedule r).run.run c = (result, c')

theorem Searches.searched (h : Searches s loopFree r x limits schedule result c') :
    Searched s loopFree r x schedule result c' := by
  obtain ⟨id, kInduction, imc, c, hc, hrun⟩ := h.run
  have hmeets : Meets (Checker.run limits schedule r) c (fun v c' => Searched s loopFree r x schedule (.ok v) c')
      fun e c' => Searched s loopFree r x schedule (.error e) c' := by
    apply meets_runFrom fun n c => Searching s loopFree r x schedule (n + 1) n c
    · exact fun n c hc _ => hc.searched
    · exact fun n c hc _ => iterate_searching h.loopFree hc
    · exact fun c hc => hc.searched
    · exact searching_of_ofSystem hc
  cases result with
  | ok v => exact hmeets.of_run_ok hrun
  | error e => exact hmeets.of_run_error hrun

/-- What the search finds in an iteration, one turn over a longer unrolling finds too. -/
theorem Ended.concludes {j : Nat} (h : Ended s loopFree r x schedule j result c) (hu : After s i u) (hj : j ≤ i) :
    Concludes j (alone u loopFree r x).1 result ∧
      exchangesWith c.transcript.toList .bmc = (alone u loopFree r x).2.log.toList := by
  obtain ⟨w, hw, hconcludes, hlog⟩ := h.found
  have heq : alone u loopFree r x = _ := alone_eq hw hu hj
  rcases hrun : alone w loopFree r x with ⟨e | ⟨_ | o, f⟩, ses⟩ <;> rw [hrun] at hconcludes hlog heq
  · rw [heq]
    exact ⟨hconcludes, hlog⟩
  · nomatch hconcludes
  · rw [heq]
    exact ⟨hconcludes, hlog⟩

/-- In this iteration of a run the search has a turn, unless it has found something before, and no other strategy ever has
one. -/
structure SearchesAlone (limits : Limits) (schedule : Schedule) (i : Nat) : Prop where
  turn : schedule.bmc i = true
  pos : 0 < i
  within : i ≤ limits.iterations
  patient : ∀ m < i, schedule.givesUp m = false
  others : ∀ j, schedule.kInduction j = false ∧ schedule.imc j = false

/-- Searching alone, a run ends with what one turn finds over a later unrolling that it gets to. -/
theorem Searches.exists_concludes (h : Searches s loopFree r x limits schedule result c')
    (halone : SearchesAlone limits schedule i) (hu : After s i u)
    (hfound : (alone u loopFree r x).1 ≠ .ok (none, i + 1)) :
    ∃ j ≤ i, Concludes j (alone u loopFree r x).1 result ∧
      exchangesWith c'.transcript.toList .bmc = (alone u loopFree r x).2.log.toList := by
  obtain ⟨id, kInduction, imc, c, hc, hrun⟩ := h.run
  suffices hmeets : Meets (Checker.run limits schedule r) c
      (fun v c' => ∃ j ≤ i, Ended s loopFree r x schedule j (.ok v) c')
      fun e c' => ∃ j ≤ i, Ended s loopFree r x schedule j (.error e) c' by
    have hended : ∃ j ≤ i, Ended s loopFree r x schedule j result c' := by
      cases result with
      | ok v => exact hmeets.of_run_ok hrun
      | error e => exact hmeets.of_run_error hrun
    obtain ⟨j, hj, hended⟩ := hended
    exact ⟨j, hj, hended.concludes hu hj⟩
  apply meets_runFrom fun n c => n < i ∧ Searching s loopFree r x schedule (n + 1) n c
  · intro n c hc hgivesUp
    rw [halone.patient n hc.1] at hgivesUp
    cases hgivesUp
  · intro n c hc _
    obtain ⟨hlt, hc⟩ := hc
    obtain ⟨w, hw, -⟩ := hu.exists_within (k := n + 1) hlt
    apply (iterate_alone h.loopFree halone.others hw hc).mono
    · intro v c' hc'
      cases v with
      | some v => exact ⟨n + 1, hlt, hc'⟩
      | none =>
          refine ⟨lt_of_le_of_ne hlt fun heq => ?_, hc'.1⟩
          subst heq
          cases hw.eq hu
          exact hfound (hc'.2 halone.turn)
    · exact fun e c' he => ⟨n + 1, hlt, he⟩
  · have := halone.within
    exact fun c hc => absurd hc.1 (by omega)
  · exact ⟨halone.pos, searching_of_ofSystem hc⟩

/-- The search does not depend on its schedule. Turns over growing unrollings, which keep a counter of the steps
asserted and one of the frames examined, are one turn over the last unrolling, and up to any frame they are one turn over
the unrolling that ends there. In every run, the search has the conversation of one turn. Two runs of the search alone that
get to an iteration by which there is something to find have the same conversation and find the same. -/
theorem search_independent_of_schedule {ns : List Nat} {us : List Unrolling} {N : Nat}
    (hus : List.Forall₂ (After s) ns us) (hns : ns.Pairwise (· ≤ ·)) (hN : ns.getLast? = some N) (hv : After s n v)
    (hn : n ≤ N) (loopFree : Bool) (r : Reconstruction S A) (x : σ) :
    (∀ w, After s N w → turns loopFree r us 0 0 = Prod.fst <$> (Search.turn w loopFree r 0 : Talk σ _)) ∧
    BeginsWith (alone v loopFree r x) ((turns loopFree r us 0 0).run.run ⟨x, #[]⟩) ∧
    (∀ limits schedule result c, Searches s loopFree r x limits schedule result c →
      Searched s loopFree r x schedule result c) ∧
    ∀ i u, After s i u → (alone u loopFree r x).1 ≠ .ok (none, i + 1) →
      ∀ limits limits' schedule schedule' result result' c c', Searches s loopFree r x limits schedule result c →
        Searches s loopFree r x limits' schedule' result' c' → SearchesAlone limits schedule i →
        SearchesAlone limits' schedule' i →
        (∃ j ≤ i, ∃ j' ≤ i, Concludes j (alone u loopFree r x).1 result ∧
          Concludes j' (alone u loopFree r x).1 result') ∧
        exchangesWith c.transcript.toList .bmc = exchangesWith c'.transcript.toList .bmc := by
  refine ⟨fun w hw => turns_eq hus hns hN hw, ?_, fun limits schedule result c h => h.searched, ?_⟩
  · obtain ⟨w, hw⟩ := exists_after_of_forall₂ hus (List.mem_of_getLast? hN)
    have hrun : (turns loopFree r us 0 0).run.run ⟨x, #[]⟩ =
        ((alone w loopFree r x).1.map Prod.fst, (alone w loopFree r x).2) := by
      rw [turns_eq hus hns hN hw, map_eq_pure_bind, run_bind, alone]
      rcases (Search.turn w loopFree r 0).run.run ⟨x, #[]⟩ with ⟨e | p, ses⟩ <;> rfl
    rw [hrun]
    exact beginsWith_alone hv hw hn
  · intro i u hu hfound limits limits' schedule schedule' result result' c c' h h' halone halone'
    obtain ⟨j, hj, hconcludes, hlog⟩ := h.exists_concludes halone hu hfound
    obtain ⟨j', hj', hconcludes', hlog'⟩ := h'.exists_concludes halone' hu hfound
    exact ⟨⟨j, hj, j', hj', hconcludes, hconcludes'⟩, hlog.trans hlog'.symm⟩

/-- Search comes only in the third iteration. -/
def sparse : Schedule := { Schedule.bmcOnly with bmc := fun i => i = 3 }

/-- A solver that finds no violation, and in the third frame no loop-free path. -/
def exhausting : Script where
  statuses := [.unsat, .sat, .unsat, .unsat]

/-- A sparse schedule comes to its verdict an iteration later, after the same conversation. -/
theorem search_independent_of_schedule_latch : ∃ u₁ u₃ c v d v' d', After latch 1 u₁ ∧ After latch 3 u₃ ∧
    turns true .explicit [u₁, u₃] 0 0 = Prod.fst <$> (Search.turn u₃ true .explicit 0 : Talk Script _) ∧
    ofSystem latch (some ⟨0, exhausting⟩) none none = .ok c ∧
    (run ⟨3, 0⟩ sparse .explicit).run.run c = (.ok v, d) ∧ (run ⟨3, 0⟩ .bmcOnly .explicit).run.run c = (.ok v', d') ∧
    v.iteration = 3 ∧ v'.iteration = 2 ∧
    exchangesWith d.transcript.toList .bmc = exchangesWith d'.transcript.toList .bmc := by
  have hu : ∃ u₁ u₃, After latch 1 u₁ ∧ After latch 3 u₃ ∧
      Meets (Search.turn u₃ true .explicit 0) ⟨exhausting, #[]⟩ (fun p _ => p.1.isSome = true) fun _ _ => False :=
    ⟨_, _, .extend (.start rfl) rfl, .extend (.extend (.extend (.start rfl) rfl) rfl) rfl, by decide +kernel⟩
  have hstart : ∃ c, ofSystem latch (some ⟨0, exhausting⟩) none none = .ok c ∧
      Meets (run ⟨3, 0⟩ sparse .explicit) c (fun v _ => v.iteration = 3) (fun _ _ => False) ∧
      Meets (run ⟨3, 0⟩ .bmcOnly .explicit) c (fun v _ => v.iteration = 2) fun _ _ => False :=
    ⟨_, rfl, by decide +kernel, by decide +kernel⟩
  obtain ⟨u₁, u₃, hu₁, hu₃, hfinds⟩ := hu
  obtain ⟨c, hc, hsparse, hdense⟩ := hstart
  obtain ⟨v, d, hrun, hv⟩ := hsparse.exists_ok
  obtain ⟨v', d', hrun', hv'⟩ := hdense.exists_ok
  have hfound : (alone u₃ true .explicit exhausting).1 ≠ .ok (none, 4) := by
    obtain ⟨p, ses, hturn, hp⟩ := hfinds.exists_ok
    rw [alone, hturn]
    rintro heq
    cases heq
    cases hp
  have hus : List.Forall₂ (After latch) [1, 3] [u₁, u₃] := .cons hu₁ (.cons hu₃ .nil)
  obtain ⟨hlast, -, -, hruns⟩ :=
    search_independent_of_schedule hus (by decide) rfl hu₁ (by decide) true .explicit exhausting
  refine ⟨u₁, u₃, c, v, d, v', d', hu₁, hu₃, hlast u₃ hu₃, hc, hrun, hrun', hv, hv', ?_⟩
  refine (hruns 3 u₃ hu₃ hfound ⟨3, 0⟩ ⟨3, 0⟩ sparse .bmcOnly _ _ d d' ⟨fun _ => rfl, 0, none, none, c, hc, hrun⟩
    ⟨fun _ => rfl, 0, none, none, c, hc, hrun'⟩ ?_ ?_).2
  · exact ⟨rfl, by decide, le_rfl, fun _ _ => rfl, fun _ => ⟨rfl, rfl⟩⟩
  · exact ⟨rfl, by decide, le_rfl, fun _ _ => rfl, fun _ => ⟨rfl, rfl⟩⟩

end Checker

end Invariance
