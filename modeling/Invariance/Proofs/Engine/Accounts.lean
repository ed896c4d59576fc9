import Invariance.Proofs.Engine.Constraints
import Invariance.Proofs.Engine.Protocol

/-!
The account of a run. A run is a sequence of turns, which come in the order in which they are scheduled. Between two
turns of a strategy the unrolling may have grown by any number of steps, and the context of its solver is where the last
turn left it; the next turn goes on from there. So the rules of a strategy are kept over the whole run.
-/

namespace Invariance

/-! ### Schedules -/

namespace Schedule

/-- The turn of a strategy in an iteration, if it is scheduled. -/
def turnOf (s : Schedule) (iteration : Nat) (a : Strategy) : List (Nat × Strategy) :=
  if s.has iteration a then [(iteration, a)] else []

/-- The turns scheduled in the first `n` iterations, in their order. -/
def agenda (s : Schedule) : Nat → List (Nat × Strategy)
  | 0 => []
  | n + 1 => s.agenda n ++ [Strategy.bmc, .kInduction, .imc].flatMap (s.turnOf (n + 1))

end Schedule

/-! ### Turns -/

/-- A turn in a run: the answer to the question whether paths have to be loop-free, and the exchanges with the solver. -/
structure Turn where
  iteration : Nat
  strategy : Strategy
  loopFree : Bool
  log : List Exchange

namespace Turn

/-- What the schedule says of a turn. -/
def key (t : Turn) : Nat × Strategy :=
  (t.iteration, t.strategy)

/-- What is entered into the transcript. -/
def entries (t : Turn) : List (Strategy × Exchange) :=
  t.log.map (Prod.mk t.strategy)

/-- The account of the exchanges with the solver of a strategy in some turns. -/
def account (turns : List Turn) (a : Strategy) : Ledger :=
  ({} : Ledger).enterAll (exchangesWith (turns.flatMap entries) a)

/-- The turn is one of the strategy, in which the frame was there. -/
def reaches (a : Strategy) (frame : Nat) (t : Turn) : Bool :=
  t.strategy = a && frame ≤ t.iteration

/-- Were paths to be loop-free in the first turn of the strategy in which the frame was there? -/
def freeIn (turns : List Turn) (a : Strategy) (frame : Nat) : Bool :=
  (turns.find? (reaches a frame)).any Turn.loopFree

/-- The rules for a turn after some others. -/
def rules (u : Unrolling) (earlier : List Turn) (t : Turn) : Rules :=
  match t.strategy with
  | .bmc => Search.rules u (freeIn (earlier ++ [t]) .bmc) t.iteration
  | .kInduction => Induction.rules u (freeIn (earlier ++ [t]) .kInduction) t.iteration
  | .imc => Interpolation.rules u t.iteration (account earlier .imc).received

end Turn

/-- The transcript of a run, turn by turn, with what the run has unrolled. -/
structure Accounted (schedule : Schedule) (u : Unrolling) (turns : List Turn) (transcript : List (Strategy × Exchange)) :
    Prop where
  /-- There are no other exchanges than those of the turns. -/
  entries : transcript = turns.flatMap Turn.entries
  /-- The turns come in the order in which they are scheduled, and none is left out. -/
  keys : ∃ n, turns.map Turn.key <+: schedule.agenda n
  /-- Each turn is asked once for loop-free paths, as the schedule has it, and follows the rules. -/
  follows : ∀ earlier t later, turns = earlier ++ t :: later → t.loopFree = schedule.loopFree earlier.length ∧
    (t.rules u earlier).Cover (Turn.account earlier t.strategy) t.log

section Turns

variable {schedule : Schedule} {u v : Unrolling} {turns : List Turn} {transcript : List (Strategy × Exchange)} {t : Turn}
variable {a : Strategy} {n p frame : Nat}

theorem Turn.account_concat : account (turns ++ [t]) a =
    (account turns a).enterAll (if t.strategy = a then t.log else []) := by
  rw [account, List.flatMap_append, List.flatMap_singleton, entries, exchangesWith_append, Ledger.enterAll_append]
  rfl

/-- Whether paths have to be loop-free in a frame is decided in the first turn that has it. -/
theorem Turn.freeIn_concat : freeIn (turns ++ [t]) a frame =
    if turns.any (reaches a frame) then freeIn turns a frame else reaches a frame t && t.loopFree := by
  rw [freeIn, List.find?_append, freeIn]
  cases hfind : turns.find? (reaches a frame) with
  | some t' =>
      have hany : turns.any (reaches a frame) = true :=
        List.any_eq_true.mpr ⟨t', List.mem_of_find?_eq_some hfind, List.find?_some hfind⟩
      rw [if_pos hany]
      rfl
  | none =>
      have hany : ¬ turns.any (reaches a frame) = true := by
        rw [List.find?_eq_none] at hfind
        simpa using hfind
      rw [if_neg hany, List.find?_singleton]
      cases reaches a frame t <;> rfl

theorem Turn.reaches_of_ne (h : a ≠ t.strategy) : reaches a frame t = false := by
  simp [reaches, h.symm]

/-- The turn of a strategy does not concern the others. -/
theorem Turn.freeIn_concat_of_ne (h : a ≠ t.strategy) : freeIn (turns ++ [t]) a = freeIn turns a := by
  funext frame
  rw [freeIn, List.find?_append, List.find?_singleton, reaches_of_ne h, freeIn]
  simp

theorem Turn.account_concat_of_ne (h : a ≠ t.strategy) : account (turns ++ [t]) a = account turns a := by
  rw [account_concat, if_neg h.symm, Ledger.enterAll_nil]

theorem accounted_nil : Accounted schedule u [] [] where
  entries := rfl
  keys := ⟨0, List.prefix_refl _⟩
  follows := by simp

/-- One more turn is entered. -/
theorem Accounted.concat (h : Accounted schedule u turns transcript)
    (hkeys : turns.map Turn.key ++ [t.key] <+: schedule.agenda n) (hfree : t.loopFree = schedule.loopFree turns.length)
    (hlog : (t.rules u turns).Cover (Turn.account turns t.strategy) t.log) :
    Accounted schedule u (turns ++ [t]) (transcript ++ t.entries) where
  entries := by rw [List.flatMap_append, List.flatMap_singleton, h.entries]
  keys := ⟨n, by rwa [List.map_append]⟩
  follows := by
    intro earlier t' later heq
    rcases concat_cases heq with rfl | ⟨rest, -, hturns⟩
    · obtain ⟨rfl, rfl⟩ := List.append_singleton_inj.mp heq
      exact ⟨hfree, hlog⟩
    · exact h.follows earlier t' rest hturns

/-- A larger unrolling has the same rules for the turns so far. -/
theorem Accounted.within (h : Accounted schedule u turns transcript) (huv : u.Within v) :
    Accounted schedule v turns transcript where
  entries := h.entries
  keys := h.keys
  follows := by
    intro earlier t later heq
    obtain ⟨hfree, hlog⟩ := h.follows earlier t later heq
    obtain ⟨n, a, loopFree, log⟩ := t
    refine ⟨hfree, ?_⟩
    cases a with
    | bmc => exact hlog.mono (fun _ h => ⟨h.1, h.2.within huv⟩) fun _ => id
    | kInduction => exact hlog.mono (fun _ h => h.within huv) fun _ => id
    | imc => exact hlog.mono (fun _ h => h.within huv) fun _ h => h.within huv

/-! ### Between turns -/

theorem Search.constraints_congr {free free' : Nat → Bool} (h : ∀ f < p, free f = free' f) :
    constraints u free p = constraints u free' p := by
  induction p with
  | zero => rfl
  | succ p ih =>
      rw [constraints, constraints, ih fun f hf => h f (by omega), h p (by omega)]

theorem Induction.constraints_congr {free free' : Nat → Bool} (h : ∀ f, 0 < f → f ≤ p → free f = free' f) :
    constraints u free p = constraints u free' p := by
  induction p with
  | zero => rfl
  | succ p ih =>
      rw [constraints, constraints, ih fun f hf hfp => h f hf (by omega), h (p + 1) (by omega) le_rfl]

/-- Where a strategy with progress `p` stands after some turns, the unrolling having `n` steps. The frames that it has
dealt with are those that were there in one of its turns. -/
def Turn.Rests (u : Unrolling) (turns : List Turn) (n p : Nat) : Strategy → Prop
  | .bmc => p ≤ n + 1 ∧ (∀ f, f < p ↔ turns.any (reaches .bmc f)) ∧
      Search.Reached u (freeIn turns .bmc) p p (account turns .bmc)
  | .kInduction => p ≤ n ∧ (∀ f, 0 < f → (f ≤ p ↔ turns.any (reaches .kInduction f))) ∧
      Induction.Reached u (freeIn turns .kInduction) p (account turns .kInduction)
  | .imc => Interpolation.Clear (account turns .imc).received (account turns .imc)

theorem Turn.rests_nil (a : Strategy) : Rests u [] 0 0 a := by
  cases a with
  | bmc => exact ⟨Nat.zero_le _, by simp, rfl, rfl, rfl⟩
  | kInduction =>
      refine ⟨le_rfl, fun f hf => ?_, rfl, rfl⟩
      simp
      omega
  | imc => exact ⟨rfl, rfl, rfl, rfl⟩

theorem Turn.Rests.within (h : Rests u turns n p a) (huv : u.Within v) : Rests v turns (n + 1) p a := by
  cases a with
  | bmc =>
      obtain ⟨hp, hreaches, hreached⟩ := h
      exact ⟨by omega, hreaches, hreached.outer, huv.search hreached.scope, hreached.nested⟩
  | kInduction =>
      obtain ⟨hp, hreaches, hreached⟩ := h
      exact ⟨by omega, hreaches, hreached.outer, huv.induction hreached.scope⟩
  | imc => exact h

/-- The turn of a strategy leaves the others where they are. -/
theorem Turn.Rests.concat_of_ne (h : Rests u turns n p a) (hne : a ≠ t.strategy) : Rests u (turns ++ [t]) n p a := by
  have hany : ∀ f, (turns ++ [t]).any (reaches a f) = turns.any (reaches a f) := by
    intro f
    simp [List.any_append, reaches_of_ne hne]
  cases a with
  | bmc =>
      rw [Rests, freeIn_concat_of_ne hne, account_concat_of_ne hne]
      simp only [hany]
      exact h
  | kInduction =>
      rw [Rests, freeIn_concat_of_ne hne, account_concat_of_ne hne]
      simp only [hany]
      exact h
  | imc =>
      rw [Rests, account_concat_of_ne hne]
      exact h

section Own

variable {loopFree : Bool} {log : List Exchange}

theorem Turn.account_concat_self :
    account (turns ++ [⟨n, a, loopFree, log⟩]) a = (account turns a).enterAll log := by
  rw [account_concat, if_pos rfl]

theorem Turn.any_reaches_concat : (turns ++ [Turn.mk n a loopFree log]).any (reaches a frame) =
    (turns.any (reaches a frame) || decide (frame ≤ n)) := by
  simp [List.any_append, reaches]

/-- Where paths have to be loop-free during a turn in the iteration `n`: in a frame that was there before as it was then,
and in new ones as the turn has it. -/
def Turn.freeDuring (turns : List Turn) (n : Nat) (loopFree : Bool) (a : Strategy) (frame : Nat) : Bool :=
  if turns.any (reaches a frame) then freeIn turns a frame else decide (frame ≤ n) && loopFree

theorem Turn.freeIn_concat_self : freeIn (turns ++ [⟨n, a, loopFree, log⟩]) a = freeDuring turns n loopFree a := by
  funext f
  simp [freeIn_concat, freeDuring, reaches]

theorem Turn.freeDuring_of_reaches (h : turns.any (reaches a frame) = true) :
    freeDuring turns n loopFree a frame = freeIn turns a frame :=
  if_pos h

theorem Turn.freeDuring_of_not_reaches (h : ¬ turns.any (reaches a frame) = true) (hframe : frame ≤ n) :
    freeDuring turns n loopFree a frame = loopFree := by
  rw [freeDuring, if_neg h, decide_eq_true hframe, Bool.true_and]

/-- The log of a turn does not change the rules that it has to follow. -/
theorem Turn.rules_self : rules u turns ⟨n, a, loopFree, log⟩ = rules u turns ⟨n, a, loopFree, []⟩ := by
  cases a with
  | bmc | kInduction => simp only [rules, freeIn_concat_self]
  | imc => rfl

end Own

end Turns

/-! ### Runs -/

/-- A conversation that starts a log of its own. -/
theorem Enters.meets {σ α : Type} {R : Rules} {talk : Talk σ α} {l : Ledger} {Q : α → Ledger → Prop} {x : σ}
    (h : Enters R talk l Q) : Meets talk ⟨x, #[]⟩
      (fun o ses => R.Cover l ses.log.toList ∧ Q o (l.enterAll ses.log.toList)) fun _ ses => R.Cover l ses.log.toList :=
  h l ⟨x, #[]⟩ Rules.cover_nil rfl

variable {σ S A : Type} [Solver σ] {u : Unrolling} {r : Reconstruction S A} {limits : Limits} {schedule : Schedule}
variable {s : TransitionSystem} {c : Checker σ} {turns : List Turn} {done : List (Nat × Strategy)} {loopFree : Bool}
variable {a : Strategy} {n p : Nat} {x : σ}

namespace Checker

theorem enters_search (h : Turn.Rests u turns n p .bmc) (hlast : u.lastFrame = n) :
    Enters (σ := σ) (Turn.rules u turns ⟨n, .bmc, loopFree, []⟩) (Search.turn u loopFree r p)
      (Turn.account turns .bmc) fun o l => o.1 = none → ∀ log, l = (Turn.account turns .bmc).enterAll log →
        Turn.Rests u (turns ++ [⟨n, .bmc, loopFree, log⟩]) n o.2 .bmc := by
  obtain ⟨hp, hreaches, hreached⟩ := h
  simp only [Turn.rules, Turn.freeIn_concat_self]
  have hold : ∀ f < p, Turn.freeIn turns .bmc f = Turn.freeDuring turns n loopFree .bmc f := by
    intro f hf
    rw [Turn.freeDuring_of_reaches ((hreaches f).mp hf)]
  have hnew : ∀ f, p ≤ f → f ≤ u.lastFrame → Turn.freeDuring turns n loopFree .bmc f = loopFree := by
    intro f hpf hfn
    apply Turn.freeDuring_of_not_reaches
    · rw [← hreaches]
      omega
    · rwa [← hlast]
  have hstart : Search.Reached u (Turn.freeDuring turns n loopFree .bmc) p p (Turn.account turns .bmc) :=
    ⟨hreached.outer, Search.constraints_congr hold ▸ hreached.scope, hreached.nested⟩
  subst hlast
  apply (Search.enters_turn hstart hp hnew).imp
  intro o l ho hnone log hl
  obtain ⟨hprogress, hreached'⟩ := ho hnone
  rw [Turn.Rests, Turn.freeIn_concat_self, Turn.account_concat_self, ← hl, hprogress]
  refine ⟨le_rfl, fun f => ?_, hreached'⟩
  rw [Turn.any_reaches_concat, Bool.or_eq_true, ← hreaches, decide_eq_true_iff]
  omega

theorem enters_induction (h : Turn.Rests u turns n p .kInduction) (hlast : u.lastFrame = n) (hsize : u.steps.size = n) :
    Enters (σ := σ) (Turn.rules u turns ⟨n, .kInduction, loopFree, []⟩)
      (Induction.turn (S := S) (A := A) u loopFree p) (Turn.account turns .kInduction) fun o l =>
        ∀ log, l = (Turn.account turns .kInduction).enterAll log →
          Turn.Rests u (turns ++ [⟨n, .kInduction, loopFree, log⟩]) n o.2 .kInduction := by
  obtain ⟨hp, hreaches, hreached⟩ := h
  simp only [Turn.rules, Turn.freeIn_concat_self]
  have hold : ∀ f, 0 < f → f ≤ p → Turn.freeIn turns .kInduction f = Turn.freeDuring turns n loopFree .kInduction f := by
    intro f hf hfp
    rw [Turn.freeDuring_of_reaches ((hreaches f hf).mp hfp)]
  have hnew : ∀ f, p < f → f ≤ u.lastFrame → Turn.freeDuring turns n loopFree .kInduction f = loopFree := by
    intro f hpf hfn
    apply Turn.freeDuring_of_not_reaches
    · rw [← hreaches f (by omega)]
      omega
    · rwa [← hlast]
  have hstart : Induction.Reached u (Turn.freeDuring turns n loopFree .kInduction) p (Turn.account turns .kInduction) :=
    ⟨hreached.outer, Induction.constraints_congr hold ▸ hreached.scope⟩
  subst hlast
  apply (Induction.enters_turn hstart (hsize ▸ hp) hsize hnew).imp
  intro o l ho log hl
  obtain ⟨hprogress, hreached'⟩ := ho
  rw [Turn.Rests, Turn.freeIn_concat_self, Turn.account_concat_self, ← hl, hprogress]
  refine ⟨le_rfl, fun f hf => ?_, hreached'⟩
  rw [Turn.any_reaches_concat, Bool.or_eq_true, ← hreaches f hf, decide_eq_true_iff]
  omega

/-- A turn follows its rules from where the strategy stands, and ends where the next turn can go on. -/
theorem enters_turn (h : Turn.Rests u turns n p a) (hpos : 0 < n) (hlast : u.lastFrame = n) (hsize : u.steps.size = n) :
    Enters (σ := σ) (Turn.rules u turns ⟨n, a, loopFree, []⟩) (turn limits r u loopFree p a)
      (Turn.account turns a) fun o l => o.1 = none → ∀ log, l = (Turn.account turns a).enterAll log →
        Turn.Rests u (turns ++ [⟨n, a, loopFree, log⟩]) n o.2 a := by
  cases a with
  | bmc => exact enters_search h hlast
  | kInduction => exact (enters_induction h hlast hsize).imp fun _ _ ho _ => ho
  | imc =>
      subst hlast
      apply (Interpolation.enters_turn hpos hsize h).imp
      intro o l ho _ log hl
      obtain ⟨received, hclear⟩ := ho
      rw [Turn.Rests, Turn.account_concat_self, ← hl, hclear.received]
      exact hclear

/-- The state of a run after `n` steps and the turns `done` of the schedule. -/
structure Resting (schedule : Schedule) (done : List (Nat × Strategy)) (n : Nat) (turns : List Turn) (c : Checker σ) :
    Prop where
  accounted : Accounted schedule c.unrolling turns c.transcript.toList
  keys : turns.map Turn.key = done
  asked : c.asked = turns.length
  clocks : c.unrolling.clocks.size = n + 1
  steps : c.unrolling.steps.size = n
  rests : ∀ a m, c.team.get? a = some m → Turn.Rests c.unrolling turns n m.progress a

/-- All exchanges of a run are accounted for. -/
def Settles {ε : Type} (schedule : Schedule) (_ : ε) (c : Checker σ) : Prop :=
  ∃ turns, Accounted schedule c.unrolling turns c.transcript.toList

/-- An iteration settles the property, or leaves the run between turns. -/
def Goes (schedule : Schedule) (done : List (Nat × Strategy)) (n : Nat) : Option (Verdict S A) → Checker σ → Prop
  | some v, c => Settles schedule v c
  | none, c => ∃ turns, Resting schedule done n turns c

omit [Solver σ] in
theorem lastFrame_of_resting (h : Resting schedule done n turns c) : c.unrolling.lastFrame = n := by
  rw [Unrolling.lastFrame, h.clocks, Nat.add_sub_cancel]

omit [Solver σ] in
theorem extend_resting (h : Resting schedule done n turns c) :
    Meets extend c (fun _ => Resting schedule done (n + 1) turns) (Settles schedule) := by
  have hrun : extend.run.run c = _ := run_extend
  have hwithin := Unrolling.Within.extend c.unrolling
  have hsizes : ∀ u, c.unrolling.extend = (.ok (), u) → u.clocks.size = n + 2 ∧ u.steps.size = n + 1 := by
    intro u hu
    obtain ⟨k, e, d, -, -, -, rfl⟩ := Unrolling.of_extend_eq_ok hu
    simp [h.clocks, h.steps]
  rcases hext : c.unrolling.extend with ⟨f | _, u⟩ <;> rw [hext] at hrun hwithin
  · exact meets_of_run_error hrun ⟨turns, h.accounted.within hwithin⟩
  · obtain ⟨hclocks, hsteps⟩ := hsizes u hext
    exact meets_of_run_ok hrun ⟨h.accounted.within hwithin, h.keys, h.asked, hclocks, hsteps,
      fun a m hm => (h.rests a m hm).within hwithin⟩

theorem consult_resting (h : Resting schedule done n turns c) (hpos : 0 < n)
    (hagenda : done ++ [(n, a)] <+: schedule.agenda n) :
    Meets (consult limits schedule r n a) c (Goes (S := S) (A := A) schedule (done ++ [(n, a)]) n)
      (Settles schedule) := by
  rw [consult]
  apply meets_summon.bind
  intro o c₁ hc₁
  obtain ⟨rfl, rfl⟩ := hc₁
  cases hm : c.team.get? a with
  | none => exact ⟨turns, h.accounted⟩
  | some m =>
      simp only [meets_bind, meets_askLoopFree, meets_get, meets_pure]
      rw [meets_perform]
      have hkeys : ∀ log, turns.map Turn.key ++ [(Turn.mk n a (schedule.loopFree c.asked) log).key] <+:
          schedule.agenda n := by
        intro log
        rw [h.keys]
        exact hagenda
      have haccounted : ∀ log : Array Exchange,
          (Turn.rules c.unrolling turns ⟨n, a, schedule.loopFree c.asked, []⟩).Cover (Turn.account turns a)
            log.toList →
          Accounted schedule c.unrolling (turns ++ [⟨n, a, schedule.loopFree c.asked, log.toList⟩])
            (c.transcript ++ log.map fun e => (a, e)).toList := by
        intro log hcover
        have hself : Turn.rules c.unrolling turns ⟨n, a, schedule.loopFree c.asked, log.toList⟩ =
            Turn.rules c.unrolling turns ⟨n, a, schedule.loopFree c.asked, []⟩ := Turn.rules_self
        rw [← hself] at hcover
        rw [Array.toList_append, Array.toList_map]
        exact h.accounted.concat (hkeys _) (congrArg _ h.asked) hcover
      apply (enters_turn (h.rests a m hm) hpos (lastFrame_of_resting h) h.steps).meets.mono
      · intro o ses ho
        cases hout : o.1 with
        | some outcome => exact ⟨_, haccounted _ ho.1⟩
        | none =>
            refine ⟨_, haccounted _ ho.1, ?_, ?_, h.clocks, h.steps, ?_⟩
            · rw [List.map_append, h.keys]
              rfl
            · rw [List.length_append, ← h.asked]
              rfl
            · intro b m' hm'
              rw [Team.put_take, Team.get?_put] at hm'
              split at hm'
              · next heq =>
                  cases hm'
                  rw [heq]
                  exact ho.2 hout _ rfl
              · next hne => exact (h.rests b m' hm').concat_of_ne hne
      · intro e ses hcover
        exact ⟨_, haccounted _ hcover⟩

theorem inTurn_resting {rest : Run σ (Option (Verdict S A))} {done' : List (Nat × Strategy)}
    (h : Resting schedule done n turns c) (hpos : 0 < n) (hagenda : done ++ schedule.turnOf n a <+: schedule.agenda n)
    (hrest : ∀ turns c, Resting schedule (done ++ schedule.turnOf n a) n turns c →
      Meets rest c (Goes schedule done' n) (Settles schedule)) :
    Meets (inTurn limits schedule r n a rest) c (Goes schedule done' n) (Settles schedule) := by
  rw [inTurn]
  by_cases ha : schedule.has n a = true
  · rw [Schedule.turnOf, if_pos ha] at hagenda hrest
    rw [if_pos ha]
    apply (consult_resting h hpos hagenda).bind
    intro v c' hc'
    cases v with
    | some v => exact hc'
    | none =>
        obtain ⟨turns', hc'⟩ := hc'
        exact hrest turns' c' hc'
  · rw [Schedule.turnOf, if_neg ha, List.append_nil] at hrest
    rw [if_neg ha]
    exact hrest turns c h

theorem iterate_resting (h : Resting schedule (schedule.agenda n) n turns c) :
    Meets (iterate limits schedule r (n + 1)) c (Goes (S := S) (A := A) schedule (schedule.agenda (n + 1)) (n + 1))
      (Settles schedule) := by
  have hagenda : schedule.agenda (n + 1) = schedule.agenda n ++ schedule.turnOf (n + 1) .bmc ++
      schedule.turnOf (n + 1) .kInduction ++ schedule.turnOf (n + 1) .imc := by
    simp [Schedule.agenda]
  have hpos : 0 < n + 1 := n.succ_pos
  rw [iterate_eq]
  apply (extend_resting h).bind
  intro _ c₀ h₀
  apply inTurn_resting h₀ hpos
  · rw [hagenda, List.append_assoc]
    exact List.prefix_append _ _
  intro turns₁ c₁ h₁
  split
  · exact ⟨turns₁, h₁.accounted⟩
  apply inTurn_resting h₁ hpos
  · rw [hagenda]
    exact List.prefix_append _ _
  intro turns₂ c₂ h₂
  apply inTurn_resting h₂ hpos
  · rw [hagenda]
  intro turns₃ c₃ h₃
  exact ⟨turns₃, hagenda ▸ h₃⟩

omit [Solver σ] in
/-- A run starts before all turns. -/
theorem resting_of_ofSystem {bmc kInduction imc : Option (Supplied σ)} (h : ofSystem s bmc kInduction imc = .ok c) :
    Resting schedule [] 0 [] c := by
  obtain ⟨hu, htranscript, hteam⟩ := of_ofSystem_eq_ok h
  have hasked : c.asked = 0 := by
    unfold ofSystem at h
    cases h₁ : shared bmc kInduction <;> cases h₂ : shared bmc imc <;> cases h₃ : shared kInduction imc <;>
      cases hu : Unrolling.ofSystem s <;> simp only [h₁, h₂, h₃, hu] at h <;> cases h
    rfl
  obtain ⟨e, -, hu⟩ := Unrolling.of_ofSystem_eq_ok hu
  refine ⟨?_, rfl, hasked, by rw [hu]; rfl, by rw [hu]; rfl, fun a m hm => ?_⟩
  · rw [htranscript]
    exact accounted_nil
  · rw [hteam, Option.map_eq_some_iff] at hm
    obtain ⟨x, -, rfl⟩ := hm
    exact Turn.rests_nil a

/-- Whatever the schedule, the answers about loop-free paths and the solvers: in each turn of a run, each question is asked
in the context that the rules of the strategy say, with all constraints and no others. -/
theorem exists_accounted_of_run {bmc kInduction imc : Option (Supplied σ)}
    {result : Except (Halt CheckError) (Verdict S A)} {c' : Checker σ} (h : ofSystem s bmc kInduction imc = .ok c)
    (hrun : (run limits schedule r).run.run c = (result, c')) :
    ∃ turns, Accounted schedule c'.unrolling turns c'.transcript.toList := by
  have hmeets : Meets (run limits schedule r) c (Settles schedule) (Settles schedule) := by
    apply meets_runFrom fun n c => ∃ turns, Resting schedule (schedule.agenda n) n turns c
    · intro n c hc _
      obtain ⟨turns, hc⟩ := hc
      exact ⟨turns, hc.accounted⟩
    · intro n c hc _
      obtain ⟨turns, hc⟩ := hc
      apply (iterate_resting hc).imp
      intro v c' hc'
      cases v with
      | some v | none => exact hc'
    · intro c hc
      obtain ⟨turns, hc⟩ := hc
      exact ⟨turns, hc.accounted⟩
    · exact ⟨[], resting_of_ofSystem h⟩
  cases result with
  | ok v => exact hmeets.of_run_ok hrun
  | error e => exact hmeets.of_run_error hrun

/-- Interpolation comes only in the second iteration. -/
def lateInterpolation : Schedule where
  imc i := i = 2

/-- A solver that gives these answers to its checks, and has an interpolant that covers all states. -/
def answering (statuses : List Status) : Script where
  statuses := statuses
  interpolants := [.bool true]

/-- A run through two iterations, in which all three strategies have their turns. -/
theorem exists_accounted_of_run_latch : ∃ c v c',
    ofSystem latch (some ⟨0, answering [.unsat, .sat, .unsat, .sat, .unsat]⟩) (some ⟨1, answering [.sat, .sat]⟩)
      (some ⟨2, answering [.unsat, .unsat, .sat, .unsat, .unsat]⟩) = .ok c ∧
    (run ⟨2, 1⟩ lateInterpolation .explicit).run.run c = (.ok v, c') ∧ v.strategy? = some .imc ∧ v.iteration = 2 ∧
    ∃ turns, Accounted lateInterpolation c'.unrolling turns c'.transcript.toList := by
  have hstart : ∃ c, ofSystem latch (some ⟨0, answering [.unsat, .sat, .unsat, .sat, .unsat]⟩)
      (some ⟨1, answering [.sat, .sat]⟩) (some ⟨2, answering [.unsat, .unsat, .sat, .unsat, .unsat]⟩) = .ok c ∧
      Meets (run ⟨2, 1⟩ lateInterpolation .explicit) c (fun v _ => v.strategy? = some .imc ∧ v.iteration = 2)
        fun _ _ => False :=
    ⟨_, rfl, by decide +kernel⟩
  obtain ⟨c, hc, hmeets⟩ := hstart
  obtain ⟨v, c', hrun, hstrategy, hiteration⟩ := hmeets.exists_ok
  exact ⟨c, v, c', hc, hrun, hstrategy, hiteration, exists_accounted_of_run hc hrun⟩

end Checker

end Invariance
