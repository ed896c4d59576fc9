import Invariance.Engine.Induction
import Invariance.Engine.Interpolation
import Invariance.Engine.Schedule
import Invariance.Engine.Search

/-!
The checker. Each iteration unrolls one more step and gives the scheduled strategies their turns, until one of
them settles the property or the schedule gives up.
-/

namespace Invariance

/-- A solver of known identity: two of the same identity are one solver. -/
structure Supplied (σ : Type) where
  id : Nat
  solver : σ

/-- The solver of a strategy, and how many frames or steps the strategy has dealt with. -/
structure Member (σ : Type) where
  solver : σ
  progress : Nat := 0

/-- The strategies that have a solver. -/
structure Team (σ : Type) where
  bmc : Option (Member σ)
  kInduction : Option (Member σ)
  imc : Option (Member σ)

namespace Team

variable {σ : Type}

/-- The member for a strategy, if there is one, and the team without it. -/
def take : Team σ → Strategy → Option (Member σ) × Team σ
  | ⟨bmc, kInduction, imc⟩, .bmc => (bmc, ⟨none, kInduction, imc⟩)
  | ⟨bmc, kInduction, imc⟩, .kInduction => (kInduction, ⟨bmc, none, imc⟩)
  | ⟨bmc, kInduction, imc⟩, .imc => (imc, ⟨bmc, kInduction, none⟩)

/-- The team with a member for a strategy. -/
def put (t : Team σ) (m : Member σ) : Strategy → Team σ
  | .bmc => { t with bmc := some m }
  | .kInduction => { t with kInduction := some m }
  | .imc => { t with imc := some m }

end Team

/-- Bounds on a run: on its iterations, and on the interpolants of a turn. -/
structure Limits where
  iterations : Nat
  rounds : Nat

/-- A run: what is unrolled, who takes part, how often the schedule was asked about loop-free paths, and all
exchanges in order. -/
structure Checker (σ : Type) where
  unrolling : Unrolling
  team : Team σ
  asked : Nat := 0
  transcript : Array (Strategy × Exchange) := #[]

/-- Work of the checker. An error leaves the state as it was when the error occurred. -/
abbrev Run (σ : Type) := ExceptT (Halt CheckError) (StateM (Checker σ))

namespace Checker

variable {σ S A : Type}

/-- Were both strategies given the same solver? -/
def shared (a b : Option (Supplied σ)) : Bool :=
  match a, b with
  | some a, some b => a.id == b.id
  | _, _ => false

/-- A checker at the start of a run. No two strategies may use one solver. -/
def ofSystem (system : TransitionSystem) (bmc kInduction imc : Option (Supplied σ)) :
    Except (Halt CheckError) (Checker σ) := do
  if shared bmc kInduction then throw (.error (.sharedSolver .bmc .kInduction))
  if shared bmc imc then throw (.error (.sharedSolver .bmc .imc))
  if shared kInduction imc then throw (.error (.sharedSolver .kInduction .imc))
  return {
    unrolling := ← Halt.ofFault (Unrolling.ofSystem system)
    team := {
      bmc := bmc.map fun s => { solver := s.solver }
      kInduction := kInduction.map fun s => { solver := s.solver }
      imc := imc.map fun s => { solver := s.solver } } }

/-- Unrolls one more step. -/
def extend : Run σ Unit :=
  ExceptT.mk fun c =>
    match c.unrolling.extend with
    | (.ok (), unrolling) => (.ok (), { c with unrolling })
    | (.error f, unrolling) => (.error (.fault f), { c with unrolling })

/-- The next answer to the question whether paths have to be loop-free. -/
def askLoopFree (schedule : Schedule) : Run σ Bool :=
  modifyGet fun c => (schedule.loopFree c.asked, { c with asked := c.asked + 1 })

variable [Solver σ]

/-- The turn of a strategy, by what it has dealt with. -/
def turn (limits : Limits) (r : Reconstruction S A) (u : Unrolling) (loopFree : Bool) (progress : Nat) :
    Strategy → Talk σ (Option (Outcome S A) × Nat)
  | .bmc => Search.turn u loopFree r progress
  | .kInduction => Induction.turn u loopFree progress
  | .imc => Interpolation.turn u limits.rounds loopFree r progress

/-- Calls a member out of the team, to which it returns after its turn. -/
def summon (strategy : Strategy) : Run σ (Option (Member σ)) :=
  modifyGet fun ⟨unrolling, team, asked, transcript⟩ =>
    match team.take strategy with
    | (member, team) => (member, ⟨unrolling, team, asked, transcript⟩)

/-- Lets a solver called out of the team have its turn, and enters its exchanges into the transcript. -/
def perform (strategy : Strategy) (solver : σ) (progress : Nat)
    (talk : Talk σ (Option (Outcome S A) × Nat)) : Run σ (Option (Outcome S A)) :=
  ExceptT.mk fun ⟨unrolling, team, asked, transcript⟩ =>
    match talk.run.run ⟨solver, #[]⟩ with
    | (result, ⟨solver, log⟩) =>
      let transcript := transcript ++ log.map fun e => (strategy, e)
      match result with
      | .ok (outcome, progress) =>
        (.ok outcome, ⟨unrolling, team.put ⟨solver, progress⟩ strategy, asked, transcript⟩)
      | .error h => (.error h, ⟨unrolling, team.put ⟨solver, progress⟩ strategy, asked, transcript⟩)

/-- The turn of a strategy in an iteration, for which it needs a solver. -/
def consult (limits : Limits) (schedule : Schedule) (r : Reconstruction S A) (iteration : Nat)
    (strategy : Strategy) : Run σ (Option (Verdict S A)) := do
  match ← summon strategy with
  | none => throw (.error (.missingSolver strategy iteration))
  | some ⟨solver, progress⟩ =>
    let loopFree ← askLoopFree schedule
    let u := (← get).unrolling
    let outcome ← perform strategy solver progress (turn limits r u loopFree progress strategy)
    return outcome.map (Verdict.ofOutcome strategy iteration)

/-- One iteration: a step more, then search, induction and interpolation, as far as they are scheduled.
Induction takes its base case from the search of the same iteration. -/
def iterate (limits : Limits) (schedule : Schedule) (r : Reconstruction S A) (iteration : Nat) :
    Run σ (Option (Verdict S A)) := do
  extend
  if schedule.bmc iteration then
    if let some v ← consult limits schedule r iteration .bmc then return some v
  if schedule.kInduction iteration then
    if !schedule.bmc iteration then throw (.error (.inductionWithoutBmc iteration))
    if let some v ← consult limits schedule r iteration .kInduction then return some v
  if schedule.imc iteration then
    if let some v ← consult limits schedule r iteration .imc then return some v
  return none

/-- Iterates until a verdict, `done` iterations being over and at most the given number to come. -/
def runFrom (limits : Limits) (schedule : Schedule) (r : Reconstruction S A) :
    (n done : Nat) → Run σ (Verdict S A)
  | 0, _ => throw (.fault .exhausted)
  | n + 1, done => do
    if schedule.givesUp done then return .unknown done
    match ← iterate limits schedule r (done + 1) with
    | some v => return v
    | none => runFrom limits schedule r n (done + 1)

/-- Runs the checker from its start. -/
def run (limits : Limits) (schedule : Schedule) (r : Reconstruction S A) : Run σ (Verdict S A) :=
  runFrom limits schedule r limits.iterations 0

end Checker

end Invariance
