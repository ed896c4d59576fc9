import Invariance.Engine.Trace
import Invariance.Formula.Timed
import Invariance.Solver.Interface

/-! What a run ends with: a verdict on the property, or an error. -/

namespace Invariance

/-- The ways to a verdict, in the order in which they take their turns. -/
inductive Strategy where
  /-- Bounded search for a counterexample, frame by frame. -/
  | bmc
  /-- Induction over as many steps as are unrolled. -/
  | kInduction
  /-- Interpolation towards an inductive set of states. -/
  | imc
  deriving DecidableEq

def Strategy.text : Strategy → String
  | .bmc => "BMC"
  | .kInduction => "k-induction"
  | .imc => "IMC"

/-- What one turn of a strategy can settle. -/
inductive Outcome (S A : Type) where
  | safe
  | violated (trace : Trace S A)
  | unknown

/-- The end of a run, with the iteration and the strategy that brought it. -/
inductive Verdict (S A : Type) where
  | safe (strategy : Strategy) (iteration : Nat)
  | violated (strategy : Strategy) (iteration : Nat) (trace : Trace S A)
  /-- The run gave up, or a solver left a check undecided. -/
  | unknown (iteration : Nat)

namespace Verdict

variable {S A : Type}

/-- The verdict that an outcome leads to. -/
def ofOutcome (strategy : Strategy) (iteration : Nat) : Outcome S A → Verdict S A
  | .safe => .safe strategy iteration
  | .violated t => .violated strategy iteration t
  | .unknown => .unknown iteration

def isSafe : Verdict S A → Bool
  | .safe _ _ => true
  | _ => false

def isViolated : Verdict S A → Bool
  | .violated _ _ _ => true
  | _ => false

def isUnknown : Verdict S A → Bool
  | .unknown _ => true
  | _ => false

def iteration : Verdict S A → Nat
  | .safe _ i | .violated _ i _ | .unknown i => i

def strategy? : Verdict S A → Option Strategy
  | .safe s _ | .violated s _ _ => some s
  | .unknown _ => none

def trace? : Verdict S A → Option (Trace S A)
  | .violated _ _ t => some t
  | _ => none

def text : Verdict S A → String
  | .safe s i => "SAFE (proven by " ++ s.text ++ " in iteration " ++ toString i ++ ")"
  | .violated s i t =>
    "UNSAFE (counterexample of length " ++ toString t.length ++ " found by " ++ s.text ++
      " in iteration " ++ toString i ++ ")"
  | .unknown i => "UNKNOWN (gave up after iteration " ++ toString i ++ ")"

end Verdict

/-- Why a run ends without a verdict. -/
inductive CheckError where
  /-- Two strategies were given one solver. -/
  | sharedSolver (first second : Strategy)
  | missingSolver (strategy : Strategy) (iteration : Nat)
  /-- Induction relies on the search of the same iteration for its base case. -/
  | inductionWithoutBmc (iteration : Nat)
  | solver (e : SolverError)
  | frame (e : FrameError)

def CheckError.message : CheckError → String
  | .sharedSolver s t => "solver#_ is used by both " ++ s.text ++ " and " ++ t.text
  | .missingSolver s i => s.text ++ " is enabled in iteration " ++ toString i ++ ", but has no solver"
  | .inductionWithoutBmc i =>
    "k-induction is enabled in iteration " ++ toString i ++ " without BMC establishing the base case"
  | .solver e => e.message
  | .frame e => e.message

end Invariance
