import Invariance.Engine.Search

/-!
Interpolation. The path to the newest frame is cut after its first step: the side `a` holds the initial states
and the first step, the side `b` the other steps and a violation. While no path of this length leads to a
violation, the interpolant at the cut, moved back by a step, contains all states reached in one step. It takes
the place of the initial states, until it brings no state that was not covered before, which proves the
property, or until it leads to a violation, which may be spurious.
-/

namespace Invariance.Interpolation

variable {σ S A : Type} [Solver σ]

/-- Looks for a violation in a frame along the path from the initial states. -/
def violation (u : Unrolling) (r : Reconstruction S A) (frame : Nat) :
    Talk σ (Option (Option (Outcome S A))) := do
  Talk.push
  Talk.assert none u.init
  Talk.assertAll none (u.steps.toList.take frame)
  Talk.assert none (← Talk.ofFault (u.violationAt frame))
  let outcome ← match ← Talk.check with
    | .sat => do pure (some (some (.violated (← Search.counterexample u r frame))))
    | .unknown => pure (some none)
    | .unsat => pure none
  Talk.pop
  return outcome

/-- Looks for violations in `n` frames from the given one on. The second result is the first frame not known
to be good. -/
def violationsFrom (u : Unrolling) (r : Reconstruction S A) :
    (n frame : Nat) → Talk σ (Option (Option (Outcome S A)) × Nat)
  | 0, frame => return (none, frame)
  | n + 1, frame => do
    match ← violation u r frame with
    | some o => return (some o, frame)
    | none => violationsFrom u r n (frame + 1)

/-- Opens a scope with the two sides of the path from the states `first`, apart from the violation. -/
def split (u : Unrolling) (first : Formula) : Talk σ Unit := do
  Talk.push
  Talk.assert (some .a) first
  Talk.assert (some .a) (← Talk.ofFault (u.stepAt 0))
  Talk.assertAll (some .b) (u.steps.toList.drop 1)

/-- Puts a violation in the newest frame on the side `b`. -/
def assertViolation (u : Unrolling) : Talk σ Unit := do
  Talk.assert (some .b) (← Talk.ofFault (u.violationAt u.lastFrame))

/-- Is there no loop-free path to the newest frame? -/
def isBeyondPaths (u : Unrolling) : Talk σ Bool := do
  Talk.push
  Talk.assertAll none (← Talk.ofFault (u.distinctFromEarlier u.lastFrame))
  let status ← Talk.check
  Talk.pop
  return status = .unsat

/-- An interpolant at the cut, as a set of states at the first frame. -/
def image (u : Unrolling) : Talk σ Formula := do
  let e ← Talk.interpolant .forward
  match e.fold (← Talk.ofFault (u.clockAt 1)) with
  | .error e => throw (.error (.frame e))
  | .ok e => Talk.ofFault (e.unfold (← Talk.ofFault (u.clockAt 0)))

/-- Are all states of `new` among those of `covered`? -/
def isCovered (new covered : Formula) : Talk σ Status := do
  Talk.push
  Talk.assert (some .a) new
  Talk.assert (some .a) covered.mkNot
  let status ← Talk.check
  Talk.pop
  return status

/-- Covers more and more states by interpolants, the scope of the last path being open and its violation
refuted, in at most the given number of rounds. -/
def cover (u : Unrolling) : (rounds : Nat) → (covered : Formula) → Talk σ (Option (Outcome S A))
  | 0, _ => throw (.fault .exhausted)
  | n + 1, covered => do
    let new ← image u
    Talk.pop
    match ← isCovered new covered with
    | .unsat => return some .safe
    | .unknown => return none
    | .sat =>
      split u new
      assertViolation u
      match ← Talk.check with
      | .unsat => cover u n (.mkOr [covered, new])
      | .sat | .unknown => do
        Talk.pop
        return none

/-- Examines the path to the newest frame, and covers the states reached if it leads to no violation. The
second result is the first frame not known to be good. -/
def refine (u : Unrolling) (rounds : Nat) (loopFree : Bool) (r : Reconstruction S A) (checked : Nat) :
    Talk σ (Option (Outcome S A) × Nat) := do
  split u u.init
  if loopFree then
    if ← isBeyondPaths u then
      Talk.pop
      return (some .safe, checked)
  assertViolation u
  match ← Talk.check with
  | .sat =>
    let t ← Search.counterexample u r u.lastFrame
    Talk.pop
    return (some (.violated t), checked)
  | .unknown =>
    Talk.pop
    return (none, checked)
  | .unsat => return (← cover u rounds u.init, u.lastFrame + 1)

/-- One turn: examines the frames that were skipped, of which `checked` is the first, then the newest one. -/
def turn (u : Unrolling) (rounds : Nat) (loopFree : Bool) (r : Reconstruction S A) (checked : Nat) :
    Talk σ (Option (Outcome S A) × Nat) := do
  match ← violationsFrom u r (u.lastFrame - checked) checked with
  | (some outcome, checked) => return (outcome, checked)
  | (none, checked) =>
    Talk.push
    Talk.andFinally (refine u rounds loopFree r checked) Talk.pop

end Invariance.Interpolation
