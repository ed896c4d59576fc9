import Invariance.Engine.Session
import Invariance.Engine.Unrolling

/-!
Induction. The context of the solver is a path of good states from anywhere; the property holds in general
if no such path leads to a violation, provided that search finds none within the length of the path.
-/

namespace Invariance.Induction

variable {σ S A : Type} [Solver σ]

/-- Asserts that a frame is good and that its step is taken, to a new state on loop-free paths. -/
def prolong (u : Unrolling) (loopFree : Bool) (frame : Nat) : Talk σ Unit := do
  Talk.assert none (← Talk.ofFault (u.propAt frame))
  Talk.assert none (← Talk.ofFault (u.stepAt frame))
  if loopFree then Talk.assertAll none (← Talk.ofFault (u.distinctFromEarlier (frame + 1)))

/-- Can the path of good states end in a violation? -/
def conclude (u : Unrolling) : Talk σ Status := do
  Talk.push
  Talk.assert none (← Talk.ofFault (u.violationAt u.lastFrame))
  let status ← Talk.check
  Talk.pop
  return status

/-- One turn: prolongs the path by the steps not taken yet, of which `synced` is the first, and concludes. -/
def turn (u : Unrolling) (loopFree : Bool) (synced : Nat) : Talk σ (Option (Outcome S A) × Nat) := do
  (List.range' synced (u.steps.size - synced)).forM (prolong u loopFree)
  match ← conclude u with
  | .unsat => return (some .safe, max synced u.steps.size)
  | .sat | .unknown => return (none, max synced u.steps.size)

end Invariance.Induction
