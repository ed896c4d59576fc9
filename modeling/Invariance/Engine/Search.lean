import Invariance.Engine.Session
import Invariance.Engine.Unrolling

/-!
Bounded search. The context of the solver grows by one step for each frame, and each frame is examined for a
violation in a scope of its own. On loop-free paths, the search is complete once no path reaches the frame.
-/

namespace Invariance.Search

variable {σ S A : Type} [Solver σ]

/-- Asserts what leads to a frame: the initial states, or the step from the frame before it. -/
def reach (u : Unrolling) : Nat → Talk σ Unit
  | 0 => Talk.assert none u.init
  | frame + 1 => do Talk.assert none (← Talk.ofFault (u.stepAt frame))

/-- Asserts that the frame differs from all earlier ones. Is there no such path any more? -/
def isBeyondPaths (u : Unrolling) (frame : Nat) : Talk σ Bool := do
  Talk.assertAll none (← Talk.ofFault (u.distinctFromEarlier frame))
  return (← Talk.check) = .unsat

/-- The counterexample that ends in a frame, from a model of the path to it. -/
def counterexample (u : Unrolling) (r : Reconstruction S A) (frame : Nat) : Talk σ (Trace S A) := do
  let m ← Talk.model
  match u.trace m frame r with
  | .ok t => return t
  | .error h => throw (h.map .frame)

/-- Looks for a violation in a frame that the context leads to. -/
def violation (u : Unrolling) (r : Reconstruction S A) (frame : Nat) :
    Talk σ (Option (Outcome S A)) := do
  Talk.push
  Talk.assert none (← Talk.ofFault (u.violationAt frame))
  let outcome ← match ← Talk.check with
    | .sat => do pure (some (.violated (← counterexample u r frame)))
    | .unknown => pure (some .unknown)
    | .unsat => pure none
  Talk.pop
  return outcome

/-- Examines a frame, the one before it being in the context. -/
def examine (u : Unrolling) (loopFree : Bool) (r : Reconstruction S A) (frame : Nat) :
    Talk σ (Option (Outcome S A)) := do
  reach u frame
  if loopFree && 0 < frame then
    if ← isBeyondPaths u frame then return some .safe
  violation u r frame

/-- Examines `n` frames from the given one on, until one settles the property. The second result is the next
frame to examine. -/
def examineFrom (u : Unrolling) (loopFree : Bool) (r : Reconstruction S A) :
    (n frame : Nat) → Talk σ (Option (Outcome S A) × Nat)
  | 0, frame => return (none, frame)
  | n + 1, frame => do
    match ← examine u loopFree r frame with
    | some o => return (some o, frame)
    | none => examineFrom u loopFree r n (frame + 1)

/-- One turn: examines all frames not examined yet, of which `frame` is the first. -/
def turn (u : Unrolling) (loopFree : Bool) (r : Reconstruction S A) (frame : Nat) :
    Talk σ (Option (Outcome S A) × Nat) :=
  examineFrom u loopFree r (u.lastFrame + 1 - frame) frame

end Invariance.Search
