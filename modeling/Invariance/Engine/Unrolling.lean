import Invariance.TransitionSystem
import Invariance.Formula.Timed
import Invariance.Engine.Trace

/-!
The unrolling of a system: a clock for each frame, and the transition between each two frames. Both only grow.
-/

namespace Invariance

/-- Frames and steps of a system. Step `f` leads from frame `f` to the next. -/
structure Unrolling where
  system : TransitionSystem
  vars : List Variable
  clocks : Array Clock
  steps : Array Formula
  /-- The initial states, at the first frame. -/
  init : Formula

namespace Unrolling

/-- The first frame alone. -/
def ofSystem (system : TransitionSystem) : Except Fault Unrolling :=
  return {
    system
    vars := system.vars.elements
    clocks := #[.zero]
    steps := #[]
    init := ← system.init.unfold .zero }

/-- The number of the newest frame. -/
def lastFrame (u : Unrolling) : Nat :=
  u.clocks.size - 1

/-- The clock of a frame. -/
def clockAt (u : Unrolling) (frame : Nat) : Except Fault Clock :=
  match u.clocks[frame]? with
  | some c => .ok c
  | none => .error .outOfBounds

/-- The step from a frame. -/
def stepAt (u : Unrolling) (frame : Nat) : Except Fault Formula :=
  match u.steps[frame]? with
  | some e => .ok e
  | none => .error .outOfBounds

/-- The step from the newest frame. -/
def nextStep (u : Unrolling) : Except Fault Formula := do
  u.system.trans.unfold (← u.clockAt u.lastFrame)

/-- The clock of the frame after the newest one. -/
def nextClock (u : Unrolling) : Except Fault Clock := do
  (← u.clockAt u.lastFrame).advance u.system.offset

/-- Adds the step from the newest frame, and then the frame that it leads to. -/
def extend (u : Unrolling) : Except Fault Unit × Unrolling :=
  match u.nextStep with
  | .error f => (.error f, u)
  | .ok step =>
    let u := { u with steps := u.steps.push step }
    match u.nextClock with
    | .error f => (.error f, u)
    | .ok c => (.ok (), { u with clocks := u.clocks.push c })

/-- The property in a frame. -/
def propAt (u : Unrolling) (frame : Nat) : Except Fault Formula := do
  u.system.prop.unfold (← u.clockAt frame)

/-- A violation of the property in a frame. -/
def violationAt (u : Unrolling) (frame : Nat) : Except Fault Formula :=
  return (← u.propAt frame).mkNot

/-- Every variable has the same value in both frames. -/
def allSame (u : Unrolling) (i j : Nat) : Except Fault Formula := do
  let c ← u.clockAt i
  let d ← u.clockAt j
  return .mkAnd (u.vars.map fun x => .eq (.sym ⟨x, c.get x⟩) (.sym ⟨x, d.get x⟩))

/-- The frame differs from each earlier one, as far as their clocks tell them apart. -/
def distinctFromEarlier (u : Unrolling) (frame : Nat) : Except Fault (List Formula) :=
  (List.range frame).filterMapM fun i => do
    if (← u.clockAt i) = (← u.clockAt frame) then return none
    return some (← u.allSame i frame).mkNot

/-- The path through the frames up to the given one, as a model has it. -/
def trace {S A : Type} (u : Unrolling) (m : Model) (frame : Nat) (r : Reconstruction S A) :
    Except (Halt FrameError) (Trace S A) := do
  let _ ← Halt.ofFault (u.clockAt frame)
  match ← Halt.ofError ((u.clocks.toList.take (frame + 1)).mapM fun c => m.stateAt c u.vars) with
  | [] => throw (.fault .emptyTrace)
  | first :: rest => return r.trace first rest

end Unrolling

end Invariance
