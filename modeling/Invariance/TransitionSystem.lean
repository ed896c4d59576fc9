import Invariance.Formula.Shape
import Invariance.Clock

/-! Transition systems given by formulas over the present and the next state. -/

namespace Invariance

/-- Initial states, steps from the present to the next state, and the states that should be the only ones
reached. One step advances the generation of each variable by its offset. -/
structure TransitionSystem where
  init : Formula
  trans : Formula
  prop : Formula
  offset : Clock := .all 1

/-- The variables of the three formulas. -/
def TransitionSystem.vars (s : TransitionSystem) : SortedSet Variable :=
  .ofList (s.init.vars.elements ++ s.trans.vars.elements ++ s.prop.vars.elements)

end Invariance
