import Invariance.Diagram.Choice
import Invariance.SortedMap
import Std.Data.TreeMap.Basic

/-!
Existential quantification: the function that is true where some change of the given variables makes the
function true. Nothing is left to do below the deepest of these variables, and the outcome for each edge is
computed once.
-/

namespace Invariance.Diagram

namespace Build

/-- Quantifies over `vars`, of which `deepest` is the largest, with at most the given number of decisions one
below the other. The map holds the outcomes so far. -/
def existsWithin (vars : SortedSet Nat) (deepest : Nat) :
    Nat → Std.TreeMap Edge Edge → Edge → Build (Edge × Std.TreeMap Edge Edge)
  | 0, _, _ => throw .exhausted
  | n + 1, done, e => do
    if e.isConst then return (e, done)
    let v ← ask (·.var e)
    if deepest < v then return (e, done)
    if let some r := done[e]? then return (r, done)
    let (low, done) ← existsWithin vars deepest n done (← ask (·.low e))
    let (high, done) ← existsWithin vars deepest n done (← ask (·.high e))
    let r ← if vars.contains v then or low high else mkNode v low high
    return (r, done.insert e r)

/-- The function that is true where changing variables among `vars` can make `e` true. -/
def project (e : Edge) (vars : SortedSet Nat) : Build Edge :=
  match vars.elements.getLast? with
  | none => return e
  | some deepest => return (← existsWithin vars deepest (e.index + 1) {} e).1

end Build

end Invariance.Diagram
