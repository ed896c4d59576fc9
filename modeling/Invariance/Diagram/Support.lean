import Invariance.Diagram.Manager
import Invariance.SortedMap
import Std.Data.HashSet.Basic

/-!
The part of the table below an edge, and the variables decided there. A node is collected after all nodes below
it, so that what is collected is closed at every moment and each node is met once.
-/

namespace Invariance.Diagram.Manager

/-- Adds the node `i` and the nodes below it to those collected, with at most the given number of decisions one
below the other. -/
def collectWithin (m : Manager) : Nat → Std.HashSet Nat → Nat → Except Fault (Std.HashSet Nat)
  | 0, _, _ => throw .exhausted
  | n + 1, done, i => do
    if done.contains i then return done
    if i = Edge.one.index then return done.insert i
    let node ← m.node i
    let done ← m.collectWithin n done node.low.index
    let done ← m.collectWithin n done node.high.index
    return done.insert i

/-- The numbers of the nodes at and below an edge. -/
def reachable (m : Manager) (e : Edge) : Except Fault (Std.HashSet Nat) :=
  m.collectWithin (e.index + 1) ∅ e.index

/-- The variables decided at or below an edge. -/
def support (m : Manager) (e : Edge) : Except Fault (SortedSet Nat) := do
  let inner := (← m.reachable e).toList.filter (· ≠ Edge.one.index)
  let vars ← inner.mapM fun i => return (← m.node i).var
  return .ofList (Std.HashSet.ofList vars).toList

/-- The number of nodes at and below an edge. -/
def sizeOf (m : Manager) (e : Edge) : Except Fault Nat :=
  return (← m.reachable e).size

end Invariance.Diagram.Manager
