import Invariance.Diagram.Manager
import Std.Data.TreeMap.Basic

/-! Satisfying paths of a diagram, and the number of assignments that satisfy it. -/

namespace Invariance.Diagram

/-- The literal for the complement of `l`, which the least signed number does not have. -/
def complementLiteral (l : Int) : Except Fault Int :=
  if l = -Word.signBound32 then .error .overflow else .ok (-l)

namespace Manager

/-- The literals on a path to true of at most `n` decisions, false being tried first for each variable. -/
def pathWithin (m : Manager) : Nat → Edge → Except Fault (List Int)
  | 0, _ => throw .exhausted
  | n + 1, e => do
    if e = .one then return []
    let l := Word.signed32 (← m.var e)
    let low ← m.low e
    if low = .zero then return l :: (← m.pathWithin n (← m.high e))
    let l ← complementLiteral l
    return l :: (← m.pathWithin n low)

/-- The literals that make a function true, false being preferred for each variable from the root down. -/
def onePath (m : Manager) (e : Edge) : Except Fault (Option (List Int)) := do
  if e = .zero then return none
  return some (← m.pathWithin (e.index + 1) e)

/-- Counts, out of `total` assignments, those that satisfy a function with at most the given number of
decisions one below the other. Each half of the assignments counts for half below a decision. The map holds
the counts of nodes so far. -/
def countWithin (m : Manager) (total : Nat) :
    Nat → Std.TreeMap Nat Nat → Edge → Except Fault (Nat × Std.TreeMap Nat Nat)
  | 0, _, _ => throw .exhausted
  | n + 1, done, e => do
    if e = .zero then return (0, done)
    if e = .one then return (total, done)
    let (regular, done) ← match done[e.index]? with
      | some count => pure (count, done)
      | none => do
        let node ← m.node e.index
        let (low, done) ← m.countWithin total n done node.low
        let (high, done) ← m.countWithin total n done node.high
        let count := (low + high) / 2
        pure (count, done.insert e.index count)
    return (if e.negated then total - regular else regular, done)

/-- The number of assignments to `n` variables that satisfy a function. -/
def satCount (m : Manager) (e : Edge) (n : Nat) : Except Fault Nat :=
  return (← m.countWithin (Nat.pow 2 n) (e.index + 1) {} e).1

end Manager

end Invariance.Diagram
