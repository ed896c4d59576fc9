import Invariance.Bits.Allocation
import Invariance.Diagram.Manager
import Invariance.Formula.Basic
import Std.Data.TreeMap.Basic

/-!
Decision diagrams as formulas over the symbols whose bits they decide. The formula of a node is found once, and
takes its form from the children that are constant.
-/

namespace Invariance.Bits

open Diagram

/-- A diagram decides a variable that stands for no bit of a symbol. -/
structure ForeignVariable where
  var : Nat
  deriving DecidableEq

def ForeignVariable.message (v : ForeignVariable) : String :=
  "BDD variable x" ++ toString v.var ++ " does not belong to any symbol"

namespace Readback

/-- The formula of a single variable. -/
def literal (a : Allocation) (v : Nat) : Except (Halt ForeignVariable) Formula :=
  match a.owner? v with
  | none => .error (.error ⟨v⟩)
  | some (s, i) => .ok (if s.domain.isBool then .sym s else .bit (.sym s) i)

/-- What the formula of a node is made of, the literal of its variable apart. -/
inductive Shape where
  | positive
  | negative
  | andHigh
  | notAndLow
  | orLow
  | notOrHigh
  | choice

/-- The shape of a node by its constant children. -/
def Shape.ofNode (n : Node) : Shape :=
  if n.low = .zero ∧ n.high = .one then .positive
  else if n.low = .one ∧ n.high = .zero then .negative
  else if n.low = .zero then .andHigh
  else if n.high = .zero then .notAndLow
  else if n.high = .one then .orLow
  else if n.low = .one then .notOrHigh
  else .choice

/-- Formulas found so far, by the number of their node. -/
abbrev Found := Std.TreeMap Nat Formula

/-- The formula of an edge with at most the given number of decisions one below the other. -/
def within (m : Manager) (a : Allocation) :
    Nat → Found → Edge → Except (Halt ForeignVariable) (Formula × Found)
  | 0, _, _ => throw (.fault .exhausted)
  | n + 1, found, e => do
    if e = .one then return (.bool true, found)
    if e = .zero then return (.bool false, found)
    let (regular, found) ← match found[e.index]? with
      | some r => pure (r, found)
      | none => do
        let node ← Halt.ofFault (m.node e.index)
        let l ← literal a node.var
        let (r, found) ← match Shape.ofNode node with
          | .positive => pure (l, found)
          | .negative => pure (l.mkNot, found)
          | .andHigh => do
            let (high, found) ← within m a n found node.high
            pure (Formula.mkAnd [l, high], found)
          | .notAndLow => do
            let (low, found) ← within m a n found node.low
            pure (Formula.mkAnd [l.mkNot, low], found)
          | .orLow => do
            let (low, found) ← within m a n found node.low
            pure (Formula.mkOr [l, low], found)
          | .notOrHigh => do
            let (high, found) ← within m a n found node.high
            pure (Formula.mkOr [l.mkNot, high], found)
          | .choice => do
            let (high, found) ← within m a n found node.high
            let (low, found) ← within m a n found node.low
            pure (Formula.ite l high low, found)
        pure (r, found.insert e.index r)
    return (if e.negated then regular.mkNot else regular, found)

end Readback

/-- The formula over symbols that an edge stands for. -/
def readback (m : Manager) (a : Allocation) (e : Edge) : Except (Halt ForeignVariable) Formula :=
  return (← Readback.within m a (e.index + 1) {} e).1

end Invariance.Bits
