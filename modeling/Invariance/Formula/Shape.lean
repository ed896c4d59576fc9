import Invariance.Formula.Basic
import Invariance.SortedMap

/-! The tree of a formula: its direct subformulas, rebuilding from them, and what occurs in it. -/

namespace Invariance.Formula

/-- The direct subformulas, left to right. -/
def children : Formula → List Formula
  | .bool _ | .int _ | .var _ | .sym _ => []
  | .prime e | .not e | .neg e | .bit e _ => [e]
  | .and es | .or es => es
  | .imply a b | .add a b | .sub a b | .eq a b | .lt a b | .le a b => [a, b]
  | .ite c t e => [c, t, e]

/-- The formula with `f` applied to each direct subformula, left to right. -/
def mapChildrenM {m : Type → Type} [Monad m] (f : Formula → m Formula) : Formula → m Formula
  | .bool b => pure (.bool b)
  | .int v => pure (.int v)
  | .var x => pure (.var x)
  | .sym s => pure (.sym s)
  | .prime e => return .prime (← f e)
  | .not e => return .not (← f e)
  | .neg e => return .neg (← f e)
  | .bit e i => return .bit (← f e) i
  | .and es => return .and (← es.mapM f)
  | .or es => return .or (← es.mapM f)
  | .imply a b => return .imply (← f a) (← f b)
  | .add a b => return .add (← f a) (← f b)
  | .sub a b => return .sub (← f a) (← f b)
  | .eq a b => return .eq (← f a) (← f b)
  | .lt a b => return .lt (← f a) (← f b)
  | .le a b => return .le (← f a) (← f b)
  | .ite c t e => return .ite (← f c) (← f t) (← f e)

mutual

/-- The formula and everything below it, each before its own subformulas, left to right. -/
def subformulas : Formula → List Formula
  | .bool b => [.bool b]
  | .int v => [.int v]
  | .var x => [.var x]
  | .sym s => [.sym s]
  | .prime e => .prime e :: subformulas e
  | .not e => .not e :: subformulas e
  | .neg e => .neg e :: subformulas e
  | .bit e i => .bit e i :: subformulas e
  | .and es => .and es :: subformulasList es
  | .or es => .or es :: subformulasList es
  | .imply a b => .imply a b :: (subformulas a ++ subformulas b)
  | .add a b => .add a b :: (subformulas a ++ subformulas b)
  | .sub a b => .sub a b :: (subformulas a ++ subformulas b)
  | .eq a b => .eq a b :: (subformulas a ++ subformulas b)
  | .lt a b => .lt a b :: (subformulas a ++ subformulas b)
  | .le a b => .le a b :: (subformulas a ++ subformulas b)
  | .ite c t e => .ite c t e :: (subformulas c ++ subformulas t ++ subformulas e)

/-- What `subformulas` lists for each formula in turn. -/
def subformulasList : List Formula → List Formula
  | [] => []
  | e :: es => subformulas e ++ subformulasList es

end

/-- The number of subformulas, the formula itself included. -/
def size (e : Formula) : Nat :=
  e.subformulas.length

def var? : Formula → Option Variable
  | .var x => some x
  | _ => none

def sym? : Formula → Option Symbol
  | .sym s => some s
  | _ => none

/-- The variables that occur, primed or not. -/
def vars (e : Formula) : SortedSet Variable :=
  .ofList (e.subformulas.filterMap var?)

/-- The symbols that occur. -/
def symbols (e : Formula) : SortedSet Symbol :=
  .ofList (e.subformulas.filterMap sym?)

/-- Does the outermost operator speak of the present or the next state? -/
def isStateful : Formula → Bool
  | .var _ | .prime _ => true
  | _ => false

/-- Does a variable or a prime occur anywhere? Such a formula has no place in a run yet. -/
def isUnindexed (e : Formula) : Bool :=
  e.subformulas.any isStateful

end Invariance.Formula
