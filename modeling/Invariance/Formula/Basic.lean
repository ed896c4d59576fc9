import Invariance.Variable

/-!
Formulas over state variables and symbols. A formula either speaks of the present and the next state, through
variables and primes, or of a whole run, through symbols. Widths belong to subformulas: a variable has the
width of its domain, a literal the least width that holds it, a sum, a difference or a choice the larger width
of its operands, and a negative that of its operand. Arithmetic wraps at that width; comparisons are exact.
-/

namespace Invariance

/-- A boolean or integer formula. -/
inductive Formula where
  | bool (b : Bool)
  | int (v : Int64)
  | var (x : Variable)
  /-- The formula, read in the next state. -/
  | prime (e : Formula)
  | sym (s : Symbol)
  | not (e : Formula)
  | and (es : List Formula)
  | or (es : List Formula)
  | imply (a b : Formula)
  | ite (c t e : Formula)
  | add (a b : Formula)
  | sub (a b : Formula)
  | neg (e : Formula)
  | eq (a b : Formula)
  | lt (a b : Formula)
  | le (a b : Formula)
  /-- One bit of an integer, counted from the least significant. -/
  | bit (e : Formula) (index : Nat)

namespace Formula

instance : Inhabited Formula := ⟨.bool true⟩

/-! ### Equality -/

mutual

/-- Are the two formulas the same tree? -/
def same : Formula → Formula → Bool
  | .bool a, .bool b => a == b
  | .int v, .int w => v == w
  | .var x, .var y => x == y
  | .prime a, .prime b => same a b
  | .sym s, .sym t => s == t
  | .not a, .not b => same a b
  | .and as, .and bs => sameList as bs
  | .or as, .or bs => sameList as bs
  | .imply a c, .imply b d => same a b && same c d
  | .ite a c e, .ite b d f => same a b && same c d && same e f
  | .add a c, .add b d => same a b && same c d
  | .sub a c, .sub b d => same a b && same c d
  | .neg a, .neg b => same a b
  | .eq a c, .eq b d => same a b && same c d
  | .lt a c, .lt b d => same a b && same c d
  | .le a c, .le b d => same a b && same c d
  | .bit a i, .bit b j => same a b && i == j
  | _, _ => false

/-- Are the two lists the same, formula by formula? -/
def sameList : List Formula → List Formula → Bool
  | [], [] => true
  | a :: as, b :: bs => same a b && sameList as bs
  | _, _ => false

end

instance : BEq Formula := ⟨same⟩

/-! ### Constructors that simplify -/

/-- Negation, which turns a constant over and takes off an outermost negation. -/
def mkNot : Formula → Formula
  | .bool b => .bool !b
  | .not e => e
  | e => .not e

/-- The constant of a formula that is one. -/
def constant? : Formula → Option Bool
  | .bool b => some b
  | _ => none

/-- Conjunction without the operand `true`; one operand stands for itself, and `false` absorbs all. -/
def mkAnd (es : List Formula) : Formula :=
  if es.any (·.constant? == some false) then .bool false
  else
    match es.filter (·.constant? != some true) with
    | [] => .bool true
    | [e] => e
    | es => .and es

/-- Disjunction without the operand `false`; one operand stands for itself, and `true` absorbs all. -/
def mkOr (es : List Formula) : Formula :=
  if es.any (·.constant? == some true) then .bool true
  else
    match es.filter (·.constant? != some false) with
    | [] => .bool false
    | [e] => e
    | es => .or es

/-- Equivalence is equality of truth values. -/
def iff (a b : Formula) : Formula :=
  .eq a b

def ne (a b : Formula) : Formula :=
  mkNot (.eq a b)

def gt (a b : Formula) : Formula :=
  .lt b a

def ge (a b : Formula) : Formula :=
  .le b a

/-- The formula under `n` primes. -/
def primes : Nat → Formula → Formula
  | 0, e => e
  | n + 1, e => .prime (primes n e)

end Formula

end Invariance
