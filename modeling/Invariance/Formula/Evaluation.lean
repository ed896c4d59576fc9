import Invariance.Formula.Text
import Invariance.Valuation

/-!
The value of a formula. All operands are evaluated, left to right, and the first that has no value decides
the error. Variables and symbols get their values from a `Reading`; over one state, or over a state and its
successor, symbols have none.
-/

namespace Invariance

/-- Why a formula has no value. -/
inductive FormulaError where
  /-- A subformula is boolean where an integer is needed, or the other way round. -/
  | sortMismatch (e : Formula)
  | unbound (x : Variable)
  /-- The state gives the variable a value outside its domain. -/
  | outOfRange (x : Variable)
  /-- A variable or a prime stands where only symbols make sense, or a prime under a prime. -/
  | unindexed (e : Formula)
  /-- A symbol stands where only variables make sense. -/
  | indexed (e : Formula)
  | bitOutOfRange (index width : Nat)

def FormulaError.message : FormulaError → String
  | .sortMismatch e => "sort mismatch in `" ++ e.text ++ "`"
  | .unbound x => "variable `" ++ x.name ++ "` is not bound"
  | .outOfRange x => "value of `" ++ x.name ++ "` does not fit its sort"
  | .unindexed e => "`" ++ e.text ++ "` must be unfolded before it can be handled here"
  | .indexed e => "`" ++ e.text ++ "` is indexed and cannot be evaluated over a valuation"
  | .bitOutOfRange i w => "bit " ++ toString i ++ " out of range for width " ++ toString w

/-- A truth value, or an integer together with the width it has as a subformula. -/
inductive Sized where
  | bool (b : Bool)
  | int (v : Int64) (width : Nat)
  deriving DecidableEq

namespace Sized

def toValue : Sized → Value
  | .bool b => .bool b
  | .int v _ => .int v

/-- A value as that of a variable of the domain, which lends its width. -/
def ofValue : Value → Domain → Sized
  | .bool b, _ => .bool b
  | .int v, d => .int v d.bits

end Sized

/-- Where the values of variables, in the present or the next state, and of symbols come from. -/
structure Reading where
  var : (primed : Bool) → Variable → Except FormulaError Sized
  sym : Symbol → Except FormulaError Sized

namespace Reading

/-- The value of a variable in a state that has to bind it within its domain. -/
def lookup (s : Valuation) (x : Variable) : Except FormulaError Sized :=
  match s.get? x with
  | none => .error (.unbound x)
  | some v => if v.fits x.domain then .ok (.ofValue v x.domain) else .error (.outOfRange x)

/-- One state: there is no next one to read primed variables in. -/
def ofState (s : Valuation) : Reading where
  var primed x := if primed then .error (.unindexed (.var x)) else lookup s x
  sym g := .error (.indexed (.sym g))

/-- A state and its successor. -/
def ofStep (s t : Valuation) : Reading where
  var primed x := lookup (if primed then t else s) x
  sym g := .error (.indexed (.sym g))

end Reading

namespace Formula

/-- The outcome of an evaluation, with the faults of word arithmetic apart from errors of the formula. -/
abbrev Evaluated := Except (Halt FormulaError)

/-- The truth value of the subformula `e`. -/
def asBool (e : Formula) : Sized → Evaluated Bool
  | .bool b => .ok b
  | .int _ _ => .error (.error (.sortMismatch e))

/-- The integer and the width of the subformula `e`. -/
def asInt (e : Formula) : Sized → Evaluated (Int64 × Nat)
  | .bool _ => .error (.error (.sortMismatch e))
  | .int v w => .ok (v, w)

/-- The integer `v`, wrapped at the width `w`. -/
def wrapAt (v : Int64) (w : Nat) : Evaluated Sized :=
  (Halt.ofFault (Word.wrap v w)).map (.int · w)

mutual

/-- The value of a formula, below a prime or not. -/
def evaluate (r : Reading) (primed : Bool) : Formula → Evaluated Sized
  | .bool b => .ok (.bool b)
  | .int v => .ok (.int v (Word.width v))
  | .var x => Halt.ofError (r.var primed x)
  | .prime e => if primed then .error (.error (.unindexed (.prime e))) else evaluate r true e
  | .sym s => Halt.ofError (r.sym s)
  | .not e => do return .bool !(← asBool e (← evaluate r primed e))
  | .and es => do return .bool ((← evaluateBools r primed es).all id)
  | .or es => do return .bool ((← evaluateBools r primed es).any id)
  | .imply a b => do
    let x ← asBool a (← evaluate r primed a)
    let y ← asBool b (← evaluate r primed b)
    return .bool (!x || y)
  | .ite c t e => do
    let z ← asBool c (← evaluate r primed c)
    match ← evaluate r primed t, ← evaluate r primed e with
    | .bool x, .bool y => return .bool (if z then x else y)
    | .int x v, .int y w => return .int (if z then x else y) (max v w)
    | _, _ => throw (.error (.sortMismatch (.ite c t e)))
  | .add a b => do
    let (x, v) ← asInt a (← evaluate r primed a)
    let (y, w) ← asInt b (← evaluate r primed b)
    wrapAt (x + y) (max v w)
  | .sub a b => do
    let (x, v) ← asInt a (← evaluate r primed a)
    let (y, w) ← asInt b (← evaluate r primed b)
    wrapAt (x - y) (max v w)
  | .neg e => do
    let (x, w) ← asInt e (← evaluate r primed e)
    wrapAt (-x) w
  | .eq a b => do
    match ← evaluate r primed a, ← evaluate r primed b with
    | .bool x, .bool y => return .bool (x == y)
    | .int x _, .int y _ => return .bool (x == y)
    | _, _ => throw (.error (.sortMismatch (.eq a b)))
  | .lt a b => do
    let (x, _) ← asInt a (← evaluate r primed a)
    let (y, _) ← asInt b (← evaluate r primed b)
    return .bool (x < y)
  | .le a b => do
    let (x, _) ← asInt a (← evaluate r primed a)
    let (y, _) ← asInt b (← evaluate r primed b)
    return .bool (x ≤ y)
  | .bit e i => do
    let (x, w) ← asInt e (← evaluate r primed e)
    if i < w then return .bool (← Halt.ofFault (Word.bit x i)) else throw (.error (.bitOutOfRange i w))

/-- The truth values of the operands of a conjunction or disjunction. -/
def evaluateBools (r : Reading) (primed : Bool) : List Formula → Evaluated (List Bool)
  | [] => .ok []
  | e :: es => do
    let b ← asBool e (← evaluate r primed e)
    let bs ← evaluateBools r primed es
    return b :: bs

end

/-- The value of a formula in a state. -/
def eval (e : Formula) (s : Valuation) : Evaluated Value :=
  (evaluate (.ofState s) false e).map Sized.toValue

/-- The value of a formula over a step; primed variables are read in the state after it. -/
def evalStep (e : Formula) (s t : Valuation) : Evaluated Value :=
  (evaluate (.ofStep s t) false e).map Sized.toValue

/-- Is the boolean formula true in the state? -/
def holds (e : Formula) (s : Valuation) : Evaluated Bool := do
  match ← e.eval s with
  | .bool b => return b
  | .int _ => throw (.error (.sortMismatch e))

end Formula

end Invariance
