import Invariance.Bits.Allocation
import Invariance.Bits.Circuit
import Invariance.Formula.Evaluation

/-!
Formulas over symbols as decision diagrams. Widths follow the rules of evaluation, so that the diagrams take
the value of the formula under every assignment. All operands are encoded, left to right, and what was stored
and allotted before an error stays.
-/

namespace Invariance.Bits

open Diagram

/-- The diagrams and the variables of symbols that encodings share. -/
structure Workspace where
  manager : Manager
  symbols : Allocation

/-- Work on a workspace that may refuse its formula. -/
abbrev Encode := ExceptT (Halt FormulaError) (StateM Workspace)

namespace Encode

/-- Work on the diagrams alone. -/
def build {α : Type} (b : Build α) : Encode α :=
  ExceptT.mk fun ⟨manager, symbols⟩ =>
    match b.run.run manager with
    | (.ok a, manager) => (.ok a, ⟨manager, symbols⟩)
    | (.error f, manager) => (.error (.fault f), ⟨manager, symbols⟩)

/-- The variables of a symbol. -/
def allot (s : Symbol) : Encode (List Nat) :=
  modifyGet fun ⟨manager, symbols⟩ =>
    match symbols.allot s with
    | (vs, symbols) => (vs, ⟨manager, symbols⟩)

end Encode

/-- The function of a boolean formula, or those of the bits of an integer formula. -/
inductive Code where
  | bool (e : Edge)
  | int (bits : Signals)

namespace Code

open Encode

/-- The function of the boolean formula `e`. -/
def asBool (e : Formula) : Code → Encode Edge
  | .bool f => return f
  | .int _ => throw (.error (.sortMismatch e))

/-- The bits of the integer formula `e`. -/
def asInt (e : Formula) : Code → Encode Signals
  | .bool _ => throw (.error (.sortMismatch e))
  | .int bits => return bits

/-- The functions of a symbol: its variables. -/
def ofSymbol (s : Symbol) : Encode Code := do
  let bits ← (← allot s).mapM fun v => build (Build.mkVar v)
  match s.domain, bits with
  | .bool, f :: _ => return .bool f
  | _, _ => return .int bits

mutual

/-- Encodes a formula over symbols. -/
def ofFormula : Formula → Encode Code
  | .bool b => return .bool (if b then .one else .zero)
  | .int v => do
    match Signals.ofWord v (Word.width v) with
    | .ok bits => return .int bits
    | .error f => throw (.fault f)
  | .var x => throw (.error (.unindexed (.var x)))
  | .prime e => throw (.error (.unindexed (.prime e)))
  | .sym s => ofSymbol s
  | .not e => return .bool (← asBool e (← ofFormula e)).not
  | .and es => return .bool (← conjoin .one es)
  | .or es => return .bool (← disjoin .zero es)
  | .imply a b => do
    let f ← asBool a (← ofFormula a)
    let g ← asBool b (← ofFormula b)
    return .bool (← build (Build.imply f g))
  | .ite c t e => do
    let test ← asBool c (← ofFormula c)
    match ← ofFormula t, ← ofFormula e with
    | .bool f, .bool g => return .bool (← build (Build.ite test f g))
    | .int xs, .int ys =>
      let (xs, ys) := xs.align ys
      return .int (← build (Signals.choose test xs ys))
    | _, _ => throw (.error (.sortMismatch (.ite c t e)))
  | .add a b => do
    let xs ← asInt a (← ofFormula a)
    let ys ← asInt b (← ofFormula b)
    let (xs, ys) := xs.align ys
    return .int (← build (Signals.sum .zero xs ys))
  | .sub a b => do
    let xs ← asInt a (← ofFormula a)
    let ys ← asInt b (← ofFormula b)
    let (xs, ys) := xs.align ys
    return .int (← build (Signals.sum .one xs ys.complement))
  | .neg e => do
    let xs ← asInt e (← ofFormula e)
    return .int (← build (Signals.sum .one (List.replicate xs.length .zero) xs.complement))
  | .eq a b => do
    match ← ofFormula a, ← ofFormula b with
    | .bool f, .bool g => return .bool (← build (Build.eq f g))
    | .int xs, .int ys =>
      let (xs, ys) := xs.align ys
      return .bool (← build (Signals.same xs ys))
    | _, _ => throw (.error (.sortMismatch (.eq a b)))
  | .lt a b => do
    let xs ← asInt a (← ofFormula a)
    let ys ← asInt b (← ofFormula b)
    let (xs, ys) := xs.align ys
    return .bool (← build (Signals.less xs ys))
  | .le a b => do
    let xs ← asInt a (← ofFormula a)
    let ys ← asInt b (← ofFormula b)
    let (xs, ys) := xs.align ys
    return .bool (← build (Signals.less ys xs)).not
  | .bit e i => do
    let xs ← asInt e (← ofFormula e)
    match xs[i]? with
    | some f => return .bool f
    | none => throw (.error (.bitOutOfRange i xs.length))

/-- The conjunction of `acc` with the formulas. -/
def conjoin (acc : Edge) : List Formula → Encode Edge
  | [] => return acc
  | e :: es => do
    let f ← asBool e (← ofFormula e)
    conjoin (← build (Build.and acc f)) es

/-- The disjunction of `acc` with the formulas. -/
def disjoin (acc : Edge) : List Formula → Encode Edge
  | [] => return acc
  | e :: es => do
    let f ← asBool e (← ofFormula e)
    disjoin (← build (Build.or acc f)) es

end

end Code

/-- The function of a boolean formula over symbols. -/
def encode (e : Formula) : Encode Edge := do
  Code.asBool e (← Code.ofFormula e)

end Invariance.Bits
