import Invariance.Bits.Readback
import Invariance.Formula.Evaluation

/-!
What the strategies ask of a solver: formulas over symbols are asserted in nested scopes, a check decides them
together, and a check is followed by a request for a model or an interpolant.
-/

namespace Invariance

/-- The answer to a check. -/
inductive Status where
  | sat
  | unsat
  | unknown
  deriving DecidableEq

def Status.text : Status → String
  | .sat => "SAT"
  | .unsat => "UNSAT"
  | .unknown => "UNKNOWN"

/-- The two sides that assertions can be put on for interpolation. -/
inductive Partition where
  | a
  | b
  deriving DecidableEq

def Partition.text : Partition → String
  | .a => "A"
  | .b => "B"

/-- Why a solver refuses a request. -/
inductive SolverError where
  /-- Only the outermost scope is open. -/
  | emptyScope
  | noModel
  | noInterpolant
  /-- Both sides of an interpolation are the same. -/
  | degeneratePattern (p : Partition)
  | foreign (v : Bits.ForeignVariable)
  | encoding (e : FormulaError)

def SolverError.message : SolverError → String
  | .emptyScope => "pop without a matching push"
  | .noModel => "model requested, but the last check was not satisfiable"
  | .noInterpolant => "interpolant requested, but the last check was not unsatisfiable"
  | .degeneratePattern p => "binary pattern over a single partition " ++ p.text
  | .foreign v => v.message
  | .encoding e => e.message

/-- A request for a formula implied by the first side and inconsistent with the second. -/
structure Pattern where
  first : Partition
  second : Partition
  distinct : first ≠ second

/-- The pattern of two sides, which have to differ. -/
def Pattern.between (p q : Partition) : Except SolverError Pattern :=
  if h : p = q then .error (.degeneratePattern p) else .ok ⟨p, q, h⟩

/-- The side `a` against the side `b`. -/
def Pattern.forward : Pattern :=
  ⟨.a, .b, by decide⟩

/-- A request to a solver with states of type `σ`. A refused request may still change the state. -/
abbrev Request (σ : Type) := ExceptT (Halt SolverError) (StateM σ)

/-- Solvers with states of type `σ`. -/
class Solver (σ : Type) where
  /-- Asserts a formula in the innermost scope, on one side or on none. -/
  assert : Option Partition → Formula → Request σ Unit
  /-- Opens a scope. -/
  push : σ → σ
  /-- Closes the innermost scope and discards what was asserted in it. -/
  pop : Request σ Unit
  check : Request σ Status
  /-- A model of the active assertions, after a check that found them satisfiable. -/
  model : Request σ Model
  /-- An interpolant between two sides, after a check that found the active assertions unsatisfiable.
  Assertions on no side count with the first. -/
  interpolant : Pattern → Request σ Formula

end Invariance
