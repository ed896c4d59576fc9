import Invariance.Bits.Encoding
import Invariance.Diagram.Models
import Invariance.Diagram.Quantifier
import Invariance.Diagram.Support
import Invariance.Formula.Shape
import Invariance.Solver.Interface

/-!
A solver that decides by diagrams. Every assertion is encoded at once and conjoined with the context of its
scope, so that a check compares the context with false and is never in doubt. Interpolants come from
quantifying away what only the first side speaks of.
-/

namespace Invariance

open Diagram Bits

/-- What is asserted in one scope, and its conjunction with all that is asserted in the enclosing ones. -/
structure Scope where
  context : Edge
  plain : List Edge := []
  a : List Edge := []
  b : List Edge := []

namespace Scope

/-- The assertions of a scope on one side. -/
def side (s : Scope) : Partition → List Edge
  | .a => s.a
  | .b => s.b

/-- Records an assertion, and the context it leads to. -/
def record (s : Scope) (p : Option Partition) (f context : Edge) : Scope :=
  match p with
  | none => { s with context, plain := s.plain ++ [f] }
  | some .a => { s with context, a := s.a ++ [f] }
  | some .b => { s with context, b := s.b ++ [f] }

end Scope

/-- The state of the solver: its diagrams, the open scopes, and the last check if it still stands. -/
structure DecisionSolver where
  workspace : Workspace
  outer : List Scope
  scope : Scope
  last : Option (Status × Edge)

namespace DecisionSolver

/-- A solver without assertions, with a manager of the given size. -/
def ofBits (bits : Nat) : Except Fault DecisionSolver := do
  return {
    workspace := { manager := ← Manager.ofBits bits, symbols := .empty }
    outer := []
    scope := { context := .one }
    last := none }

/-- The number of open scopes, the outermost included. -/
def depth (s : DecisionSolver) : Nat :=
  s.outer.length + 1

/-- The number of variables that symbols have been given. -/
def varCount (s : DecisionSolver) : Nat :=
  s.workspace.symbols.size

/-- The open scopes, the outermost first. -/
def scopes (s : DecisionSolver) : List Scope :=
  (s.scope :: s.outer).reverse

/-- The number of assignments to the variables that make all active assertions true. -/
def modelCount (s : DecisionSolver) : Except Fault Nat :=
  s.workspace.manager.satCount s.scope.context s.varCount

/-- Work on the diagrams of the solver. -/
def encoding {α : Type} (work : Encode α) : Request DecisionSolver α :=
  ExceptT.mk fun ⟨workspace, outer, scope, last⟩ =>
    match work.run.run workspace with
    | (.ok a, workspace) => (.ok a, ⟨workspace, outer, scope, last⟩)
    | (.error h, workspace) => (.error (h.map .encoding), ⟨workspace, outer, scope, last⟩)

/-- A question to the solver that changes nothing. -/
def ask {α : Type} (question : DecisionSolver → Except (Halt SolverError) α) :
    Request DecisionSolver α :=
  ExceptT.mk fun s => (question s, s)

/-- Encodes and asserts a formula. A formula that is refused leaves the assertions as they are. -/
def assert (p : Option Partition) (e : Formula) : Request DecisionSolver Unit := do
  if e.isUnindexed then throw (.error (.encoding (.unindexed e)))
  let f ← encoding (Bits.encode e)
  modify fun s => { s with last := none }
  let context ← encoding (Encode.build (Build.and (← get).scope.context f))
  modify fun s => { s with scope := s.scope.record p f context }

/-- Opens a scope with the context of the one around it. -/
def push (s : DecisionSolver) : DecisionSolver :=
  { s with outer := s.scope :: s.outer, scope := { context := s.scope.context }, last := none }

/-- Closes the innermost scope, if there is one around it. -/
def pop : Request DecisionSolver Unit := do
  match (← get).outer with
  | [] => throw (.error .emptyScope)
  | scope :: outer => modify fun s => { s with outer, scope, last := none }

/-- Decides the active assertions. -/
def check : Request DecisionSolver Status :=
  modifyGet fun s =>
    let status := if s.scope.context = .zero then .unsat else .sat
    (status, { s with last := some (status, s.scope.context) })

/-- The values that an assignment gives to all symbols met so far. -/
def modelOf (s : DecisionSolver) (literals : List Int) : Model where
  complete := true
  values := .ofList (s.workspace.symbols.table.keys.filterMap fun g =>
    (s.workspace.symbols.decode g (truthOf literals)).map (g, ·))

/-- A model, after a check that found one. -/
def model : Request DecisionSolver Model :=
  ask fun s =>
    match s.last with
    | some (.sat, f) => do
      match ← Halt.ofFault (s.workspace.manager.onePath f) with
      | some literals => return s.modelOf literals
      | none => throw (.error .noModel)
    | _ => throw (.error .noModel)

/-- The active assertions of a list of sides, scope by scope from the outermost. -/
def assertions (s : DecisionSolver) (sides : Scope → List Edge) : List Edge :=
  s.scopes.flatMap sides

/-- The variables of `f` that `g` does not depend on. -/
def localVars (m : Manager) (f g : Edge) : Except Fault (SortedSet Nat) := do
  let shared ← m.support g
  let own ← m.support f
  return .ofList (own.elements.filter fun v => !shared.contains v)

/-- The strongest consequence of the first side over what the second side speaks of. -/
def interpolant (p : Pattern) : Request DecisionSolver Formula := do
  match (← get).last with
  | some (.unsat, _) => pure ()
  | _ => throw (.error .noInterpolant)
  let first := (← get).assertions fun s => s.plain ++ s.side p.first
  let second := (← get).assertions fun s => s.side p.second
  let f ← encoding (Encode.build (Build.andMany first))
  let g ← encoding (Encode.build (Build.andMany second))
  let vars ← ask fun s => Halt.ofFault (localVars s.workspace.manager f g)
  let r ← encoding (Encode.build (Build.project f vars))
  ask fun s =>
    match readback s.workspace.manager s.workspace.symbols r with
    | .ok e => .ok e
    | .error h => .error (h.map .foreign)

instance : Solver DecisionSolver where
  assert := assert
  push := push
  pop := pop
  check := check
  model := model
  interpolant := interpolant

end DecisionSolver

end Invariance
