import Invariance.Solver.Interface

/-! Solvers that answer from a script, whatever they are told, and solvers of one kind or another. -/

namespace Invariance

/-- The answers still to be given. Without a limit, every scope can be closed. -/
structure Script where
  statuses : List Status := []
  model : Option Model := none
  interpolants : List Formula := []
  pops : Option Nat := none

namespace Script

/-- Closes a scope as often as the script allows. -/
def pop : Request Script Unit := do
  match (← get).pops with
  | none => return
  | some 0 => throw (.error .emptyScope)
  | some (n + 1) => modify fun s => { s with pops := some n }

/-- The next status, and no decision once there is none. -/
def check : Request Script Status :=
  modifyGet fun s =>
    match s.statuses with
    | [] => (.unknown, s)
    | status :: statuses => (status, { s with statuses })

/-- The model of the script, at any time. -/
def giveModel : Request Script Model := do
  match (← get).model with
  | some m => return m
  | none => throw (.error .noModel)

/-- The next interpolant, at any time. -/
def interpolant : Request Script Formula := do
  match (← get).interpolants with
  | [] => throw (.error .noInterpolant)
  | e :: interpolants =>
    modify fun s => { s with interpolants }
    return e

instance : Solver Script where
  assert _ _ := pure ()
  push := id
  pop := pop
  check := check
  model := giveModel
  interpolant _ := interpolant

end Script

namespace Solver

variable {σ τ : Type}

/-- A request to a solver of the first kind. -/
def onLeft {α : Type} (r : Request σ α) (s : σ) : Except (Halt SolverError) α × (σ ⊕ τ) :=
  match r.run.run s with
  | (a, s) => (a, .inl s)

/-- A request to a solver of the second kind. -/
def onRight {α : Type} (r : Request τ α) (t : τ) : Except (Halt SolverError) α × (σ ⊕ τ) :=
  match r.run.run t with
  | (a, t) => (a, .inr t)

/-- The same request to a solver of either kind. -/
def either {α : Type} (l : Request σ α) (r : Request τ α) : Request (σ ⊕ τ) α :=
  ExceptT.mk fun
    | .inl s => onLeft l s
    | .inr t => onRight r t

/-- Solvers of two kinds side by side. -/
instance [Solver σ] [Solver τ] : Solver (σ ⊕ τ) where
  assert p e := either (assert p e) (assert p e)
  push := Sum.map push push
  pop := either pop pop
  check := either check check
  model := either model model
  interpolant p := either (interpolant p) (interpolant p)

end Solver

end Invariance
