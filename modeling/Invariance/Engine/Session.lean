import Invariance.Engine.Verdict
import Invariance.Solver.Interface

/-! Sessions of a strategy with its solver, and the record of what was asked and answered. -/

namespace Invariance

/-- A request to a solver and its answer. -/
inductive Exchange where
  | assert (side : Option Partition) (e : Formula) (answer : Except (Halt SolverError) Unit)
  | push
  | pop (answer : Except (Halt SolverError) Unit)
  | check (answer : Except (Halt SolverError) Status)
  | model (answer : Except (Halt SolverError) Model)
  | interpolant (answer : Except (Halt SolverError) Formula)

/-- A solver, and the exchanges with it so far. -/
structure Session (σ : Type) where
  solver : σ
  log : Array Exchange

/-- A conversation with a solver. -/
abbrev Talk (σ : Type) := ExceptT (Halt CheckError) (StateM (Session σ))

namespace Talk

variable {σ α : Type}

/-- Puts a request to the solver and records its answer. -/
def request (note : Except (Halt SolverError) α → Exchange) (r : Request σ α) : Talk σ α :=
  ExceptT.mk fun ⟨solver, log⟩ =>
    match r.run.run solver with
    | (answer, solver) => (answer.mapError (Halt.map .solver), ⟨solver, log.push (note answer)⟩)

/-- A result from outside the solver, which may be a fault. -/
def ofFault (x : Except Fault α) : Talk σ α :=
  match x with
  | .ok a => return a
  | .error f => throw (.fault f)

variable [Solver σ]

/-- Asserts a formula on one side or on none. -/
def assert (side : Option Partition) (e : Formula) : Talk σ Unit :=
  request (.assert side e) (Solver.assert side e)

/-- Asserts formulas in turn, on one side or on none. -/
def assertAll (side : Option Partition) (es : List Formula) : Talk σ Unit :=
  es.forM (assert side)

/-- Opens a scope. -/
def push : Talk σ Unit :=
  modify fun ⟨solver, log⟩ => ⟨Solver.push solver, log.push .push⟩

/-- Closes the innermost scope. -/
def pop : Talk σ Unit :=
  request .pop Solver.pop

def check : Talk σ Status :=
  request .check Solver.check

def model : Talk σ Model :=
  request .model Solver.model

def interpolant (p : Pattern) : Talk σ Formula :=
  request .interpolant (Solver.interpolant p)

/-- Carries out a conversation, and a last request after it unless the conversation faulted. An error of the
last request comes before one of the conversation. -/
def andFinally (talk : Talk σ α) (last : Talk σ Unit) : Talk σ α := do
  let result ← tryCatch (return Except.ok (← talk)) fun
    | .fault f => throw (.fault f)
    | .error e => return Except.error e
  last
  match result with
  | .ok a => return a
  | .error e => throw (.error e)

end Talk

end Invariance
