/-!
Faults are the internal checks of the library: an argument outside the range an operation is defined on, a
counter past its limit, a position that does not exist. A fault says nothing about the formula or system at
hand, which is refused with an error of its own kind; `Halt` joins the two.
-/

namespace Invariance

/-- A reason for which an operation is not defined on its arguments. -/
inductive Fault where
  /-- An integer domain is between 1 and 32 bits wide. -/
  | integerWidth
  /-- A 64-bit word is cut to between 1 and 64 bits. -/
  | wordWidth
  /-- A 64-bit word has the bits 0 to 63. -/
  | bitPosition
  /-- A generation or a literal left its machine range. -/
  | overflow
  /-- A frame, a step or a node with this number does not exist. -/
  | outOfBounds
  /-- An interning table is sized with at most 31 bits. -/
  | tableBits
  /-- A memo is sized with at most 31 bits. -/
  | memoBits
  /-- Number 0 of an interning table stands for no entry. -/
  | placeholder
  /-- Decision variables are numbered from 1. -/
  | zeroVariable
  /-- A trace starts in some state. -/
  | emptyTrace
  /-- A trace alternates between states and actions. -/
  | unevenTrace
  /-- The allotted number of rounds was used up. -/
  | exhausted
  deriving DecidableEq

/-- The text of a fault, for those that have one. -/
def Fault.message : Fault → Option String
  | .integerWidth => some "Integer width should be in the range 1..=32"
  | .tableBits => some "Storage bits should be in the range 0..=31"
  | .memoBits => some "Bits should be in the range 0..=31"
  | .placeholder => some "Index 0 is a placeholder"
  | .zeroVariable => some "Variable index should not be zero"
  | .emptyTrace => some "Trace should have at least one state"
  | .unevenTrace => some "Trace should have one action between each pair of states"
  | .wordWidth | .bitPosition | .overflow | .outOfBounds | .exhausted => none

/-- Why a computation stopped without an answer: a fault, or an error that its input is to blame for. -/
inductive Halt (ε : Type) where
  | fault (cause : Fault)
  | error (cause : ε)
  deriving DecidableEq

namespace Halt

variable {ε α : Type}

/-- A computation that can only fault, among those that can also refuse their input. -/
def ofFault : Except Fault α → Except (Halt ε) α
  | .ok a => .ok a
  | .error f => .error (.fault f)

/-- A computation that can only refuse its input, among those that can also fault. -/
def ofError : Except ε α → Except (Halt ε) α
  | .ok a => .ok a
  | .error e => .error (.error e)

/-- Restates the error of a halted computation. -/
def map {δ : Type} (f : ε → δ) : Halt ε → Halt δ
  | .fault c => .fault c
  | .error e => .error (f e)

end Halt

end Invariance
