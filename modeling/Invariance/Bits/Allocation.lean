import Invariance.Valuation

/-!
Decision variables for symbols. Each symbol gets as many consecutive variables as its domain has bits, counted
from 1, in the order in which symbols are first met.
-/

namespace Invariance.Bits

/-- The variables of each symbol, and for each variable the symbol and the bit it stands for. -/
structure Allocation where
  table : SortedMap Symbol (List Nat)
  owners : Array (Symbol × Nat)

namespace Allocation

/-- No symbol has variables. -/
def empty : Allocation where
  table := .empty
  owners := #[]

/-- The number of variables. -/
def size (a : Allocation) : Nat :=
  a.owners.size

/-- The variables of a symbol that has some, the least significant bit first. -/
def get? (a : Allocation) (s : Symbol) : Option (List Nat) :=
  a.table.get? s

/-- The variables of a symbol, which gets new ones if it has none. -/
def allot (a : Allocation) (s : Symbol) : List Nat × Allocation :=
  match a.get? s with
  | some vs => (vs, a)
  | none =>
    let n := s.domain.bits
    let vs := List.range' (a.size + 1) n
    (vs, { table := a.table.insert s vs, owners := a.owners ++ (List.range n).map fun i => (s, i) })

/-- The symbol and the bit for which a variable stands. -/
def owner? (a : Allocation) : Nat → Option (Symbol × Nat)
  | 0 => none
  | v + 1 => a.owners[v]?

/-- The number with the given bits, the least significant first. -/
def number : List Bool → Nat
  | [] => 0
  | b :: bs => b.toNat + 2 * number bs

/-- The value of a symbol when its variables have the given truth values. -/
def decode (a : Allocation) (s : Symbol) (truth : Nat → Bool) : Option Value :=
  (a.get? s).map fun vs =>
    match s.domain with
    | .bool => .bool (vs.head?.any truth)
    | .int w => .int (Word.truncate (Int64.ofNat (number (vs.map truth))) w.bits)

end Allocation

/-- Truth values by a list of literals: the last one on a variable decides, and a variable without is false. -/
def truthOf (literals : List Int) (v : Nat) : Bool :=
  (literals.reverse.find? fun l => l.natAbs == v).any (0 < ·)

end Invariance.Bits
