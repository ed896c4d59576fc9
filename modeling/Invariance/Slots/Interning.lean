import Invariance.Fault
import Invariance.Slots.Pairing

/-!
Interning tables give each value a number, counted from 1, and give equal values one number. The values of a
slot form a chain of links from older to newer entries, which a search follows.
-/

namespace Invariance.Slots

/-- Numbered values. Entry `i + 1` has its value and its link at position `i`; number 0 stands for no entry. -/
structure Interning (α : Type) where
  values : Array α
  links : Array Nat
  heads : Array Nat

/-- How a search along a chain ends: at the entry sought, or after the last entry of the chain. -/
inductive Search where
  | found (entry : Nat)
  | absent (last : Nat)
  deriving DecidableEq

namespace Interning

variable {α : Type}

/-- An empty table meant for 2^bits values. It has as many slots, but never more than 2^16. -/
def ofBits (bits : Nat) : Except Fault (Interning α) :=
  if bits ≤ 31 then .ok ⟨#[], #[], Array.replicate (Nat.pow 2 (min bits 16)) 0⟩ else .error .tableBits

def size (t : Interning α) : Nat :=
  t.values.size

/-- The value of an entry. -/
@[inline]
def get (t : Interning α) : Nat → Except Fault α
  | 0 => .error .placeholder
  | i + 1 =>
    match t.values[i]? with
    | some v => .ok v
    | none => .error .outOfBounds

/-- A new entry that no search finds. -/
def add (t : Interning α) (v : α) : Nat × Interning α :=
  match t with
  | ⟨values, links, heads⟩ => (values.size + 1, ⟨values.push v, links.push 0, heads⟩)

/-- Follows the chain of the entry `i` in search of `v`. A link that does not lead to a newer entry than the
one it starts from ends the chain. -/
@[specialize]
def search [DecidableEq α] (t : Interning α) (v : α) (last i : Nat) : Search :=
  if h : last < i ∧ i ≤ t.values.size then
    if t.values[i - 1] = v then .found i else search t v i (t.links.getD (i - 1) 0)
  else .absent last
termination_by t.values.size - last

/-- The entry of a value, which is made and linked to the end of its chain if there is none. -/
@[specialize]
def put [DecidableEq α] [Coded α] (t : Interning α) (v : α) : Nat × Interning α :=
  let h := slot v t.heads.size
  match t.search v 0 (t.heads.getD h 0) with
  | .found i => (i, t)
  | .absent last =>
    match t.add v with
    | (i, ⟨values, links, heads⟩) =>
      if last = 0 then (i, ⟨values, links, heads.setIfInBounds h i⟩)
      else (i, ⟨values, links.setIfInBounds (last - 1) i, heads⟩)

end Interning

end Invariance.Slots
