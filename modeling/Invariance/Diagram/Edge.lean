import Invariance.Word
import Invariance.Slots.Pairing

/-!
Edges of decision diagrams. An edge leads to a numbered node and may be negated, so that a function and its
complement share their nodes.
-/

namespace Invariance.Diagram

/-- The function of a node, or its complement, in one number: twice the number of the node, and one more for
the complement. -/
structure Edge where
  code : Nat
  deriving DecidableEq

namespace Edge

/-- The edge to a node, or its complement. -/
@[inline]
def ofNode (index : Nat) (negated : Bool) : Edge where
  code := 2 * index + negated.toNat

/-- The number of the node that the edge leads to. -/
@[inline]
def index (e : Edge) : Nat :=
  e.code / 2

/-- Is the edge the complement of the function of its node? -/
@[inline]
def negated (e : Edge) : Bool :=
  e.code % 2 == 1

@[simp]
theorem index_ofNode (i : Nat) (b : Bool) : (ofNode i b).index = i := by
  have := b.toNat_lt
  simp only [ofNode, index]
  omega

@[simp]
theorem negated_ofNode (i : Nat) (b : Bool) : (ofNode i b).negated = b := by
  cases b <;> simp [ofNode, negated]

@[simp]
theorem ofNode_index_negated (e : Edge) : ofNode e.index e.negated = e := by
  rcases e with ⟨n⟩
  rcases Nat.mod_two_eq_zero_or_one n with h | h <;> simp [ofNode, index, negated, h] <;> omega

/-- An edge is its node and its sign. -/
theorem ext_iff {e f : Edge} : e = f ↔ e.index = f.index ∧ e.negated = f.negated := by
  refine ⟨by rintro rfl; exact ⟨rfl, rfl⟩, fun ⟨hi, hn⟩ => ?_⟩
  rw [← ofNode_index_negated e, hi, hn, ofNode_index_negated]

/-- Edges are ordered by node, the function before its complement. -/
instance : Ord Edge := ⟨compareOn code⟩

instance : Std.TransOrd Edge := inferInstanceAs (Std.TransCmp (compareOn code))

theorem compare_eq_iff {e f : Edge} : compare e f = .eq ↔ e = f := by
  cases e; cases f
  exact Nat.compare_eq_eq.trans (by simp)

instance : Std.LawfulEqOrd Edge where
  compare_self := compare_eq_iff.mpr rfl
  eq_of_compare := compare_eq_iff.mp

/-- The edge to the terminal node, the constant true. -/
def one : Edge :=
  ofNode 1 false

/-- The constant false. -/
def zero : Edge :=
  ofNode 1 true

/-- The complement. Number 0 is no node, and its edge has no complement of its own. -/
@[inline]
def not (e : Edge) : Edge :=
  if e.index = 0 then e else ofNode e.index !e.negated

/-- The edge `e`, negated if `flip` says so. -/
@[inline]
def flipIf (flip : Bool) (e : Edge) : Edge :=
  if flip then e.not else e

/-- The edge whose node and sign are those of a signed number of 32 bits, where the numbers from 2^31 on are
negative. -/
def ofSigned (n : Nat) : Edge :=
  if n < Word.signBound32 then ofNode n false else ofNode (Word.bound32 - n) true

/-- The complement among signed numbers of 32 bits, of which the least has none. -/
def complementSigned (e : Edge) : Except Fault Edge :=
  if e.negated ∧ e.index = Word.signBound32 then .error .overflow else .ok e.not

@[inline]
def isConst (e : Edge) : Bool :=
  e.index == 1

/-- The code of the edge in 32 bits. -/
@[inline]
def unsigned (e : Edge) : UInt32 :=
  .ofNat e.code

/-- Negation is written as a tilde before the number. -/
def text (e : Edge) : String :=
  (if e.negated then "~@" else "@") ++ toString e.index

end Edge

end Invariance.Diagram
