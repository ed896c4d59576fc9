/-! Codes of pairs and triples of numbers, which choose the slot an entry goes to. -/

namespace Invariance.Slots

/-- One number for two, modulo 2^64: shell by shell around the origin, a shell being the pairs with the same
maximum. Pairs of 32-bit numbers get different codes. -/
@[inline]
def pair (a b : UInt64) : UInt64 :=
  if a < b then b * b + a else a * a + a + b

/-- One number for three, modulo 2^64. -/
@[inline]
def triple (a b c : UInt64) : UInt64 :=
  pair (pair a b) c

/-- Keys with a code. Equal keys have equal codes, and nothing else is asked of them. -/
class Coded (α : Type) where
  code : α → UInt64

instance : Coded (UInt64 × UInt64) := ⟨fun p => pair p.1 p.2⟩

/-- The slot among `n` in which a key belongs. Where `n` is a power of two, it consists of the low bits of the code. -/
@[inline]
def slot {α : Type} [Coded α] (a : α) (n : Nat) : Nat :=
  (Coded.code a % .ofNat n).toNat

end Invariance.Slots
