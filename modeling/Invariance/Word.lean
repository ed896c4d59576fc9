import Invariance.Fault

/-!
Two's complement arithmetic inside a 64-bit word: cutting a word to its low bits, the least width that holds
a word, and single bits.
-/

namespace Invariance.Word

/-- The first number past 32 bits. -/
def bound32 : Nat := 4294967296

/-- The first number past 31 bits, from which on signed numbers of 32 bits are negative. -/
def signBound32 : Nat := 2147483648

/-- A number of 32 bits read as a signed one. -/
def signed32 (n : Nat) : Int :=
  if n < signBound32 then n else n - bound32

/-- The low `bits` bits of `v`, the highest of them taken as the sign. Meant for `1 ≤ bits ≤ 64`. -/
def truncate (v : Int64) (bits : Nat) : Int64 :=
  let shift := Int64.ofNat (64 - bits)
  (v <<< shift) >>> shift

/-- The low `bits` bits of `v` as a signed number, where a word has that many bits and there is a sign. -/
def wrap (v : Int64) (bits : Nat) : Except Fault Int64 :=
  if 1 ≤ bits ∧ bits ≤ 64 then .ok (truncate v bits) else .error .wordWidth

/-- The number of digits of `n` in base two, none for zero. -/
def digits (n : Nat) : Nat :=
  if n = 0 then 0 else n.log2 + 1

/-- The least width that holds `v`: the digits of `v` or of its complement, and a sign. -/
def width (v : Int64) : Nat :=
  digits (if v < 0 then ~~~v else v).toInt.toNat + 1

/-- Bit `i` of `v`, the least significant being bit 0. -/
def bit (v : Int64) (i : Nat) : Except Fault Bool :=
  if i < 64 then .ok (v >>> Int64.ofNat i &&& 1 == 1) else .error .bitPosition

end Invariance.Word
