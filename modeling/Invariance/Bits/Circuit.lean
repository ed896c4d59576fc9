import Invariance.Word
import Invariance.Diagram.Choice

/-!
Two's complement arithmetic on words of functions. A word lists its bits from the least significant one, and
the last is its sign. Operands of a circuit have equal lengths.
-/

namespace Invariance.Bits

open Diagram

/-- A word of functions, the least significant bit first. -/
abbrev Signals := List Edge

namespace Signals

/-- The word widened by repeating its sign. -/
def extend (xs : Signals) (width : Nat) : Signals :=
  match xs.getLast? with
  | none => xs
  | some sign => xs ++ List.replicate (width - xs.length) sign

/-- Both words at the larger of their widths. -/
def align (xs ys : Signals) : Signals × Signals :=
  let width := max xs.length ys.length
  (xs.extend width, ys.extend width)

/-- The bits of a constant. -/
def ofWord (v : Int64) (width : Nat) : Except Fault Signals :=
  (List.range width).mapM fun i => return if ← Word.bit v i then .one else .zero

/-- The complement of every bit. -/
def complement (xs : Signals) : Signals :=
  xs.map Edge.not

/-- The sum of two words and a carry, without the carry out of the top bit. -/
def sum (carry : Edge) : Signals → Signals → Build Signals
  | x :: xs, y :: ys => do
    let half ← Build.xor x y
    let bit ← Build.xor half carry
    let both ← Build.and x y
    let through ← Build.and carry half
    let carry ← Build.or both through
    return bit :: (← sum carry xs ys)
  | _, _ => return []

/-- Is the first word less than the second, where `less` says so of the bits below? The topmost bits that differ
decide, signs the other way round than the rest. -/
def lessFrom (less : Edge) : Signals → Signals → Build Edge
  | [x], [y] => do Build.ite (← Build.xor x.not y.not) y.not less
  | x :: xs, y :: ys => do
    let less ← Build.ite (← Build.xor x y) y less
    lessFrom less xs ys
  | _, _ => return less

/-- Is the first word less than the second, both signed? -/
def less (xs ys : Signals) : Build Edge :=
  lessFrom .zero xs ys

/-- Are the words equal, bit for bit? -/
def same (xs ys : Signals) : Build Edge :=
  Build.andFrom .one (List.zipWith Build.eq xs ys)

/-- The word `xs` where `test` is true, and `ys` elsewhere. -/
def choose (test : Edge) (xs ys : Signals) : Build Signals :=
  (xs.zip ys).mapM fun (x, y) => Build.ite test x y

end Signals

end Invariance.Bits
