import Invariance.Formula.Shape
import Invariance.Valuation
import Invariance.Clock

/-!
Moving formulas in time. Unfolding at a clock turns each variable into the symbol of its generation, later by
one for each prime above it; folding turns symbols back into variables under primes. A state is read out of a
model at a clock.
-/

namespace Invariance

/-- Why a formula or a model cannot be brought to a clock. -/
inductive FrameError where
  /-- The symbol lies before the clock, where no number of primes leads. -/
  | belowIndex (s : Symbol) (target : Nat)
  | missingValue (s : Symbol)
  deriving DecidableEq

def FrameError.message : FrameError → String
  | .belowIndex s t => "cannot fold `" ++ s.text ++ "` to generation " ++ toString t
  | .missingValue s => "model has no value for `" ++ s.text ++ "`"

namespace Formula

mutual

/-- Each variable below `n` primes becomes its symbol `n` generations after the clock. -/
def unfoldFrom (c : Clock) (n : Nat) : Formula → Except Fault Formula
  | .var x => return .sym ⟨x, ← addGenerations (c.get x) n⟩
  | .prime e => unfoldFrom c (n + 1) e
  | .bool b => return .bool b
  | .int v => return .int v
  | .sym s => return .sym s
  | .not e => return .not (← unfoldFrom c n e)
  | .neg e => return .neg (← unfoldFrom c n e)
  | .bit e i => return .bit (← unfoldFrom c n e) i
  | .and es => return .and (← unfoldEach c n es)
  | .or es => return .or (← unfoldEach c n es)
  | .imply a b => return .imply (← unfoldFrom c n a) (← unfoldFrom c n b)
  | .add a b => return .add (← unfoldFrom c n a) (← unfoldFrom c n b)
  | .sub a b => return .sub (← unfoldFrom c n a) (← unfoldFrom c n b)
  | .eq a b => return .eq (← unfoldFrom c n a) (← unfoldFrom c n b)
  | .lt a b => return .lt (← unfoldFrom c n a) (← unfoldFrom c n b)
  | .le a b => return .le (← unfoldFrom c n a) (← unfoldFrom c n b)
  | .ite a b d => return .ite (← unfoldFrom c n a) (← unfoldFrom c n b) (← unfoldFrom c n d)

def unfoldEach (c : Clock) (n : Nat) : List Formula → Except Fault (List Formula)
  | [] => return []
  | e :: es => return (← unfoldFrom c n e) :: (← unfoldEach c n es)

end

/-- The formula at a clock: variables become symbols of their generation, primed ones of later generations. -/
def unfold (e : Formula) (c : Clock) : Except Fault Formula :=
  unfoldFrom c 0 e

/-- A symbol at or after the clock, as its variable under primes. -/
def foldSymbol (c : Clock) (s : Symbol) : Except FrameError Formula :=
  let target := c.get s.base
  if s.generation < target then .error (.belowIndex s target)
  else .ok (primes (s.generation - target) (.var s.base))

mutual

/-- Symbols become variables, under one prime for each generation after the clock. -/
def fold (e : Formula) (c : Clock) : Except FrameError Formula :=
  match e with
  | .sym s => foldSymbol c s
  | .bool b => return .bool b
  | .int v => return .int v
  | .var x => return .var x
  | .prime e => return .prime (← fold e c)
  | .not e => return .not (← fold e c)
  | .neg e => return .neg (← fold e c)
  | .bit e i => return .bit (← fold e c) i
  | .and es => return .and (← foldEach es c)
  | .or es => return .or (← foldEach es c)
  | .imply a b => return .imply (← fold a c) (← fold b c)
  | .add a b => return .add (← fold a c) (← fold b c)
  | .sub a b => return .sub (← fold a c) (← fold b c)
  | .eq a b => return .eq (← fold a c) (← fold b c)
  | .lt a b => return .lt (← fold a c) (← fold b c)
  | .le a b => return .le (← fold a c) (← fold b c)
  | .ite a b d => return .ite (← fold a c) (← fold b c) (← fold d c)

def foldEach (es : List Formula) (c : Clock) : Except FrameError (List Formula) :=
  match es with
  | [] => return []
  | e :: es => return (← fold e c) :: (← foldEach es c)

end

end Formula

/-- The state that a model gives to the variables at a clock. -/
def Model.stateAt (m : Model) (c : Clock) (xs : List Variable) : Except FrameError Valuation :=
  xs.foldlM (fun s x =>
    let g : Symbol := ⟨x, c.get x⟩
    match m.get? g with
    | some v => .ok (s.insert x v)
    | none => .error (.missingValue g)) .empty

end Invariance
