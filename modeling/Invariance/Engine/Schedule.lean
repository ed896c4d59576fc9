/-! Schedules: when a run gives up, which strategies take their turn, and where the search is for loop-free paths. -/

namespace Invariance

/-- Choices by the number of the iteration, counted from 1; giving up is considered from 0 on. The answer to
the question whether paths have to be loop-free depends on how often it was asked before. -/
structure Schedule where
  givesUp : Nat → Bool := fun _ => false
  bmc : Nat → Bool := fun _ => true
  kInduction : Nat → Bool := fun _ => true
  imc : Nat → Bool := fun _ => true
  loopFree : Nat → Bool := fun _ => true

namespace Schedule

/-- Every strategy in every iteration, for ever, on loop-free paths. -/
def always : Schedule := {}

/-- Search alone. -/
def bmcOnly : Schedule where
  kInduction _ := false
  imc _ := false

/-- Search, then induction. -/
def induction : Schedule where
  imc _ := false

/-- Interpolation alone. -/
def imcOnly : Schedule where
  bmc _ := false
  kInduction _ := false

/-- No strategy at all. -/
def idle : Schedule where
  bmc _ := false
  kInduction _ := false
  imc _ := false

/-- Gives up once `n` iterations have run. -/
def maxIterations (s : Schedule) (n : Nat) : Schedule :=
  { s with givesUp := fun i => n ≤ i }

/-- The schedule as far as it can be shown, which takes one question about loop-free paths. -/
def text (s : Schedule) (asked : Nat) : String :=
  "CheckerConfig \x7b lf_path_only: " ++ (if s.loopFree asked then "true" else "false") ++ ", .. \x7d"

end Schedule

end Invariance
