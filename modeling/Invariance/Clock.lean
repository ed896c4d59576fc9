import Invariance.Variable
import Invariance.SortedMap

/-!
Clocks: a generation for every state variable. All variables not mentioned share one generation, and those
mentioned differ from it, so that a clock has one representation.
-/

namespace Invariance

/-- The sum of two generations, which are 32-bit counters. -/
def addGenerations (m n : Nat) : Except Fault Nat :=
  if m + n < Word.bound32 then .ok (m + n) else .error .overflow

/-- A generation for every variable: `rest` for all but the exceptions. -/
structure Clock where
  rest : Nat
  exceptions : SortedMap Variable Nat
  proper : ∀ e ∈ exceptions.toList, e.2 ≠ rest

namespace Clock

instance : DecidableEq Clock := fun a b =>
  if h : a.rest = b.rest ∧ a.exceptions = b.exceptions then
    isTrue (by cases a; cases b; obtain ⟨h₁, h₂⟩ := h; cases h₁; cases h₂; rfl)
  else isFalse fun e => h (by cases e; exact ⟨rfl, rfl⟩)

/-- Every variable at the generation `n`. -/
def all (n : Nat) : Clock where
  rest := n
  exceptions := .empty
  proper := by simp [SortedMap.empty]

/-- Every variable at the first generation. -/
def zero : Clock :=
  all 0

/-- The generation of a variable. -/
def get (c : Clock) (x : Variable) : Nat :=
  (c.exceptions.get? x).getD c.rest

/-- The clock with `x` at the generation `n`. -/
def set (c : Clock) (x : Variable) (n : Nat) : Clock where
  rest := c.rest
  exceptions := if n = c.rest then c.exceptions.erase x else c.exceptions.insert x n
  proper := by
    intro e he
    by_cases h : n = c.rest
    · rw [if_pos h] at he
      exact c.proper e (List.mem_filter.mp he).1
    · rw [if_neg h] at he
      rcases SortedMap.mem_put he with rfl | he
      · exact h
      · exact c.proper e he

/-- The variables mentioned by one clock or the other. -/
def mentioned (c d : Clock) : List Variable :=
  c.exceptions.keys ++ d.exceptions.keys

/-- The clock advanced by an offset, variable by variable. -/
def advance (c offset : Clock) : Except Fault Clock := do
  let rest ← addGenerations c.rest offset.rest
  (mentioned c offset).foldlM (fun d x => do
    return d.set x (← addGenerations (c.get x) (offset.get x))) (all rest)

/-- Is no variable later on `c` than on `d`? -/
def le (c d : Clock) : Bool :=
  c.rest ≤ d.rest && (mentioned c d).all fun x => c.get x ≤ d.get x

/-- The exceptions in the order of their variables, then the generation of the rest. -/
def text (c : Clock) : String :=
  "[" ++ String.join (c.exceptions.toList.map fun e => e.1.name ++ ":" ++ toString e.2 ++ ", ")
    ++ "_:" ++ toString c.rest ++ "]"

end Clock

end Invariance
