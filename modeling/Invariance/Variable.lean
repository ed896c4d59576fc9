import Invariance.Value

/-! State variables, and the symbols that stand for a variable at one moment of a run. -/

namespace Invariance

/-- A state variable. Two variables of one name and different domains are different. -/
structure Variable where
  name : String
  domain : Domain
  deriving DecidableEq

namespace Variable

/-- Variables are ordered by name, then by domain. -/
instance : Ord Variable := ⟨compareLex (compareOn name) (compareOn domain)⟩

instance : Std.TransOrd Variable :=
  inferInstanceAs (Std.TransCmp (compareLex (compareOn name) (compareOn domain)))

theorem compare_eq_iff {x y : Variable} : compare x y = .eq ↔ x = y := by
  cases x; cases y
  exact Ordering.then_eq_eq.trans
    ((and_congr Std.LawfulEqOrd.compare_eq_iff_eq Std.LawfulEqOrd.compare_eq_iff_eq).trans (by simp))

instance : Std.LawfulEqOrd Variable where
  compare_self := compare_eq_iff.mpr rfl
  eq_of_compare := compare_eq_iff.mp

end Variable

/-- The copy of a state variable at one moment of a run, counted by the generation. -/
structure Symbol where
  base : Variable
  generation : Nat
  deriving DecidableEq

namespace Symbol

/-- Symbols are ordered by variable, then by generation. -/
instance : Ord Symbol := ⟨compareLex (compareOn base) (compareOn generation)⟩

instance : Std.TransOrd Symbol :=
  inferInstanceAs (Std.TransCmp (compareLex (compareOn base) (compareOn generation)))

theorem compare_eq_iff {s t : Symbol} : compare s t = .eq ↔ s = t := by
  cases s; cases t
  exact Ordering.then_eq_eq.trans
    ((and_congr Std.LawfulEqOrd.compare_eq_iff_eq Std.LawfulEqOrd.compare_eq_iff_eq).trans (by simp))

instance : Std.LawfulEqOrd Symbol where
  compare_self := compare_eq_iff.mpr rfl
  eq_of_compare := compare_eq_iff.mp

def domain (s : Symbol) : Domain :=
  s.base.domain

/-- A symbol is written as its variable and its generation. -/
def text (s : Symbol) : String :=
  s.base.name ++ "@" ++ toString s.generation

end Symbol

end Invariance
