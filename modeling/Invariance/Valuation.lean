import Invariance.Variable
import Invariance.SortedMap

/-! States of a system, and the models a solver reports over a whole run. -/

namespace Invariance

/-- Values of state variables. The value need not fit the domain of its variable. -/
abbrev Valuation := SortedMap Variable Value

namespace Valuation

/-- Valuations are ordered by their entries, each by variable and then by value. -/
instance : Ord Valuation :=
  ⟨fun s t => List.compareLex (compareLex (compareOn (·.1)) (compareOn (·.2))) s.toList t.toList⟩

/-- The bindings in the order of their variables. -/
def text (s : Valuation) : String :=
  "\x7b" ++ String.intercalate ", " (s.toList.map fun e => e.1.name ++ " = " ++ e.2.text) ++ "\x7d"

end Valuation

/-- Values of symbols. In a complete model a symbol without an entry is unconstrained. -/
structure Model where
  complete : Bool
  values : SortedMap Symbol Value

/-- The value of a symbol, where the model determines one or leaves it open on purpose. -/
def Model.get? (m : Model) (s : Symbol) : Option Value :=
  match m.values.get? s with
  | some v => some v
  | none => if m.complete then some (.default s.domain) else none

end Invariance
