import Invariance.Formula.Basic

/-! The written form of a formula: infix operators in parentheses, primes and bits as suffixes. -/

namespace Invariance.Formula

/-- An operator between two operands, in parentheses. -/
def binaryText (op a b : String) : String :=
  "(" ++ a ++ " " ++ op ++ " " ++ b ++ ")"

/-- The operands with the operator between each two of them, in parentheses. -/
def chainText (op : String) (es : List String) : String :=
  "(" ++ String.intercalate (" " ++ op ++ " ") es ++ ")"

mutual

def text : Formula → String
  | .bool b => if b then "true" else "false"
  | .int v => toString v.toInt
  | .var x => x.name
  | .prime e => text e ++ "\x27"
  | .sym s => s.text
  | .not e => "!" ++ text e
  | .and es => chainText "&&" (texts es)
  | .or es => chainText "||" (texts es)
  | .imply a b => binaryText "->" (text a) (text b)
  | .ite c t e => "ite(" ++ text c ++ ", " ++ text t ++ ", " ++ text e ++ ")"
  | .add a b => binaryText "+" (text a) (text b)
  | .sub a b => binaryText "-" (text a) (text b)
  | .neg e => "-" ++ text e
  | .eq a b => binaryText "==" (text a) (text b)
  | .lt a b => binaryText "<" (text a) (text b)
  | .le a b => binaryText "<=" (text a) (text b)
  | .bit e i => text e ++ "[" ++ toString i ++ "]"

/-- The written forms of a list of formulas. -/
def texts : List Formula → List String
  | [] => []
  | e :: es => text e :: texts es

end

end Invariance.Formula
