import Invariance.Word

/-! Domains of state variables, and the values they hold. -/

namespace Invariance

/-- The width of an integer domain. -/
structure Width where
  bits : Nat
  pos : 1 ≤ bits
  le : bits ≤ 32
  deriving DecidableEq

/-- What a state variable ranges over: truth values, or two's complement integers of a fixed width. -/
inductive Domain where
  | bool
  | int (width : Width)
  deriving DecidableEq

namespace Domain

/-- The integers of the given width, where there is such a domain. -/
def ofBits (bits : Nat) : Except Fault Domain :=
  if h : 1 ≤ bits ∧ bits ≤ 32 then .ok (.int ⟨bits, h.1, h.2⟩) else .error .integerWidth

/-- How many bits a value takes. -/
def bits : Domain → Nat
  | .bool => 1
  | .int w => w.bits

def isBool : Domain → Bool
  | .bool => true
  | .int _ => false

/-- Place of a domain among all domains: truth values come first, then the integers by their width. -/
def rank : Domain → Nat
  | .bool => 0
  | .int w => w.bits

instance : Ord Domain := ⟨compareOn rank⟩

instance : Std.TransOrd Domain := inferInstanceAs (Std.TransCmp (compareOn rank))

theorem rank_injective {a b : Domain} (h : a.rank = b.rank) : a = b := by
  match a, b with
  | .bool, .bool => rfl
  | .bool, .int w => exact absurd h (Nat.ne_of_lt w.pos)
  | .int w, .bool => exact absurd h (Nat.ne_of_gt w.pos)
  | .int ⟨v, _, _⟩, .int ⟨w, _, _⟩ => cases h; rfl

instance : Std.LawfulEqOrd Domain where
  compare_self := Nat.compare_eq_eq.mpr rfl
  eq_of_compare h := rank_injective (Nat.compare_eq_eq.mp h)

def text : Domain → String
  | .bool => "bool"
  | .int w => "i" ++ toString w.bits

end Domain

/-- A truth value or an integer. -/
inductive Value where
  | bool (b : Bool)
  | int (v : Int64)
  deriving DecidableEq

namespace Value

/-- What a variable holds that nothing constrains. -/
def default : Domain → Value
  | .bool => .bool false
  | .int _ => .int 0

def toBool? : Value → Option Bool
  | .bool b => some b
  | .int _ => none

def toInt? : Value → Option Int64
  | .bool _ => none
  | .int v => some v

/-- Is the value a member of the domain? An integer is if cutting it to the width changes nothing. -/
def fits : Value → Domain → Bool
  | .bool _, .bool => true
  | .int v, .int w => Word.truncate v w.bits == v
  | .bool _, .int _ | .int _, .bool => false

/-- The kind of a value and its number, by which values are ordered: truth values come before integers. -/
def kind : Value → Nat
  | .bool _ => 0
  | .int _ => 1

def number : Value → Int
  | .bool b => b.toNat
  | .int v => v.toInt

instance : Ord Value := ⟨compareLex (compareOn kind) (compareOn number)⟩

instance : Std.TransOrd Value :=
  inferInstanceAs (Std.TransCmp (compareLex (compareOn kind) (compareOn number)))

theorem eq_of_kind_of_number {v w : Value} (hk : v.kind = w.kind) (hn : v.number = w.number) : v = w := by
  match v, w with
  | .bool a, .bool b => cases a <;> cases b <;> simp_all [number]
  | .bool _, .int _ => simp [kind] at hk
  | .int _, .bool _ => simp [kind] at hk
  | .int a, .int b => exact congrArg _ (Int64.toInt_inj.mp hn)

theorem compare_eq_iff {v w : Value} : compare v w = .eq ↔ v = w := by
  refine Ordering.then_eq_eq.trans ((and_congr Std.LawfulEqOrd.compare_eq_iff_eq
    Std.LawfulEqOrd.compare_eq_iff_eq).trans ⟨fun h => eq_of_kind_of_number h.1 h.2, ?_⟩)
  rintro rfl
  exact ⟨rfl, rfl⟩

instance : Std.LawfulEqOrd Value where
  compare_self := compare_eq_iff.mpr rfl
  eq_of_compare := compare_eq_iff.mp

def text : Value → String
  | .bool b => if b then "true" else "false"
  | .int v => toString v.toInt

end Value

end Invariance
