import Invariance.Diagram.Manager

/-!
The choice between two functions by a third, and the connectives made of it. A choice is first brought to a
standard form, in which the test and the first function are not negated, and is then split by the topmost
variable. Each split leads to nodes with smaller numbers, which bounds the recursion.
-/

namespace Invariance.Diagram

namespace Choice

/-- A choice that is settled at once, or one to be split, whose outcome is to be negated or not. -/
inductive Form where
  | settled (e : Edge)
  | split (flip : Bool) (c : Choice)

/-- Brings a choice with non-constant test to standard form. -/
@[inline]
def standard (c : Choice) : Form :=
  let c : Choice := if c.test.negated then ⟨c.test.not, c.no, c.yes⟩ else c
  if c.yes.negated then .split true ⟨c.test, c.yes.not, c.no.not⟩ else .split false c

/-- Where the test is known, it is a constant. -/
@[inline]
def specialize (c : Choice) : Choice where
  test := c.test
  yes := if c.yes = c.test then .one else if c.yes = c.test.not then .zero else c.yes
  no := if c.no = c.test then .zero else if c.no = c.test.not then .one else c.no

/-- Settles a choice that needs no new node, and standardizes the others. -/
@[inline]
def reduce (c : Choice) : Form :=
  if c.test = .one then .settled c.yes
  else if c.test = .zero then .settled c.no
  else
    let c := c.specialize
    if c.yes = c.no then .settled c.yes
    else if c.yes = .one ∧ c.no = .zero then .settled c.test
    else if c.yes = .zero ∧ c.no = .one then .settled c.test.not
    else c.standard

/-- A bound on the number of splits below a choice. -/
def depth (c : Choice) : Nat :=
  c.test.index + c.yes.index + c.no.index

end Choice

namespace Manager

/-- The smaller of `v` and the variable that the edge's node decides, if it decides one. -/
@[inline]
def above (m : Manager) (v : Nat) (e : Edge) : Except Fault Nat :=
  if e.isConst then return v else return min v (← m.var e)

/-- The topmost variable of a choice whose test is not constant. -/
@[inline]
def top (m : Manager) (c : Choice) : Except Fault Nat := do
  m.above (← m.above (← m.var c.test) c.yes) c.no

/-- The function where the variable `v` is false, and where it is true. No smaller variable may occur. -/
@[inline]
def cofactors (m : Manager) (v : Nat) (e : Edge) : Except Fault (Edge × Edge) := do
  if e.isConst then return (e, e)
  let n ← m.node e.index
  if n.var = v then return (n.low.flipIf e.negated, n.high.flipIf e.negated)
  return (e, e)

/-- The topmost variable of a choice, and the choices that remain where it is false and where it is true. -/
@[inline]
def split (m : Manager) (c : Choice) : Except Fault (Nat × Choice × Choice) := do
  let v ← m.top c
  let (f₀, f₁) ← m.cofactors v c.test
  let (g₀, g₁) ← m.cofactors v c.yes
  let (h₀, h₁) ← m.cofactors v c.no
  return (v, ⟨f₀, g₀, h₀⟩, ⟨f₁, g₁, h₁⟩)

end Manager

namespace Build

/-- What the memo has on a choice. -/
@[inline]
def remembered (c : Choice) : Build (Option Edge) :=
  modifyGet fun ⟨nodes, choices⟩ =>
    match choices.find c with
    | (r, choices) => (r, ⟨nodes, choices⟩)

/-- Tells the memo the outcome of a choice. -/
@[inline]
def remember (c : Choice) (r : Edge) : Build Unit :=
  modify fun ⟨nodes, choices⟩ => ⟨nodes, choices.insert c r⟩

/-- The outcome of a choice, with at most the given number of splits one below the other. -/
def chooseWithin : Nat → Choice → Build Edge
  | 0, _ => throw .exhausted
  | n + 1, c =>
    match c.reduce with
    | .settled e => return e
    | .split flip c => do
      match ← remembered c with
      | some r => return r.flipIf flip
      | none =>
        let (v, c₀, c₁) ← ask (·.split c)
        let low ← chooseWithin n c₀
        let high ← chooseWithin n c₁
        let r ← mkNode v low high
        remember c r
        return r.flipIf flip

/-- The function that is `g` where `f` is true and `h` elsewhere. -/
def ite (f g h : Edge) : Build Edge :=
  let c : Choice := ⟨f, g, h⟩
  chooseWithin (c.depth + 1) c

def and (f g : Edge) : Build Edge :=
  ite f g .zero

def or (f g : Edge) : Build Edge :=
  ite f .one g

def xor (f g : Edge) : Build Edge :=
  ite f g.not g

def eq (f g : Edge) : Build Edge :=
  ite f g g.not

def imply (f g : Edge) : Build Edge :=
  ite f g .one

/-- The conjunction of `acc` with functions made one after the other, none after the conjunction is false. -/
def andFrom (acc : Edge) : List (Build Edge) → Build Edge
  | [] => return acc
  | b :: bs => do
    let acc ← and acc (← b)
    if acc = .zero then return acc else andFrom acc bs

/-- The conjunction of a list of functions. -/
def andMany (fs : List Edge) : Build Edge :=
  andFrom .one (fs.map pure)

end Build

end Invariance.Diagram
