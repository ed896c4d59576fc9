import Invariance.Diagram.Edge
import Invariance.Slots.Interning
import Invariance.Slots.Memo

/-!
The manager of reduced ordered decision diagrams. All diagrams share one interning table, whose first entry is
the terminal; a node decides a variable, and variables grow from the root down. A node with equal children is
not stored, nor one with a negated high edge, so that equal functions have equal edges.
-/

namespace Invariance.Diagram

open Slots

/-- A decision: the function `high` where the variable is true, and `low` where it is false. -/
structure Node where
  var : Nat
  low : Edge
  high : Edge
  deriving DecidableEq

instance : Coded Node :=
  ⟨fun n => triple (.ofNat n.var) n.low.unsigned.toUInt64 n.high.unsigned.toUInt64⟩

/-- The terminal decides nothing. -/
def Node.terminal : Node where
  var := 0
  low := .ofNode 0 false
  high := .ofNode 0 false

/-- A choice between two functions by a third. -/
structure Choice where
  test : Edge
  yes : Edge
  no : Edge
  deriving DecidableEq

instance : Coded Choice :=
  ⟨fun c => triple c.test.unsigned.toUInt64 c.yes.unsigned.toUInt64 c.no.unsigned.toUInt64⟩

/-- All nodes made so far, and the choices remembered. -/
structure Manager where
  nodes : Interning Node
  choices : Memo Choice Edge

namespace Manager

/-- A manager with the terminal alone, and with the given memo. -/
def withMemo (bits : Nat) (choices : Memo Choice Edge) : Except Fault Manager := do
  let nodes ← Interning.ofBits bits
  return { nodes := (nodes.add .terminal).2, choices }

/-- A manager with the terminal alone. The bits size its table and, up to 16, its memo. -/
def ofBits (bits : Nat) : Except Fault Manager := do
  let nodes ← Interning.ofBits bits
  return { nodes := (nodes.add .terminal).2, choices := ← Memo.ofBits (min bits 16) }

/-- How many bits size a manager of which nothing else is known. -/
def defaultBits : Nat := 16

/-- The number of nodes, the terminal included. -/
def size (m : Manager) : Nat :=
  m.nodes.size

@[inline]
def node (m : Manager) (i : Nat) : Except Fault Node :=
  m.nodes.get i

/-- The variable that the edge's node decides. -/
@[inline]
def var (m : Manager) (e : Edge) : Except Fault Nat :=
  return (← m.node e.index).var

/-- The function below the edge where its variable is false. -/
@[inline]
def low (m : Manager) (e : Edge) : Except Fault Edge :=
  return (← m.node e.index).low.flipIf e.negated

/-- The function below the edge where its variable is true. -/
@[inline]
def high (m : Manager) (e : Edge) : Except Fault Edge :=
  return (← m.node e.index).high.flipIf e.negated

/-- What the manager holds and how often its memo was asked. -/
def text (m : Manager) : String :=
  "Bdd \x7b nodes: " ++ toString m.size ++ ", cache_hits: " ++ toString m.choices.hits ++
    ", cache_misses: " ++ toString m.choices.misses ++ " \x7d"

end Manager

/-- Work on the manager. A fault leaves the manager as it was when the fault occurred. -/
abbrev Build := ExceptT Fault (StateM Manager)

namespace Build

/-- Asks the manager a question that does not change it. -/
@[inline]
def ask {α : Type} (question : Manager → Except Fault α) : Build α :=
  ExceptT.mk fun m => (question m, m)

/-- The edge to a node, which is stored unless it already is. -/
@[inline]
def intern (n : Node) : Build Edge :=
  modifyGet fun ⟨nodes, choices⟩ =>
    match nodes.put n with
    | (i, nodes) => (.ofNode i false, ⟨nodes, choices⟩)

/-- The function that is `high` where the variable `v` is true and `low` elsewhere. -/
def mkNode (v : Nat) (low high : Edge) : Build Edge := do
  if v = 0 then throw .zeroVariable
  if low = high then return low
  if high.negated then return (← intern ⟨v, low.not, high.not⟩).not
  intern ⟨v, low, high⟩

/-- The variable `v` as a function. -/
def mkVar (v : Nat) : Build Edge :=
  mkNode v .zero .one

/-- Puts a literal in front of the first one whose variable is not deeper. -/
def placeLiteral (l : Int) : List Int → List Int
  | [] => [l]
  | k :: ks => if k.natAbs ≤ l.natAbs then l :: k :: ks else k :: placeLiteral l ks

/-- The literals from the deepest variable up; those on one variable keep their order. -/
def deepestFirst : List Int → List Int
  | [] => []
  | l :: ls => placeLiteral l (deepestFirst ls)

/-- The conjunction of the literals, `-v` standing for the complement of `v`. It is stacked up from the deepest
variable. -/
def cube (literals : List Int) : Build Edge :=
  (deepestFirst literals).foldlM (fun acc l =>
    if l = 0 then throw .zeroVariable
    else if 0 < l then mkNode l.natAbs .zero acc
    else mkNode l.natAbs acc .zero) .one

end Build

end Invariance.Diagram
