import Invariance.Valuation

/-! Traces through the states of a system, and updates as the actions between two states. -/

namespace Invariance

/-- A first state, then actions and the states they lead to. -/
structure Trace (S A : Type) where
  start : S
  steps : List (A × S)

namespace Trace

variable {S A : Type}

/-- The states in order. -/
def states (t : Trace S A) : List S :=
  t.start :: t.steps.map (·.2)

/-- The actions in order. -/
def actions (t : Trace S A) : List A :=
  t.steps.map (·.1)

/-- The number of actions. -/
def length (t : Trace S A) : Nat :=
  t.steps.length

/-- The trace with the given states and actions, of which there is one between each two states. -/
def ofLists : List S → List A → Except Fault (Trace S A)
  | [], _ => .error .emptyTrace
  | s :: states, actions =>
    if actions.length = states.length then .ok ⟨s, actions.zip states⟩ else .error .unevenTrace

/-- The steps between states that follow each other, the first following `before`. -/
def stepsBetween (action : S → S → A) (before : S) : List S → List (A × S)
  | [] => []
  | s :: states => (action before s, s) :: stepsBetween action s states

/-- A trace with each state and each action turned into another. -/
def map {T B : Type} (f : S → T) (g : A → B) (t : Trace S A) : Trace T B where
  start := f t.start
  steps := t.steps.map fun (a, s) => (g a, f s)

/-- The steps from state number `i` on, each on two lines. -/
def stepsText (action : A → String) (state : S → String) : Nat → List (A × S) → String
  | _, [] => ""
  | i, (a, s) :: steps =>
    "  --[" ++ action a ++ "]-->\n" ++ toString i ++ ": " ++ state s ++ "\n" ++
      stepsText action state (i + 1) steps

/-- The numbered states with the actions between them. -/
def text (state : S → String) (action : A → String) (t : Trace S A) : String :=
  "0: " ++ state t.start ++ "\n" ++ stepsText action state 1 t.steps

end Trace

/-- A variable that changes its value. -/
structure Change where
  var : Variable
  before : Value
  after : Value
  deriving DecidableEq

def Change.text (c : Change) : String :=
  c.var.name ++ ": " ++ c.before.text ++ " -> " ++ c.after.text

/-- The change of a variable to the value `new`, unless it had that value. One that was not bound had no value,
and counts as changed from the default. -/
def Change.of? (before : Valuation) (x : Variable) (new : Value) : Option Change :=
  match before.get? x with
  | some old => if old = new then none else some ⟨x, old, new⟩
  | none => some ⟨x, .default x.domain, new⟩

/-- The variables that change in a step, in their order. -/
abbrev Update := List Change

namespace Update

/-- What differs in the second state. -/
def between (before after : Valuation) : Update :=
  after.toList.filterMap fun e => Change.of? before e.1 e.2

/-- Does nothing change? -/
def isStutter (u : Update) : Bool :=
  u.isEmpty

def text (u : Update) : String :=
  if u.isEmpty then "skip" else String.intercalate ", " (u.map Change.text)

end Update

/-- How states and actions of traces are made from valuations. -/
structure Reconstruction (S A : Type) where
  state : Valuation → S
  action : Valuation → Valuation → A

namespace Reconstruction

/-- States as they are, and updates between them. -/
def explicit : Reconstruction Valuation Update where
  state := id
  action := Update.between

/-- The trace through a sequence of states. -/
def trace {S A : Type} (r : Reconstruction S A) (first : Valuation) (rest : List Valuation) : Trace S A where
  start := r.state first
  steps := (Trace.stepsBetween r.action first rest).map fun (a, s) => (a, r.state s)

end Reconstruction

end Invariance
