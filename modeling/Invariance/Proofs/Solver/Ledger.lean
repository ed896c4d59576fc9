import Invariance.Proofs.Solver.Calls
import Invariance.Proofs.Solver.Protocol

/-!
The account of the exchanges with a solver: what is asserted in which scope, how many checks were made, and which
interpolants came back. Rules say in which state of the account a check may be made and an interpolant asked for, and
conversations that follow them are put together from what each request does to the account.
-/

namespace Invariance

namespace Exchange

/-- The call that was made. All strategies ask for interpolants of the same pattern. -/
def call : Exchange → Call
  | assert side e _ => .assert side e
  | push => .push
  | pop _ => .pop
  | check _ => .check
  | model _ => .model
  | interpolant _ => .interpolant .forward

/-- What came back from the call. -/
def answer : Exchange → Answer
  | assert _ _ answer => answer.map fun _ => none
  | push => .ok none
  | pop answer => answer.map fun _ => none
  | check answer => answer.map some
  | model answer => answer.map fun _ => none
  | interpolant answer => answer.map fun _ => none

/-- The interpolant that was received. -/
def interpolant? : Exchange → Option Formula
  | interpolant (.ok e) => some e
  | _ => none

end Exchange

/-- The account of the exchanges with a solver that had no assertions. -/
structure Ledger where
  /-- What is asserted, scope by scope. -/
  context : Context := {}
  /-- The number of checks made in a scope that was opened. -/
  nested : Nat := 0
  /-- The interpolants received. -/
  received : List Formula := []
  /-- The last of them was received after the last check. -/
  fresh : Bool := false

namespace Ledger

/-- The account after one more exchange. What fails asserts nothing, and opens and closes no scope. -/
def enter (l : Ledger) (x : Exchange) : Ledger :=
  let context := x.call.after l.context x.answer
  match x with
  | .check (.ok _) =>
      { l with context, nested := if l.context.outer.isEmpty then l.nested else l.nested + 1, fresh := false }
  | .interpolant (.ok e) => { l with context, received := l.received ++ [e], fresh := true }
  | _ => { l with context }

/-- The account after the exchanges of a log. -/
def enterAll (l : Ledger) (log : List Exchange) : Ledger :=
  log.foldl enter l

@[simp] theorem enterAll_nil (l : Ledger) : l.enterAll [] = l :=
  rfl

theorem enterAll_append (l : Ledger) (log log' : List Exchange) :
    l.enterAll (log ++ log') = (l.enterAll log).enterAll log' :=
  List.foldl_append

@[simp] theorem enterAll_concat (l : Ledger) (log : List Exchange) (x : Exchange) :
    l.enterAll (log ++ [x]) = (l.enterAll log).enter x := by
  rw [enterAll_append]
  rfl

theorem received_enter (l : Ledger) (x : Exchange) :
    (l.enter x).received = l.received ++ x.interpolant?.toList := by
  cases x with
  | assert | push | pop | model => exact (List.append_nil _).symm
  | check answer =>
      cases answer with
      | ok | error => exact (List.append_nil _).symm
  | interpolant answer =>
      cases answer with
      | ok => rfl
      | error => exact (List.append_nil _).symm

/-- All interpolants of a log are received. -/
theorem received_enterAll (l : Ledger) (log : List Exchange) :
    (l.enterAll log).received = l.received ++ log.filterMap Exchange.interpolant? := by
  induction log using List.reverseRecOn with
  | nil => simp
  | append_singleton log x ih =>
      rw [enterAll_concat, received_enter, ih, List.filterMap_append, List.append_assoc]
      cases hx : x.interpolant? <;> simp [hx]

theorem enter_pop {l : Ledger} {scope : List Assertion} {outer : List (List Assertion)}
    (h : l.context.outer = scope :: outer) : l.enter (.pop (.ok ())) = { l with context := ⟨outer, scope, none⟩ } := by
  have hafter : Call.pop.after l.context (.ok none) = ⟨outer, scope, none⟩ := by
    rw [Call.after, h]
  change { l with context := Call.pop.after l.context (.ok none) } = _
  rw [hafter]

end Ledger

/-- The states of the account in which a check may be made, and in which an interpolant may be asked for. -/
structure Rules where
  check : Ledger → Prop
  interpolant : Ledger → Prop

/-- The exchange may be entered. -/
def Rules.Allow (R : Rules) (l : Ledger) : Exchange → Prop
  | .check _ => R.check l
  | .interpolant _ => R.interpolant l
  | .assert .. | .push | .pop _ | .model _ => True

/-- All exchanges of a log follow the rules, the account being `l` before the first of them. -/
def Rules.Cover (R : Rules) (l : Ledger) (log : List Exchange) : Prop :=
  ∀ before x after, log = before ++ x :: after → R.Allow (l.enterAll before) x

section Logs

variable {R R' : Rules} {l : Ledger} {log log' : List Exchange} {x : Exchange}

@[simp] theorem Rules.cover_nil : R.Cover l [] := by
  intro before x after h
  simp at h

theorem Rules.cover_concat : R.Cover l (log ++ [x]) ↔ R.Cover l log ∧ R.Allow (l.enterAll log) x := by
  constructor
  · intro h
    refine ⟨fun before y after heq => h before y (after ++ [x]) (by simp [heq]), h log x [] rfl⟩
  · rintro ⟨h, hx⟩ before y after heq
    rcases concat_cases heq with rfl | ⟨rest, rfl, hlog⟩
    · obtain ⟨rfl, rfl⟩ := List.append_singleton_inj.mp heq
      exact hx
    · exact h before y rest hlog

theorem Rules.Cover.mono (h : R.Cover l log) (hcheck : ∀ l, R.check l → R'.check l)
    (hinterpolant : ∀ l, R.interpolant l → R'.interpolant l) : R'.Cover l log := by
  intro before x after heq
  have hx := h before x after heq
  cases x with
  | check => exact hcheck _ hx
  | interpolant => exact hinterpolant _ hx
  | assert | push | pop | model => trivial

/-- Where no interpolant may be asked for, none is received. -/
theorem Rules.Cover.interpolants_eq_nil (h : R.Cover l log) (hnone : ∀ l, ¬ R.interpolant l) :
    log.filterMap Exchange.interpolant? = [] := by
  rw [List.filterMap_eq_nil_iff]
  intro x hx
  obtain ⟨before, after, heq⟩ := List.append_of_mem hx
  cases x with
  | assert | push | pop | check | model => rfl
  | interpolant answer => exact absurd (h before _ after heq) (hnone _)

end Logs

/-- Begun in the state `l` of the account, the conversation follows the rules, and comes to a state as `Q` says unless it
is cut short. -/
def Enters {σ α : Type} (R : Rules) (talk : Talk σ α) (l : Ledger) (Q : α → Ledger → Prop) : Prop :=
  ∀ (start : Ledger) (ses : Session σ), R.Cover start ses.log.toList → start.enterAll ses.log.toList = l →
    Meets talk ses (fun a t => R.Cover start t.log.toList ∧ Q a (start.enterAll t.log.toList))
      fun _ t => R.Cover start t.log.toList

namespace Enters

variable {σ α β : Type} {R : Rules} {l : Ledger} {Q Q' : α → Ledger → Prop} {side : Option Partition}

theorem imp {talk : Talk σ α} (h : Enters R talk l Q) (hQ : ∀ a l', Q a l' → Q' a l') : Enters R talk l Q' :=
  fun start ses hs hl => (h start ses hs hl).imp fun _ _ ht => ⟨ht.1, hQ _ _ ht.2⟩

theorem bind {talk : Talk σ α} {f : α → Talk σ β} {P : β → Ledger → Prop} (h : Enters R talk l Q)
    (hf : ∀ a l', Q a l' → Enters R (f a) l' P) : Enters R (talk >>= f) l P :=
  fun start ses hs hl => (h start ses hs hl).bind fun a t ht => hf a _ ht.2 start t ht.1 rfl

theorem pure {a : α} (h : Q a l) : Enters (σ := σ) R (pure a) l Q := by
  intro start ses hs hl
  subst hl
  exact ⟨hs, h⟩

theorem throw {e : Halt CheckError} : Enters (σ := σ) R (throw e) l Q :=
  fun _ _ hs _ => hs

theorem ofFault {x : Except Fault α} (h : ∀ a, x = .ok a → Q a l) : Enters (σ := σ) R (Talk.ofFault x) l Q := by
  cases x with
  | ok a => exact .pure (h a rfl)
  | error f => exact .throw

/-- A result from outside the solver, and what is done with it. -/
theorem bind_ofFault {x : Except Fault α} {f : α → Talk σ β} {P : β → Ledger → Prop}
    (h : ∀ a, x = .ok a → Enters R (f a) l P) : Enters R (Talk.ofFault x >>= f) l P :=
  (ofFault (Q := fun a l' => x = .ok a ∧ l' = l) fun _ ha => ⟨ha, rfl⟩).bind fun _ _ ⟨ha, hl⟩ => hl ▸ h _ ha

theorem request {note : Except (Halt SolverError) α → Exchange} (r : Request σ α) (hx : ∀ answer, R.Allow l (note answer))
    (hQ : ∀ a, Q a (l.enter (note (.ok a)))) : Enters R (Talk.request note r) l Q := by
  intro start ses hs hl
  subst hl
  refine Talk.meets_request.mpr (meets_of_forall (fun a t => ?_) fun e t => ?_)
  · rw [Array.toList_push, Ledger.enterAll_concat]
    exact ⟨Rules.cover_concat.mpr ⟨hs, hx _⟩, hQ a⟩
  · rw [Array.toList_push]
    exact Rules.cover_concat.mpr ⟨hs, hx _⟩

variable [Solver σ]

theorem assert {e : Formula} {Q : Unit → Ledger → Prop} (h : Q () { l with context := l.context.assert side e }) :
    Enters (σ := σ) R (Talk.assert side e) l Q :=
  request _ (fun _ => trivial) fun _ => h

theorem assertAll {es : List Formula} {Q : Unit → Ledger → Prop}
    (h : Q () { l with context := l.context.assertAll side es }) : Enters (σ := σ) R (Talk.assertAll side es) l Q := by
  induction es generalizing l with
  | nil => exact .pure h
  | cons e es ih =>
      refine (Enters.assert (Q := fun _ l' => l' = { l with context := l.context.assert side e }) rfl).bind ?_
      intro _ _ hl
      subst hl
      exact ih h

theorem push {Q : Unit → Ledger → Prop} (h : Q () { l with context := l.context.push }) :
    Enters (σ := σ) R Talk.push l Q := by
  intro start ses hs hl
  subst hl
  have hnext : R.Cover start (ses.log.toList ++ [.push]) ∧ Q () (start.enterAll (ses.log.toList ++ [.push])) := by
    rw [Ledger.enterAll_concat]
    exact ⟨Rules.cover_concat.mpr ⟨hs, trivial⟩, h⟩
  rw [← Array.toList_push] at hnext
  exact hnext

theorem pop {scope : List Assertion} {outer : List (List Assertion)} (hl : l.context.outer = scope :: outer)
    {Q : Unit → Ledger → Prop} (h : Q () { l with context := ⟨outer, scope, none⟩ }) :
    Enters (σ := σ) R Talk.pop l Q := by
  refine request _ (fun _ => trivial) fun _ => ?_
  rw [← Ledger.enter_pop hl] at h
  exact h

/-- The end of a conversation in a scope of its own. -/
theorem close {a : α} {scope : List Assertion} {outer : List (List Assertion)} (hl : l.context.outer = scope :: outer)
    (h : Q a { l with context := ⟨outer, scope, none⟩ }) : Enters (σ := σ) R (do Talk.pop; return a) l Q :=
  (Enters.pop (Q := fun _ => Q a) hl h).bind fun _ _ hl' => .pure hl'

theorem check {Q : Status → Ledger → Prop} (hR : R.check l) (h : ∀ status, Q status (l.enter (.check (.ok status)))) :
    Enters (σ := σ) R Talk.check l Q :=
  request _ (fun _ => hR) h

theorem model {Q : Model → Ledger → Prop} (h : ∀ m, Q m l) : Enters (σ := σ) R Talk.model l Q :=
  request _ (fun _ => trivial) h

theorem interpolant {pattern : Pattern} {Q : Formula → Ledger → Prop} (hR : R.interpolant l)
    (h : ∀ e, Q e { l with received := l.received ++ [e], fresh := true }) :
    Enters (σ := σ) R (Talk.interpolant pattern) l Q :=
  request _ (fun _ => hR) h

/-- A conversation in a scope that is closed in any case but a fault. -/
theorem andFinally {talk : Talk σ α} (h : Enters R talk l Q) {P : α → Ledger → Prop}
    (hclose : ∀ a l', Q a l' → ∃ scope outer, l'.context.outer = scope :: outer ∧
      P a { l' with context := ⟨outer, scope, none⟩ }) :
    Enters R (Talk.andFinally talk Talk.pop) l P := by
  intro start ses hs hl
  rw [Talk.andFinally, meets_bind, meets_tryCatch, meets_bind]
  refine (h start ses hs hl).mono (fun a t ht => ?_) fun e t ht => ?_
  · obtain ⟨scope, outer, houter, hP⟩ := hclose a _ ht.2
    exact ((Enters.pop (Q := fun _ => P a) houter hP) start t ht.1 rfl).bind fun _ _ ht' => ht'
  · cases e with
    | fault f => exact ht
    | error e =>
        have hpop : Enters (σ := σ) R Talk.pop (start.enterAll t.log.toList) fun _ _ => True :=
          request _ (fun _ => trivial) fun _ => trivial
        exact (hpop start t ht rfl).bind fun _ _ ht' => ht'.1

end Enters

end Invariance
