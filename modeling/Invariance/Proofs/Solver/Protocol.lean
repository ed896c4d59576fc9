import Invariance.Proofs.Solver.Contract

/-!
The protocol of requests to a solver. It is a property of the log of a session, whatever the answers in it: which
request may follow which, and how many scopes may be closed. Conversations are put together from rules that say how
many scopes are open before and after, and which check was the last exchange.
-/

namespace Invariance

namespace Exchange

/-- The exchange opens a scope. -/
def isPush : Exchange → Bool
  | push => true
  | assert .. | pop _ | check _ | model _ | interpolant _ => false

/-- The exchange is about closing a scope. -/
def isPop : Exchange → Bool
  | pop _ => true
  | assert .. | push | check _ | model _ | interpolant _ => false

/-- The solver refused the request, or faulted. -/
def failed : Exchange → Bool
  | push => false
  | assert _ _ answer => !answer.isOk
  | pop answer => !answer.isOk
  | check answer => !answer.isOk
  | model answer => !answer.isOk
  | interpolant answer => !answer.isOk

end Exchange

/-- What the protocol asks of the exchanges with one solver. -/
structure Orderly (log : List Exchange) : Prop where
  /-- A model is asked for only directly after a check that found one. -/
  model : ∀ before answer, before ++ [.model answer] <+: log → before.getLast? = some (.check (.ok .sat))
  /-- An interpolant is asked for only directly after a check that found a contradiction. -/
  interpolant : ∀ before answer, before ++ [.interpolant answer] <+: log →
    before.getLast? = some (.check (.ok .unsat))
  /-- At no point were more scopes closed than opened. -/
  scopes : ∀ before, before <+: log → before.countP Exchange.isPop ≤ before.countP Exchange.isPush

/-- All scopes opened were closed again. -/
def Closed (log : List Exchange) : Prop :=
  log.countP Exchange.isPush = log.countP Exchange.isPop

/-- The exchange may follow the log. -/
def Admits (log : List Exchange) : Exchange → Prop
  | .assert .. | .push | .check _ => True
  | .pop _ => log.countP Exchange.isPop < log.countP Exchange.isPush
  | .model _ => log.getLast? = some (.check (.ok .sat))
  | .interpolant _ => log.getLast? = some (.check (.ok .unsat))

section Logs

variable {log l l' : List Exchange} {x : Exchange}

theorem prefix_concat_cases {before : List Exchange} {y : Exchange} (h : before ++ [y] <+: log ++ [x]) :
    before = log ∧ y = x ∨ before ++ [y] <+: log :=
  (List.prefix_concat_iff.mp h).imp_left List.append_singleton_inj.mp

/-- An entry of a list with one more at its end is the last one, or one of those before. -/
theorem concat_cases {α : Type} {l before after : List α} {x y : α} (h : l ++ [x] = before ++ y :: after) :
    after = [] ∨ ∃ rest, after = rest ++ [x] ∧ l = before ++ y :: rest := by
  rcases List.eq_nil_or_concat' after with rfl | ⟨rest, z, rfl⟩
  · exact .inl rfl
  · rw [← List.cons_append, ← List.append_assoc, List.append_singleton_inj] at h
    obtain ⟨hlog, rfl⟩ := h
    exact .inr ⟨rest, rfl, hlog⟩

@[simp] theorem orderly_nil : Orderly [] where
  model := by simp
  interpolant := by simp
  scopes := by simp

/-- A log is in order if every exchange may follow those before it. -/
theorem orderly_concat : Orderly (log ++ [x]) ↔ Orderly log ∧ Admits log x := by
  constructor
  · intro h
    refine ⟨⟨fun before answer hp => h.model before answer (hp.trans (List.prefix_append _ _)),
      fun before answer hp => h.interpolant before answer (hp.trans (List.prefix_append _ _)),
      fun before hp => h.scopes before (hp.trans (List.prefix_append _ _))⟩, ?_⟩
    cases x with
    | assert | push | check => trivial
    | pop answer =>
        have hscopes := h.scopes _ (List.prefix_refl _)
        rw [List.countP_append, List.countP_append] at hscopes
        exact hscopes
    | model answer => exact h.model log answer (List.prefix_refl _)
    | interpolant answer => exact h.interpolant log answer (List.prefix_refl _)
  · rintro ⟨h, hx⟩
    constructor
    · intro before answer hp
      rcases prefix_concat_cases hp with ⟨rfl, rfl⟩ | hp
      · exact hx
      · exact h.model before answer hp
    · intro before answer hp
      rcases prefix_concat_cases hp with ⟨rfl, rfl⟩ | hp
      · exact hx
      · exact h.interpolant before answer hp
    · intro before hp
      rcases List.prefix_concat_iff.mp hp with rfl | hp
      · have hscopes := h.scopes log (List.prefix_refl _)
        rw [List.countP_append, List.countP_append]
        cases x with
        | assert | check | model | interpolant => exact hscopes
        | push => exact hscopes.trans (Nat.le_succ _)
        | pop answer => exact hx
      · exact h.scopes before hp

/-- What may follow a log may follow it after any log that left no scope open. -/
theorem Admits.append (hl : Closed l) (h : Admits l' x) : Admits (l ++ l') x := by
  cases x with
  | assert | push | check => trivial
  | pop answer =>
      simp only [Admits, List.countP_append] at h ⊢
      rw [Closed] at hl
      omega
  | model answer | interpolant answer =>
      simp only [Admits] at h ⊢
      rw [List.getLast?_append, h]
      rfl

theorem Orderly.append (h : Orderly l) (hl : Closed l) (h' : Orderly l') : Orderly (l ++ l') := by
  induction l' using List.reverseRecOn with
  | nil => rwa [List.append_nil]
  | append_singleton l' x ih =>
      obtain ⟨h', hx⟩ := orderly_concat.mp h'
      rw [← List.append_assoc]
      exact orderly_concat.mpr ⟨ih h', hx.append hl⟩

end Logs

/-! ### Conversations -/

/-- Where a conversation stands: the scopes it has open, and the answer of a check if that was the last exchange. -/
structure Standing where
  depth : Nat
  last : Option Status := none

/-- The log of a conversation that has come to `p`, with `b` scopes open around it. Nothing has failed. -/
structure Stands (b : Nat) (p : Standing) (log : List Exchange) : Prop where
  orderly : Orderly log
  granted : ∀ x ∈ log, ¬ x.failed = true
  depth : log.countP Exchange.isPop + (b + p.depth) = log.countP Exchange.isPush
  last : ∀ status, p.last = some status → log.getLast? = some (.check (.ok status))

/-- The log of a conversation that was cut short, with the `b` scopes around it open. -/
structure Breaks (b : Nat) (log : List Exchange) : Prop where
  orderly : Orderly log
  /-- Nothing follows what failed. -/
  ends : ∀ before x after, log = before ++ x :: after → x.failed = true → after = []
  depth : log.countP Exchange.isPop + b ≤ log.countP Exchange.isPush

section Standing

variable {b : Nat} {p q : Standing} {log l l' : List Exchange} {x : Exchange}

theorem stands_nil : Stands 0 ⟨0, none⟩ [] where
  orderly := orderly_nil
  granted := by simp
  depth := rfl
  last := by simp

theorem Stands.forget (h : Stands b p log) : Stands b ⟨p.depth, none⟩ log :=
  ⟨h.orderly, h.granted, h.depth, fun _ => nofun⟩

theorem Stands.closed (h : Stands 0 ⟨0, none⟩ log) : Closed log :=
  h.depth.symm

/-- The scopes around a conversation are those of a longer one. -/
theorem Stands.enter (h : Stands b ⟨1, none⟩ log) : Stands (b + 1) ⟨0, none⟩ log :=
  ⟨h.orderly, h.granted, h.depth, h.last⟩

theorem Stands.leave (h : Stands (b + 1) ⟨0, none⟩ log) : Stands b ⟨1, none⟩ log :=
  ⟨h.orderly, h.granted, h.depth, h.last⟩

theorem Stands.breaks (h : Stands b p log) : Breaks b log where
  orderly := h.orderly
  ends := by
    intro before x after heq hx
    exact absurd hx (h.granted x (by simp [heq]))
  depth := by
    have := h.depth
    omega

theorem Stands.append (h : Stands 0 ⟨0, none⟩ l) (h' : Stands 0 ⟨0, none⟩ l') : Stands 0 ⟨0, none⟩ (l ++ l') where
  orderly := h.orderly.append h.closed h'.orderly
  granted := List.forall_mem_append.mpr ⟨h.granted, h'.granted⟩
  depth := by
    have hl := h.closed
    have hl' := h'.closed
    rw [Closed] at hl hl'
    rw [List.countP_append, List.countP_append, hl, hl']
    rfl
  last := by simp

/-- The next exchange, if it is granted. -/
theorem Stands.concat (h : Stands b p log) (hx : Admits log x) (hgranted : ¬ x.failed = true)
    (hdepth : p.depth + [x].countP Exchange.isPush = q.depth + [x].countP Exchange.isPop)
    (hlast : ∀ status, q.last = some status → x = .check (.ok status)) : Stands b q (log ++ [x]) where
  orderly := orderly_concat.mpr ⟨h.orderly, hx⟩
  granted := by
    intro y hy
    rcases List.mem_append.mp hy with hy | hy
    · exact h.granted y hy
    · rwa [List.mem_singleton.mp hy]
  depth := by
    have := h.depth
    rw [List.countP_append, List.countP_append]
    omega
  last := by
    intro status hstatus
    rw [List.getLast?_concat, hlast status hstatus]

/-- The next exchange, whether it is granted or not. -/
theorem Stands.breaks_concat (h : Stands b p log) (hx : Admits log x)
    (hdepth : [x].countP Exchange.isPop ≤ p.depth) : Breaks b (log ++ [x]) where
  orderly := orderly_concat.mpr ⟨h.orderly, hx⟩
  ends := by
    intro before y after heq hy
    rcases concat_cases heq with hend | ⟨rest, -, hlog⟩
    · exact hend
    · exact absurd hy (h.granted y (by simp [hlog]))
  depth := by
    have := h.depth
    rw [List.countP_append, List.countP_append]
    omega

end Standing

/-- Begun at `p`, with `b` scopes open around it, the conversation comes to `q`, or is cut short in order. -/
def Keeps {σ α : Type} (b : Nat) (talk : Talk σ α) (p : Standing) (q : α → Standing) : Prop :=
  ∀ ses, Stands b p ses.log.toList →
    Meets talk ses (fun a t => Stands b (q a) t.log.toList) fun _ t => Breaks b t.log.toList

namespace Keeps

variable {σ α β : Type} {b k : Nat} {p p' : Standing} {q : α → Standing} {last : Option Status}

theorem bind {talk : Talk σ α} {f : α → Talk σ β} {r : β → Standing} (h : Keeps b talk p q)
    (hf : ∀ a, Keeps b (f a) (q a) r) : Keeps b (talk >>= f) p r :=
  fun ses hs => (h ses hs).bind fun a t ht => hf a t ht

theorem pure (a : α) : Keeps (σ := σ) b (pure a) ⟨k, last⟩ fun _ => ⟨k, none⟩ :=
  fun _ hs => hs.forget

theorem throw (e : Halt CheckError) : Keeps (σ := σ) b (throw e) p q :=
  fun _ hs => hs.breaks

/-- What goes on outside the solver leaves the session as it is. -/
theorem ofFault (x : Except Fault α) : Keeps (σ := σ) b (Talk.ofFault x) p fun _ => p := by
  cases x with
  | ok a => exact fun _ hs => hs
  | error f => exact Keeps.throw _

theorem forM {f : β → Talk σ Unit} (h : ∀ a, Keeps b (f a) ⟨k, none⟩ fun _ => ⟨k, none⟩) (l : List β) :
    Keeps b (l.forM f) ⟨k, none⟩ fun _ => ⟨k, none⟩ :=
  fun _ hs => meets_forM (fun _ (t : Session σ) => Stands b ⟨k, none⟩ t.log.toList)
    (fun _ a _ t _ ht => h a t ht) hs

/-- A request that may be put where the conversation stands. -/
theorem request {note : Except (Halt SolverError) α → Exchange} (r : Request σ α)
    (hx : ∀ log answer, Stands b p log → Admits log (note answer))
    (hok : ∀ a, ¬ (note (.ok a)).failed = true)
    (hdepth : ∀ answer, [note answer].countP Exchange.isPop ≤ p.depth)
    (hnext : ∀ a, p.depth + [note (.ok a)].countP Exchange.isPush =
      (q a).depth + [note (.ok a)].countP Exchange.isPop)
    (hlast : ∀ a status, (q a).last = some status → note (.ok a) = .check (.ok status)) :
    Keeps b (Talk.request note r) p q := by
  intro ses hs
  refine Talk.meets_request.mpr (meets_of_forall (fun a t => ?_) fun e t => ?_)
  · rw [Array.toList_push]
    exact hs.concat (hx _ _ hs) (hok a) (hnext a) (hlast a)
  · rw [Array.toList_push]
    exact hs.breaks_concat (hx _ _ hs) (hdepth _)

variable [Solver σ]

theorem assert (side : Option Partition) (e : Formula) :
    Keeps (σ := σ) b (Talk.assert side e) ⟨k, last⟩ fun _ => ⟨k, none⟩ :=
  request _ (fun _ _ _ => trivial) (fun _ => Bool.false_ne_true) (fun _ => Nat.zero_le _) (fun _ => rfl) fun _ _ => nofun

theorem assertAll (side : Option Partition) (es : List Formula) :
    Keeps (σ := σ) b (Talk.assertAll side es) ⟨k, none⟩ fun _ => ⟨k, none⟩ :=
  forM (assert side) es

theorem push : Keeps (σ := σ) b Talk.push ⟨k, last⟩ fun _ => ⟨k + 1, none⟩ := by
  intro ses hs
  have hnext : Stands b ⟨k + 1, none⟩ (ses.log.toList ++ [.push]) := hs.concat trivial Bool.false_ne_true rfl fun _ => nofun
  rw [← Array.toList_push] at hnext
  exact hnext

/-- A scope opened in the conversation can be closed. -/
theorem pop : Keeps (σ := σ) b Talk.pop ⟨k + 1, last⟩ fun _ => ⟨k, none⟩ := by
  refine request _ (fun log _ hs => ?_) (fun _ => Bool.false_ne_true) (fun _ => Nat.succ_pos k) (fun _ => rfl) fun _ _ => nofun
  have := hs.depth
  simp only [Admits] at this ⊢
  omega

theorem check : Keeps (σ := σ) b Talk.check ⟨k, last⟩ fun status => ⟨k, some status⟩ :=
  request _ (fun _ _ _ => trivial) (fun _ => Bool.false_ne_true) (fun _ => Nat.zero_le _) (fun _ => rfl) fun _ _ h => by
    cases h
    rfl

theorem model : Keeps (σ := σ) b Talk.model ⟨k, some .sat⟩ fun _ => ⟨k, none⟩ :=
  request _ (fun _ _ hs => hs.last _ rfl) (fun _ => Bool.false_ne_true) (fun _ => Nat.zero_le _) (fun _ => rfl) fun _ _ => nofun

theorem interpolant (pattern : Pattern) :
    Keeps (σ := σ) b (Talk.interpolant pattern) ⟨k, some .unsat⟩ fun _ => ⟨k, none⟩ :=
  request _ (fun _ _ hs => hs.last _ rfl) (fun _ => Bool.false_ne_true) (fun _ => Nat.zero_le _) (fun _ => rfl) fun _ _ => nofun

end Keeps

/-! ### Closing after a failure -/

/-- The log of a conversation that was cut short. What failed is the end of it, but for a scope that is closed if `closing`. -/
structure Ends (closing : Prop) (log : List Exchange) : Prop where
  orderly : Orderly log
  ends : ∀ before x after, log = before ++ x :: after → x.failed = true →
    after = [] ∨ closing ∧ ∃ answer, after = [.pop answer]

section Ends

variable {b : Nat} {closing : Prop} {log : List Exchange}

theorem Breaks.ends_log (h : Breaks b log) : Ends closing log :=
  ⟨h.orderly, fun before x after heq hx => .inl (h.ends before x after heq hx)⟩

/-- One of the scopes around a conversation that was cut short is closed. -/
theorem Breaks.close (h : Breaks (b + 1) log) (hclosing : closing) (answer : Except (Halt SolverError) Unit) :
    Ends closing (log ++ [.pop answer]) where
  orderly := by
    have hadmits : Admits log (.pop answer) := by
      have := h.depth
      simp only [Admits]
      omega
    exact orderly_concat.mpr ⟨h.orderly, hadmits⟩
  ends := by
    intro before x after heq hx
    rcases concat_cases heq with hend | ⟨rest, rfl, hlog⟩
    · exact .inl hend
    · rw [h.ends before x rest hlog hx]
      exact .inr ⟨hclosing, answer, rfl⟩

end Ends

/-- A conversation in a scope that is closed in any case but a fault. -/
theorem Keeps.andFinally {σ α : Type} [Solver σ] {b : Nat} {talk : Talk σ α}
    (h : Keeps (b + 1) talk ⟨0, none⟩ fun _ => ⟨0, none⟩) {ses : Session σ} (hs : Stands b ⟨1, none⟩ ses.log.toList) :
    Meets (Talk.andFinally talk Talk.pop) ses (fun _ t => Stands b ⟨0, none⟩ t.log.toList)
      fun _ t => Ends True t.log.toList := by
  rw [Talk.andFinally, meets_bind, meets_tryCatch, meets_bind]
  refine (h ses hs.enter).mono (fun a t ht => ?_) fun e t ht => ?_
  · have hpop : Meets (Talk.pop : Talk σ Unit) t (fun _ t' => Stands b ⟨0, none⟩ t'.log.toList)
        fun _ t' => Ends True t'.log.toList :=
      (Keeps.pop t ht.leave).mono (fun _ _ ht' => ht') fun _ _ ht' => ht'.ends_log
    exact hpop.bind fun _ _ ht' => ht'
  · cases e with
    | fault f => exact ht.ends_log
    | error e =>
        have hclose : Meets (Talk.pop : Talk σ Unit) t (fun _ t' => Ends True t'.log.toList)
            fun _ t' => Ends True t'.log.toList := by
          refine Talk.meets_request.mpr (meets_of_forall (fun a t' => ?_) fun e t' => ?_)
          · rw [Array.toList_push]
            exact ht.close trivial _
          · rw [Array.toList_push]
            exact ht.close trivial _
        exact hclose.bind fun _ _ ht' => ht'

end Invariance
