import Invariance.Proofs.Engine.Constraints
import Invariance.Proofs.Engine.Reindexing

/-!
Turns of the search as one conversation. What the search asserts and asks for a frame is the same in all unrollings that
have the frame, and each turn takes up the frames where the last one left them. What it does depends on the solver, and
not on the exchanges before it. Turns over growing unrollings are therefore one turn over the last of them.
-/

namespace Invariance

/-! ### Frames of several unrollings -/

namespace Unrolling

variable {s : TransitionSystem} {u v w : Unrolling} {f i k n : Nat}

/-- Two unrollings have the same frames up to the given one, and the same steps between them. -/
structure AgreesTo (f : Nat) (u v : Unrolling) : Prop where
  system : v.system = u.system
  vars : v.vars = u.vars
  init : v.init = u.init
  clockAt : ∀ i ≤ f, v.clockAt i = u.clockAt i
  stepAt : ∀ i < f, v.stepAt i = u.stepAt i

namespace AgreesTo

theorem mono (h : AgreesTo f u v) (hi : i ≤ f) : AgreesTo i u v where
  system := h.system
  vars := h.vars
  init := h.init
  clockAt j hj := h.clockAt j (hj.trans hi)
  stepAt j hj := h.stepAt j (by omega)

theorem symm (h : AgreesTo f u v) : AgreesTo f v u where
  system := h.system.symm
  vars := h.vars.symm
  init := h.init.symm
  clockAt j hj := (h.clockAt j hj).symm
  stepAt j hj := (h.stepAt j hj).symm

section

variable (h : AgreesTo f u v)

include h

theorem violationAt_eq : v.violationAt f = u.violationAt f := by
  rw [violationAt, violationAt, propAt, propAt, h.system, h.clockAt f le_rfl]

theorem allSame_eq (hi : i ≤ f) : v.allSame i f = u.allSame i f := by
  rw [allSame, allSame, h.vars, h.clockAt i hi, h.clockAt f le_rfl]

theorem distinctFromEarlier_eq : v.distinctFromEarlier f = u.distinctFromEarlier f := by
  have hall : ∀ l : List Nat, (∀ i ∈ l, i < f) → ∀ g g' : Nat → Except Fault (Option Formula),
      (∀ i < f, g i = g' i) → l.filterMapM g = l.filterMapM g' := by
    intro l hl g g' hg
    induction l with
    | nil => rfl
    | cons i l ih =>
        rw [List.filterMapM_cons, List.filterMapM_cons, hg i (hl i List.mem_cons_self),
          ih fun j hj => hl j (List.mem_cons_of_mem i hj)]
  refine hall _ (fun i hi => List.mem_range.mp hi) _ _ fun i hi => ?_
  rw [h.clockAt i hi.le, h.clockAt f le_rfl, h.allSame_eq hi.le]

theorem trace_eq {S A : Type} (m : Model) (r : Reconstruction S A) : v.trace m f r = u.trace m f r := by
  have hclock : ∀ i ≤ f, v.clocks[i]? = u.clocks[i]? := by
    intro i hi
    have heq := h.clockAt i hi
    unfold Unrolling.clockAt at heq
    cases hv : v.clocks[i]? <;> cases hu : u.clocks[i]? <;> simp only [hv, hu] at heq <;> cases heq <;> rfl
  have htake : v.clocks.toList.take (f + 1) = u.clocks.toList.take (f + 1) := by
    refine List.ext_getElem? fun i => ?_
    rw [List.getElem?_take, List.getElem?_take]
    split
    · rw [Array.getElem?_toList, Array.getElem?_toList, hclock i (by omega)]
    · rfl
  rw [trace, trace, h.clockAt f le_rfl, h.vars, htake]

end

end AgreesTo

theorem Within.agreesTo (h : u.Within v) (hclocks : f < u.clocks.size) (hsteps : f ≤ u.steps.size) :
    AgreesTo f u v where
  system := h.system
  vars := h.vars
  init := h.init
  clockAt i hi := by
    have hget : u.clockAt i = .ok u.clocks[i] := by
      rw [Unrolling.clockAt, Array.getElem?_eq_getElem (by omega)]
    rw [hget, h.clockAt hget]
  stepAt i hi := by
    have hget : u.stepAt i = .ok u.steps[i] := by
      rw [Unrolling.stepAt, Array.getElem?_eq_getElem (by omega)]
    rw [hget, h.stepAt hget]

namespace After

theorem sizes (h : After s n u) : u.clocks.size = n + 1 ∧ u.steps.size = n := by
  induction h with
  | start h =>
      obtain ⟨e, -, rfl⟩ := of_ofSystem_eq_ok h
      exact ⟨rfl, rfl⟩
  | extend _ hext ih =>
      obtain ⟨c, e, d, -, -, -, rfl⟩ := of_extend_eq_ok hext
      simp [ih]

theorem lastFrame (h : After s n u) : u.lastFrame = n := by
  rw [Unrolling.lastFrame, h.sizes.1, Nat.add_sub_cancel]

/-- A system has one unrolling of each length. -/
theorem eq (h : After s n u) (h' : After s n v) : u = v := by
  induction h generalizing v with
  | start h =>
      cases h' with
      | start h' => exact Except.ok.inj (h.symm.trans h')
  | extend _ hext ih =>
      cases h' with
      | extend h' hext' =>
          cases ih h'
          exact congrArg Prod.snd (hext.symm.trans hext')

/-- An unrolling comes from a shorter one. -/
theorem exists_within (h : After s n u) (hk : k ≤ n) : ∃ w, After s k w ∧ w.Within u := by
  induction h with
  | start h =>
      cases Nat.le_zero.mp hk
      exact ⟨_, .start h, .refl _⟩
  | @extend n u u' h hext ih =>
      rcases Nat.le_or_eq_of_le_succ hk with hk | rfl
      · obtain ⟨w, hw, hwithin⟩ := ih hk
        refine ⟨w, hw, hwithin.trans ?_⟩
        have := Within.extend u
        rwa [hext] at this
      · exact ⟨u', .extend h hext, .refl _⟩

/-- Unrollings of one system agree as far as both go. -/
theorem agreesTo (h : After s n u) (h' : After s k v) (hn : f ≤ n) (hk : f ≤ k) : AgreesTo f u v := by
  have hwithin : ∀ {n k : Nat} {u v : Unrolling}, After s n u → After s k v → n ≤ k → f ≤ n → AgreesTo f u v := by
    intro n k u v h h' hle hf
    obtain ⟨w, hw, hwithin⟩ := h'.exists_within hle
    rw [h.eq hw]
    exact hwithin.agreesTo (by rw [hw.sizes.1]; omega) (by rw [hw.sizes.2]; exact hf)
  rcases Nat.le_total n k with hle | hle
  · exact hwithin h h' hle hn
  · exact (hwithin h' h hle hk).symm

end After

end Unrolling

/-! ### Conversations and their logs -/

namespace Talk

variable {σ α β : Type}

/-- What a conversation does depends on the solver only. Its exchanges come after those before it. -/
def Additive (talk : Talk σ α) : Prop :=
  ∀ x log, talk.run.run ⟨x, log⟩ =
    match talk.run.run ⟨x, #[]⟩ with
    | (result, ses) => (result, ⟨ses.solver, log ++ ses.log⟩)

theorem additive_pure (a : α) : Additive (σ := σ) (pure a) := by
  intro x log
  change (Except.ok a, Session.mk x log) = (Except.ok a, Session.mk x (log ++ #[]))
  rw [Array.append_empty]

theorem additive_throw (e : Halt CheckError) : Additive (σ := σ) (α := α) (throw e) := by
  intro x log
  change (Except.error e, Session.mk x log) = (Except.error e, Session.mk x (log ++ #[]))
  rw [Array.append_empty]

theorem Additive.bind {talk : Talk σ α} {next : α → Talk σ β} (h : Additive talk) (hnext : ∀ a, Additive (next a)) :
    Additive (talk >>= next) := by
  intro x log
  rw [run_bind, run_bind, h x log]
  rcases talk.run.run ⟨x, #[]⟩ with ⟨e | a, y, own⟩
  · rfl
  · simp only [hnext a y (log ++ own), hnext a y own]
    rcases (next a).run.run ⟨y, #[]⟩ with ⟨result, ses⟩
    simp only [Array.append_assoc]

theorem additive_request (note : Except (Halt SolverError) α → Exchange) (q : Request σ α) :
    Additive (request note q) := by
  intro x log
  have hrun : ∀ log, (request note q).run.run ⟨x, log⟩ =
      ((q.run.run x).1.mapError (Halt.map .solver), ⟨(q.run.run x).2, log.push (note (q.run.run x).1)⟩) := fun _ => rfl
  rw [hrun, hrun]
  simp

theorem additive_ofFault (x : Except Fault α) : Additive (σ := σ) (ofFault x) := by
  cases x with
  | ok a => exact additive_pure a
  | error f => exact additive_throw (.fault f)

theorem additive_forM {f : α → Talk σ Unit} (h : ∀ a, Additive (f a)) (l : List α) : Additive (l.forM f) := by
  induction l with
  | nil => exact additive_pure ()
  | cons a l ih => exact (h a).bind fun _ => ih

variable [Solver σ]

theorem additive_push : Additive (push : Talk σ Unit) := by
  intro x log
  have hrun : ∀ log, (push : Talk σ Unit).run.run ⟨x, log⟩ = (.ok (), ⟨Solver.push x, log.push .push⟩) := fun _ => rfl
  rw [hrun, hrun]
  simp

end Talk

/-! ### Turns -/

namespace Search

open Unrolling

variable {σ S A : Type} [Solver σ] {s : TransitionSystem} {u v w : Unrolling} {loopFree : Bool}
variable {r : Reconstruction S A} {f k l n synced frame : Nat}

theorem examine_congr (h : AgreesTo f u v) :
    (examine v loopFree r f : Talk σ (Option (Outcome S A))) = examine u loopFree r f := by
  have hreach : (reach v f : Talk σ Unit) = reach u f := by
    cases f with
    | zero => rw [reach, reach, h.init]
    | succ f => rw [reach, reach, h.stepAt f (by omega)]
  have hviolation : (violation v r f : Talk σ (Option (Outcome S A))) = violation u r f := by
    simp only [violation, counterexample, h.violationAt_eq, h.trace_eq]
  rw [examine, examine, hreach, hviolation, isBeyondPaths, isBeyondPaths, h.distinctFromEarlier_eq]

theorem examineFrom_congr (h : AgreesTo n u v) (hk : frame + k ≤ n + 1) :
    (examineFrom v loopFree r k frame : Talk σ (Option (Outcome S A) × Nat)) = examineFrom u loopFree r k frame := by
  induction k generalizing frame with
  | zero => rfl
  | succ k ih =>
      have hrest := @ih (frame + 1) (by omega)
      simp only [examineFrom, examine_congr (h.mono (show frame ≤ n by omega)), hrest]

/-- Frames can be examined in two parts. -/
theorem examineFrom_add : (examineFrom u loopFree r (k + l) frame : Talk σ (Option (Outcome S A) × Nat)) = (do
    match ← examineFrom u loopFree r k frame with
    | (some o, f) => return (some o, f)
    | (none, _) => examineFrom u loopFree r l (frame + k)) := by
  induction k generalizing frame with
  | zero => simp [examineFrom]
  | succ k ih =>
      rw [show k + 1 + l = k + l + 1 by omega, examineFrom, examineFrom, bind_assoc]
      refine bind_congr fun o => ?_
      cases o with
      | some o => simp
      | none =>
          rw [ih, show frame + 1 + k = frame + (k + 1) by omega]

/-- Asserts the steps before a frame that are not in the context yet, `synced` being there. -/
def catchUp (u : Unrolling) (synced frame : Nat) : Talk σ Unit :=
  (List.range' synced (frame - synced)).forM fun i => do Talk.assert none (← Talk.ofFault (u.stepAt i))

/-- Examines a frame, some steps before it being in the context. -/
def examineSynced (u : Unrolling) (loopFree : Bool) (r : Reconstruction S A) (synced frame : Nat) :
    Talk σ (Option (Outcome S A)) := do
  if frame = 0 then Talk.assert none u.init
  else
    catchUp u synced frame
    if loopFree then
      if ← isBeyondPaths u frame then return some .safe
  violation u r frame

/-- Examines frames with two counters: the steps that were asserted, and the next frame. -/
def examineSyncedFrom (u : Unrolling) (loopFree : Bool) (r : Reconstruction S A) :
    (n synced frame : Nat) → Talk σ (Option (Outcome S A) × Nat × Nat)
  | 0, synced, frame => return (none, synced, frame)
  | n + 1, synced, frame => do
    let outcome ← examineSynced u loopFree r synced frame
    let synced := if frame = 0 then synced else frame
    match outcome with
    | some o => return (some o, synced, frame)
    | none => examineSyncedFrom u loopFree r n synced (frame + 1)

/-- Turns one after another, each on its own unrolling and from the counters that the last one left, until one of them
settles the property. -/
def turns (loopFree : Bool) (r : Reconstruction S A) :
    List Unrolling → (synced frame : Nat) → Talk σ (Option (Outcome S A))
  | [], _, _ => return none
  | u :: us, synced, frame => do
    match ← examineSyncedFrom u loopFree r (u.lastFrame + 1 - frame) synced frame with
    | (some o, _) => return some o
    | (none, synced, frame) => turns loopFree r us synced frame

/-- One step is missing when a frame is examined. -/
theorem examineSynced_eq :
    (examineSynced u loopFree r (frame - 1) frame : Talk σ (Option (Outcome S A))) = examine u loopFree r frame := by
  cases frame with
  | zero => simp [examineSynced, examine, reach]
  | succ frame =>
      rw [examineSynced, examine, if_neg frame.succ_ne_zero, catchUp, reach]
      simp

/-- The second counter says all. -/
theorem examineSyncedFrom_eq :
    (examineSyncedFrom u loopFree r k (frame - 1) frame : Talk σ (Option (Outcome S A) × Nat × Nat)) = (do
      match ← examineFrom u loopFree r k frame with
      | (some o, f) => return (some o, f, f)
      | (none, _) => return (none, frame + k - 1, frame + k)) := by
  induction k generalizing frame with
  | zero => simp [examineSyncedFrom, examineFrom]
  | succ k ih =>
      rw [examineSyncedFrom, examineFrom, examineSynced_eq, bind_assoc]
      refine bind_congr fun o => ?_
      have hsynced : (if frame = 0 then frame - 1 else frame) = frame := by split <;> omega
      simp only [hsynced]
      cases o with
      | some o => simp
      | none =>
          have := @ih (frame + 1)
          rw [Nat.add_sub_cancel] at this
          simp only [this]
          rw [show frame + 1 + k = frame + (k + 1) by omega]

theorem turns_cons {us : List Unrolling} (hk : u.lastFrame + 1 - frame = k) :
    (turns loopFree r (u :: us) (frame - 1) frame : Talk σ (Option (Outcome S A))) = (do
      match ← examineFrom u loopFree r k frame with
      | (some o, _) => return some o
      | (none, _) => turns loopFree r us (frame + k - 1) (frame + k)) := by
  rw [turns, hk, examineSyncedFrom_eq, bind_assoc]
  refine bind_congr fun p => ?_
  obtain ⟨_ | o, f⟩ := p <;> simp

theorem exists_after_of_forall₂ {ns : List Nat} {us : List Unrolling} (hus : List.Forall₂ (After s) ns us) (hn : n ∈ ns) :
    ∃ u, After s n u := by
  induction hus with
  | nil => cases hn
  | cons hu _ ih =>
      rcases List.mem_cons.mp hn with rfl | hn
      · exact ⟨_, hu⟩
      · exact ih hn

/-- Turns over growing unrollings are one turn over the last of them, from whichever frame on. -/
theorem turns_eq_examineFrom {ns : List Nat} {us : List Unrolling} (hus : List.Forall₂ (After s) ns us) (hns : ns.Pairwise (· ≤ ·))
    (hn : ns.getLast? = some n) (hw : After s n w) :
    (turns loopFree r us (frame - 1) frame : Talk σ (Option (Outcome S A))) =
      Prod.fst <$> examineFrom w loopFree r (n + 1 - frame) frame := by
  induction hus generalizing frame with
  | nil => cases hn
  | @cons N u ns us hu hus ih =>
      rw [turns_cons (k := N + 1 - frame) (by rw [hu.lastFrame]), map_eq_pure_bind]
      cases ns with
      | nil =>
          cases hus
          cases hn
          cases hu.eq hw
          refine bind_congr fun p => ?_
          obtain ⟨_ | o, f⟩ := p <;> rfl
      | cons N' ns =>
          rw [List.getLast?_cons_cons] at hn
          have hle : N ≤ n := List.rel_of_pairwise_cons hns (List.mem_of_getLast? hn)
          have hagrees := hu.agreesTo hw le_rfl hle
          rw [show n + 1 - frame = N + 1 - frame + (n + 1 - (frame + (N + 1 - frame))) by omega, examineFrom_add, bind_assoc]
          by_cases hframe : frame ≤ N + 1
          · rw [examineFrom_congr hagrees (by omega)]
            refine bind_congr fun p => ?_
            obtain ⟨_ | o, f⟩ := p
            · rw [ih hns.of_cons hn, map_eq_pure_bind]
            · simp
          · rw [show N + 1 - frame = 0 by omega, examineFrom, examineFrom, pure_bind, pure_bind, ih hns.of_cons hn,
              map_eq_pure_bind]

theorem turns_eq {ns : List Nat} {us : List Unrolling} (hus : List.Forall₂ (After s) ns us) (hns : ns.Pairwise (· ≤ ·))
    (hn : ns.getLast? = some n) (hw : After s n w) :
    (turns loopFree r us 0 0 : Talk σ (Option (Outcome S A))) = Prod.fst <$> turn w loopFree r 0 := by
  rw [turn, hw.lastFrame]
  change turns loopFree r us (0 - 1) 0 = _
  exact turns_eq_examineFrom hus hns hn hw

theorem additive_counterexample : Talk.Additive (counterexample u r f : Talk σ (Trace S A)) := by
  apply (Talk.additive_request _ _).bind
  intro m
  split
  · exact Talk.additive_pure _
  · exact Talk.additive_throw _

theorem additive_violation : Talk.Additive (violation u r f : Talk σ (Option (Outcome S A))) := by
  apply Talk.additive_push.bind
  intro _
  apply (Talk.additive_ofFault _).bind
  intro bad
  apply (Talk.additive_request _ _).bind
  intro _
  apply (Talk.additive_request _ _).bind
  intro status
  have hclose : ∀ o : Option (Outcome S A), Talk.Additive (do Talk.pop; return o : Talk σ (Option (Outcome S A))) :=
    fun _ => (Talk.additive_request _ _).bind fun _ => Talk.additive_pure _
  cases status with
  | sat => exact additive_counterexample.bind fun _ => (Talk.additive_pure _).bind hclose
  | unknown | unsat => exact (Talk.additive_pure _).bind hclose

theorem additive_examine : Talk.Additive (examine u loopFree r f : Talk σ (Option (Outcome S A))) := by
  apply Talk.Additive.bind
  · cases f with
    | zero => exact Talk.additive_request _ _
    | succ f => exact (Talk.additive_ofFault _).bind fun _ => Talk.additive_request _ _
  intro _
  split
  · apply Talk.Additive.bind
    · apply (Talk.additive_ofFault _).bind
      intro es
      apply (Talk.additive_forM (fun _ => Talk.additive_request _ _) es).bind
      exact fun _ => (Talk.additive_request _ _).bind fun _ => Talk.additive_pure _
    · intro beyond
      split
      · exact Talk.additive_pure _
      · exact additive_violation
  · exact additive_violation

theorem additive_examineFrom : Talk.Additive (examineFrom u loopFree r k f : Talk σ (Option (Outcome S A) × Nat)) := by
  induction k generalizing f with
  | zero => exact Talk.additive_pure _
  | succ k ih =>
      apply additive_examine.bind
      intro o
      cases o with
      | some o => exact Talk.additive_pure _
      | none => exact ih

/-! ### One conversation -/

/-- A turn over an unrolling, by a solver that no turn was taken with before. -/
def alone (u : Unrolling) (loopFree : Bool) (r : Reconstruction S A) (x : σ) :
    Except (Halt CheckError) (Option (Outcome S A) × Nat) × Session σ :=
  (turn u loopFree r 0).run.run ⟨x, #[]⟩

/-- The frames of a shorter unrolling come first. If they settle nothing, the others follow. -/
theorem alone_eq {x : σ} (hv : After s n v) (hw : After s k w) (hnk : n ≤ k) :
    alone w loopFree r x = match alone v loopFree r x with
      | (.ok (none, _), ses) => (examineFrom w loopFree r (k - n) (n + 1)).run.run ses
      | settled => settled := by
  have hsplit : k + 1 - 0 = n + 1 + (k - n) := by omega
  rw [alone, alone, turn, turn, hw.lastFrame, hv.lastFrame, hsplit, examineFrom_add, run_bind,
    examineFrom_congr (hv.agreesTo hw le_rfl hnk) (by omega), Nat.sub_zero, Nat.zero_add]
  rcases (examineFrom v loopFree r (n + 1) 0).run.run ⟨x, #[]⟩ with ⟨e | ⟨_ | o, f⟩, ses⟩ <;> rfl

/-- The conversation `whole` goes on after `first`, unless `first` settles something: then that is all. -/
inductive BeginsWith : Except (Halt CheckError) (Option (Outcome S A) × Nat) × Session σ →
    Except (Halt CheckError) (Option (Outcome S A)) × Session σ → Prop
  | open {f : Nat} {ses ses' : Session σ} {result : Except (Halt CheckError) (Option (Outcome S A))}
      (h : ses.log.toList <+: ses'.log.toList) : BeginsWith (.ok (none, f), ses) (result, ses')
  | settled {o : Outcome S A} {f : Nat} {ses : Session σ} : BeginsWith (.ok (some o, f), ses) (.ok (some o), ses)
  | failed {h : Halt CheckError} {ses : Session σ} : BeginsWith (.error h, ses) (.error h, ses)

theorem beginsWith_alone {x : σ} (hv : After s n v) (hw : After s k w) (hnk : n ≤ k) :
    BeginsWith (alone v loopFree r x) ((alone w loopFree r x).1.map Prod.fst, (alone w loopFree r x).2) := by
  have heq : alone w loopFree r x = _ := alone_eq hv hw hnk
  rcases hrun : alone v loopFree r x with ⟨e | ⟨_ | o, f⟩, ses⟩ <;> rw [hrun] at heq
  · rw [heq]
    exact .failed
  · rw [heq.trans (additive_examineFrom ses.solver ses.log)]
    refine .open ?_
    change ses.log.toList <+: (ses.log ++ _).toList
    rw [Array.toList_append]
    exact List.prefix_append _ _
  · rw [heq]
    exact .settled

/-- A turn that settles nothing examines all frames. -/
theorem frame_of_run_examineFrom {ses ses' : Session σ}
    (h : (examineFrom u loopFree r k frame).run.run ses = (.ok ((none : Option (Outcome S A)), f), ses')) :
    f = frame + k := by
  have heq : (examineFrom u loopFree r k frame : Talk σ (Option (Outcome S A) × Nat)) = _ := examineFrom_add (l := 0)
  rw [heq, run_bind] at h
  rcases hrun : (examineFrom u loopFree r k frame).run.run ses with ⟨e | ⟨_ | o, f'⟩, ses''⟩ <;> rw [hrun] at h <;> cases h
  rfl

end Search

end Invariance
