import Invariance.Proofs.Engine.Constraints
import Invariance.Proofs.Engine.Reindexing
import Invariance.Proofs.Engine.Soundness
import Invariance.Proofs.Solver.Calls

/-!
The rounds of interpolation. A round that does not end the turn has brought a state that was not covered before, as the
solver found one. The covered states are read off the interpolants that came back, each moved back to the first frame
and each about the first frame alone, and there are only so many of them, which bounds the number of rounds.
-/

namespace Invariance

open TransitionSystem Invariance.Dynamics

namespace Interpolation

/-! ### Covered states -/

section Images

variable {s : TransitionSystem} {u : Unrolling} {images : List Formula} {new : Formula}

/-- The states covered by the initial ones and some images. -/
def coveredStates (s : TransitionSystem) (u : Unrolling) (images : List Formula) : Set (State s.vars.elements) :=
  {a | s.Holds (covered u images) a}

/-- Each image covers a state that those before it do not. -/
def Grows (s : TransitionSystem) (u : Unrolling) (images : List Formula) : Prop :=
  ∀ j < images.length, coveredStates s u (images.take j) ⊂ coveredStates s u (images.take (j + 1))

theorem grows_nil : Grows s u [] := by
  intro j hj
  simp at hj

theorem Grows.concat (h : Grows s u images) (hnew : coveredStates s u images ⊂ coveredStates s u (images ++ [new])) :
    Grows s u (images ++ [new]) := by
  intro j hj
  rw [List.length_append, List.length_singleton] at hj
  rcases Nat.lt_succ_iff_lt_or_eq.mp hj with hlt | rfl
  · rw [List.take_append_of_le_length hlt.le, List.take_append_of_le_length hlt]
    exact h j hlt
  · rwa [List.take_left, List.take_of_length_le (by simp)]

/-- By induction on the number of images, each of which adds a state at least. -/
theorem Grows.length_le_card (h : Grows s u images) : images.length ≤ Nat.card (State s.vars.elements) := by
  have hcard : ∀ j ≤ images.length, j ≤ (coveredStates s u (images.take j)).ncard := by
    intro j
    induction j with
    | zero => exact fun _ => Nat.zero_le _
    | succ j ih =>
        intro hj
        have hlt := Set.ncard_lt_ncard (h j hj)
        have := ih (Nat.le_of_succ_le hj)
        omega
  exact (hcard _ le_rfl).trans (Set.ncard_le_card _)

theorem predicate_covered (hs : s.Regular) (hinit : u.init = s.initial) (h : ∀ e ∈ images, e.Predicate (s.Upto 0)) :
    (covered u images).Predicate (s.Upto 0) := by
  induction images using List.reverseRecOn with
  | nil =>
      change u.init.Predicate (s.Upto 0)
      rw [hinit]
      exact hs.predicate_initial
  | append_singleton images new ih =>
      rw [← mkOr_covered]
      apply Formula.Predicate.mkOr
      intro e he
      simp only [List.mem_cons, List.not_mem_nil, or_false] at he
      cases he with
      | inl heq => exact heq ▸ ih fun e he => h e (by simp [he])
      | inr heq => exact heq ▸ h new (by simp)

theorem predicate_getLastD (hs : s.Regular) (h : ∀ e ∈ images, e.Predicate (s.Upto 0)) :
    (images.getLastD s.initial).Predicate (s.Upto 0) := by
  induction images using List.reverseRecOn with
  | nil => exact hs.predicate_initial
  | append_singleton images new _ =>
      rw [List.getLastD_concat]
      exact h new (by simp)

end Images

/-! ### Turns -/

/-- The interpolants that came back in a session, moved back to the first frame. Each but the last one brought states that
were not covered before. -/
def Advances {σ : Type} (s : TransitionSystem) (u : Unrolling) (ses : Session σ) : Prop :=
  ∃ images, (ses.log.toList.filterMap Exchange.interpolant?).mapM (moveBack u) = .ok images ∧ Grows s u images.dropLast

end Interpolation

/-- The account of a session. -/
def Session.ledger {σ : Type} (ses : Session σ) : Ledger :=
  ({} : Ledger).enterAll ses.log.toList

theorem Session.received_ledger {σ : Type} (ses : Session σ) :
    ses.ledger.received = ses.log.toList.filterMap Exchange.interpolant? := by
  rw [ledger, Ledger.received_enterAll]
  rfl

/-- What a conversation does to the solver, and what it does to the account. -/
theorem Enters.and_meets {σ α : Type} {R : Rules} {talk : Talk σ α} {ses : Session σ} {P : α → Session σ → Prop}
    {E : Halt CheckError → Session σ → Prop} {Q : α → Ledger → Prop} (h : Enters R talk ses.ledger Q)
    (hcover : R.Cover {} ses.log.toList) (hmeets : Meets talk ses P E) :
    Meets talk ses (fun a t => P a t ∧ R.Cover {} t.log.toList ∧ Q a t.ledger)
      fun e t => E e t ∧ R.Cover {} t.log.toList :=
  hmeets.and (h {} ses hcover rfl)

theorem Interpolation.advances_of_moved {σ : Type} {s : TransitionSystem} {u : Unrolling} {ses : Session σ}
    {images : List Formula} (h : Moved u [] ses.ledger.received images) (hgrows : Grows s u images.dropLast) :
    Advances s u ses := by
  obtain ⟨own, hreceived, hown⟩ := h
  rw [List.nil_append, ses.received_ledger] at hreceived
  exact ⟨images, hreceived ▸ hown, hgrows⟩

namespace Interpolation

variable {σ S A : Type} [Solver σ] {lost : σ → Prop} {Tracks : σ → Context → Prop}
variable {s : TransitionSystem} {u : Unrolling} {n f : Nat} {r : Reconstruction S A} {ses : Session σ}
variable {b c : Context} {loopFree : Bool} {images : List Formula}

variable (st : Stage False lost Tracks False s n u) (hn : 0 < n)

include st hn

/-- Each round that does not end the turn covers more states. No model is asked for, so that nothing can fail. -/
theorem meets_cover_grows (rounds : Nat) (ht : Tracks ses.solver c) (hlast : c.last = some .unsat)
    (hc : Inside b (OnBadPath s n (images.getLastD s.initial)) c) (hidle : b.active = [])
    (hcover : (rules u u.lastFrame []).Cover {} ses.log.toList) (hcut : OnCut u u.lastFrame [] ses.ledger)
    (himages : Moved u [] ses.ledger.received images) (hpred : ∀ e ∈ images, e.Predicate (s.Upto 0))
    (hgrows : Grows s u images) (hrounds : Nat.card (State s.vars.elements) < rounds + images.length) :
    Meets (cover u rounds (covered u images) : Talk σ (Option (Outcome S A))) ses
      (fun _ t => Tracks t.solver ⟨b.outer, b.scope, none⟩ ∧ Advances s u t)
      fun e t => Cut False (fun _ => False) e t ∧ (rules u u.lastFrame []).Cover {} t.log.toList := by
  have hpos : 0 < u.lastFrame := st.unrolled.lastFrame.symm ▸ hn
  have hsize : u.steps.size = u.lastFrame := st.unrolled.size_steps.trans st.unrolled.lastFrame.symm
  induction rounds generalizing images c ses with
  | zero =>
      have := hgrows.length_le_card
      omega
  | succ k ih =>
      have hfirst : (images.getLastD s.initial).Predicate (s.Upto 0) :=
        predicate_getLastD st.regular hpred
      have hcovered : (covered u images).Predicate (s.Upto 0) := predicate_covered st.regular st.unrolled.init hpred
      have hadvances : ∀ t : Session σ, ∀ new, Moved u [] t.ledger.received (images ++ [new]) → Advances s u t := by
        intro t new ht
        exact advances_of_moved ht (by rwa [List.dropLast_concat])
      rw [cover]
      apply ((enters_image hcut himages).and_meets hcover (meets_image st ht hlast hc (.inr hfirst) hn)).bind
      intro new ses₁ h₁
      obtain ⟨⟨ht₁, hnew, -⟩, hcover₁, houter₁, hfresh₁, himages₁⟩ := h₁
      have hnew : new.Predicate (s.Upto 0) := hnew.resolve_left id
      apply ((Enters.pop (Q := fun _ => Opened ses₁.ledger.received true) houter₁ ⟨rfl, rfl, rfl, hfresh₁⟩).and_meets
        hcover₁ (Talk.meets_pop st.contract st.cut ht₁ hc.outer)).bind
      intro _ ses₂ h₂
      obtain ⟨ht₂, hcover₂, hl₂⟩ := h₂
      apply ((enters_isCovered hl₂ himages₁).and_meets hcover₂
        (meets_isCovered st ht₂ (.inr hnew.weaken) (.inr hcovered.mkNot.weaken) hidle)).bind
      intro status ses₃ h₃
      obtain ⟨⟨ht₃, -, hsat⟩, hcover₃, hl₃⟩ := h₃
      cases status with
      | unsat | unknown => exact ⟨ht₃, hadvances ses₃ new (hl₃.received ▸ himages₁)⟩
      | sat =>
          have hlarger : coveredStates s u images ⊂ coveredStates s u (images ++ [new]) := by
            rw [coveredStates, coveredStates, ← mkOr_covered]
            exact ssubset_mkOr hcovered hnew (hsat rfl)
          have hnewest : ∀ e, (images ++ [new]).getLastD e = new := by simp
          apply ((enters_split hpos hsize hl₃).and_meets hcover₃ (meets_split st ht₃ hidle (.inr hnew.weaken) hn)).bind
          intro _ ses₄ h₄
          obtain ⟨⟨d, ht₄, hd⟩, hcover₄, hl₄⟩ := h₄
          rw [← hnewest u.init] at hl₄
          apply ((enters_assertViolation hl₄ himages₁).and_meets hcover₄ (meets_assertViolation st ht₄ hd)).bind
          intro _ ses₅ h₅
          obtain ⟨⟨d', ht₅, hd'⟩, hcover₅, hcut₅, hreceived₅, hfresh₅⟩ := h₅
          apply ((Enters.check (Q := fun _ l => OnCut u u.lastFrame [] l ∧ l.received = ses₁.ledger.received)
            (Asks.cut hfresh₅ hcut₅) fun _ => ⟨⟨hcut₅.outer, hcut₅.scope⟩, hreceived₅⟩).and_meets hcover₅
            (Talk.meets_check st.contract st.cut ht₅)).bind
          intro status ses₆ h₆
          obtain ⟨⟨ht₆, -⟩, hcover₆, hcut₆, hreceived₆⟩ := h₆
          rw [← hreceived₆] at himages₁
          cases status with
          | unsat =>
              have hpred' : ∀ e ∈ images ++ [new], e.Predicate (s.Upto 0) := by
                simpa [or_imp, forall_and] using ⟨hpred, hnew⟩
              rw [mkOr_covered]
              rw [← hnewest s.initial] at hd'
              exact ih ht₆ rfl ⟨hd'.outer, hd'.active⟩ hcover₆ hcut₆ himages₁ hpred' (hgrows.concat hlarger)
                (by rw [List.length_append, List.length_singleton]; omega)
          | sat | unknown =>
              apply ((Enters.pop (Q := fun _ l => l.received = ses₆.ledger.received) hcut₆.outer rfl).and_meets hcover₆
                (Talk.meets_pop st.contract st.cut ht₆ hd'.outer)).bind
              intro _ ses₇ h₇
              obtain ⟨ht₇, -, hreceived₇⟩ := h₇
              rw [← hreceived₇] at himages₁
              exact ⟨ht₇, hadvances ses₇ new himages₁⟩

omit [Solver σ] st hn in
/-- The rules as long as no interpolant may be asked for. -/
def quiet (u : Unrolling) : Rules where
  check := Asks u u.lastFrame []
  interpolant _ := False

omit [Solver σ] st hn in
/-- A turn fails only with a solver that is lost, and before any interpolant has come back. -/
def Fails {ε : Type} (lost : σ → Prop) (_ : ε) (ses : Session σ) : Prop :=
  lost ses.solver ∧ ses.log.toList.filterMap Exchange.interpolant? = []

omit [Solver σ] st hn in
theorem interpolants_eq_nil (h : (quiet u).Cover {} ses.log.toList) :
    ses.log.toList.filterMap Exchange.interpolant? = [] :=
  h.interpolants_eq_nil fun _ => id

omit [Solver σ] st hn in
theorem advances_of_eq_nil (h : ses.log.toList.filterMap Exchange.interpolant? = []) : Advances s u ses :=
  ⟨[], by rw [h]; rfl, grows_nil⟩

omit [Solver σ] st hn in
theorem meets_quiet {α : Type} {talk : Talk σ α} {P : α → Session σ → Prop} {Q : α → Ledger → Prop}
    (h : Enters (quiet u) talk ses.ledger Q) (hcover : (quiet u).Cover {} ses.log.toList)
    (hmeets : Meets talk ses P (Cut False lost)) :
    Meets talk ses (fun a t => P a t ∧ (quiet u).Cover {} t.log.toList ∧ Q a t.ledger) (Fails lost) :=
  (h.and_meets hcover hmeets).mono (fun _ _ => id) fun _ _ ht => ⟨ht.1.resolve_left id, interpolants_eq_nil ht.2⟩

theorem meets_decideViolation_grows {rounds : Nat} (ht : Tracks ses.solver c) (hc : Inside b (OnPath s n s.initial) c)
    (hidle : b.active = []) (hcover : (quiet u).Cover {} ses.log.toList) (hlaid : Laid u u.init [] ses.ledger)
    (hrounds : Nat.card (State s.vars.elements) < rounds) :
    Meets (decideViolation u rounds r f) ses
      (fun _ t => Tracks t.solver ⟨b.outer, b.scope, none⟩ ∧ Advances s u t) (Fails lost) := by
  have hnone : Moved u [] [] [] := ⟨[], rfl, rfl⟩
  apply (meets_quiet (enters_assertViolation hlaid hnone) hcover (meets_assertViolation st ht hc)).bind
  intro _ ses₁ h₁
  obtain ⟨⟨d, ht₁, hd⟩, hcover₁, hcut₁, hreceived₁, hfresh₁⟩ := h₁
  have hsat : ∀ τ, d.Satisfied τ ↔ s.Refutes τ n := by
    intro τ
    rw [hd.satisfied, satisfies_onBadPath_initial st.regular hn]
  apply (meets_quiet (Enters.check (Q := fun _ l => OnCut u u.lastFrame [] l ∧ l.received = [])
    (Asks.cut hfresh₁ hcut₁) fun _ => ⟨⟨hcut₁.outer, hcut₁.scope⟩, hreceived₁⟩) hcover₁
    (Talk.meets_check st.contract st.cut ht₁)).bind
  intro status ses₂ h₂
  obtain ⟨⟨ht₂, -, hmodel, hunknown⟩, hcover₂, hcut₂, hreceived₂⟩ := h₂
  cases status with
  | unknown => exact (hunknown rfl).elim
  | sat =>
      rw [st.unrolled.lastFrame]
      apply (meets_quiet (Search.enters_counterexample (Q := fun _ l => l = ses₂.ledger) fun _ => rfl) hcover₂
        (Search.meets_counterexample st ht₂ rfl le_rfl (hmodel rfl) fun τ hτ => (hsat τ).mp hτ)).bind
      intro t ses₃ h₃
      obtain ⟨⟨ht₃, -⟩, hcover₃, hl₃⟩ := h₃
      rw [← hl₃] at hcut₂
      apply (meets_quiet (Enters.pop (Q := fun _ _ => True) hcut₂.outer trivial) hcover₃
        (Talk.meets_pop st.contract st.cut ht₃ hd.outer)).bind
      intro _ ses₄ h₄
      obtain ⟨ht₄, hcover₄, -⟩ := h₄
      exact ⟨ht₄, advances_of_eq_nil (interpolants_eq_nil hcover₄)⟩
  | unsat =>
      have hcover₂ : (rules u u.lastFrame []).Cover {} ses₂.log.toList := hcover₂.mono (fun _ => id) fun _ => False.elim
      have hmoved : Moved u [] ses₂.ledger.received [] := hreceived₂ ▸ hnone
      have hinside : Inside b (OnBadPath s n (([] : List Formula).getLastD s.initial)) (d.checked .unsat) :=
        ⟨hd.outer, hd.active⟩
      have hcovers := meets_cover_grows (S := S) (A := A) st hn rounds ht₂ rfl hinside hidle hcover₂ hcut₂ hmoved
        (by simp) grows_nil hrounds
      apply (hcovers.mono (fun _ _ => id) fun _ _ ht => (ht.1.resolve_left id).elim).bind
      intro _ _ ht
      exact ht

theorem meets_refine_grows {rounds : Nat} (ht : Tracks ses.solver b) (hidle : b.active = [])
    (hcover : (quiet u).Cover {} ses.log.toList) (hopened : Opened [] false ses.ledger)
    (hrounds : Nat.card (State s.vars.elements) < rounds) :
    Meets (refine u rounds loopFree r f) ses
      (fun _ t => Tracks t.solver ⟨b.outer, b.scope, none⟩ ∧ Advances s u t) (Fails lost) := by
  have hpos : 0 < u.lastFrame := st.unrolled.lastFrame.symm ▸ hn
  have hsize : u.steps.size = u.lastFrame := st.unrolled.size_steps.trans st.unrolled.lastFrame.symm
  have hinit : u.init.Predicate fun _ => True := by
    rw [st.unrolled.init]
    exact st.regular.predicate_initial.weaken
  rw [refine_eq]
  apply (meets_quiet (enters_split hpos hsize hopened) hcover (meets_split st ht hidle (.inr hinit) hn)).bind
  intro _ ses₁ h₁
  obtain ⟨⟨c, ht₁, hc⟩, hcover₁, hlaid₁⟩ := h₁
  rw [st.unrolled.init] at hc
  cases loopFree with
  | false => exact meets_decideViolation_grows st hn ht₁ hc hidle hcover₁ hlaid₁ hrounds
  | true =>
      apply (meets_quiet (enters_isBeyondPaths (fun _ => id) hlaid₁) hcover₁ (meets_isBeyondPaths st ht₁ hc hn)).bind
      intro beyond ses₂ h₂
      obtain ⟨⟨-, ht₂⟩, hcover₂, hlaid₂⟩ := h₂
      cases beyond with
      | false => exact meets_decideViolation_grows st hn ht₂ ⟨hc.outer, hc.active⟩ hidle hcover₂ hlaid₂ hrounds
      | true =>
          apply (meets_quiet (Enters.pop (Q := fun _ _ => True) hlaid₂.outer trivial) hcover₂
            (Talk.meets_pop st.contract st.cut ht₂ hc.outer)).bind
          intro _ ses₃ h₃
          obtain ⟨ht₃, hcover₃, -⟩ := h₃
          exact ⟨ht₃, advances_of_eq_nil (interpolants_eq_nil hcover₃)⟩

omit hn in
/-- The frames that were skipped are examined in scopes of their own. -/
theorem meets_violationsFrom_idle (ht : Tracks ses.solver c) (hidle : c.active = []) :
    Meets (violationsFrom u r (n - f) f) ses (fun o t => o.1 = none → ∃ d, Tracks t.solver d ∧ d.active = [])
      (Cut False lost) := by
  generalize hk : n - f = k
  induction k generalizing f c ses with
  | zero => exact fun _ => ⟨c, ht, hidle⟩
  | succ k ih =>
      apply (meets_violation st ht hidle (by omega)).bind
      intro o ses₁ ho
      match o, ho with
      | some (some o), _ => exact nofun
      | some none, ho => exact ho.1.elim
      | none, ho => exact ih ho.2 hidle (by omega)

omit st hn in
theorem meets_pop_interpolants : Meets (Talk.pop : Talk σ Unit) ses
    (fun _ t => t.log.toList.filterMap Exchange.interpolant? = ses.log.toList.filterMap Exchange.interpolant?)
    fun _ t => t.log.toList.filterMap Exchange.interpolant? = ses.log.toList.filterMap Exchange.interpolant? := by
  apply Talk.meets_request.mpr
  apply meets_of_forall
  · intro _ _
    rw [Array.toList_push, List.filterMap_append]
    exact List.append_nil _
  · intro _ _
    rw [Array.toList_push, List.filterMap_append]
    exact List.append_nil _

/-- A turn comes to an end, and each of its rounds but the last one covers more states. -/
theorem meets_turn_grows {rounds : Nat} {x : σ} (ht : Tracks x c) (hidle : c.active = [])
    (hrounds : Nat.card (State s.vars.elements) < rounds) :
    Meets (turn u rounds loopFree r f) ⟨x, #[]⟩ (fun _ t => Advances s u t) (Fails lost) := by
  have hsize : u.steps.size = u.lastFrame := st.unrolled.size_steps.trans st.unrolled.lastFrame.symm
  have hclear : Clear [] (Session.ledger ⟨x, #[]⟩) := ⟨rfl, rfl, rfl, rfl⟩
  have hskipped : Meets (violationsFrom u r (n - f) f) ⟨x, #[]⟩
      (fun o t => o.1 = none → ∃ d, Tracks t.solver d ∧ d.active = []) (Cut False lost) :=
    meets_violationsFrom_idle st ht hidle
  rw [← st.unrolled.lastFrame] at hskipped
  apply (meets_quiet (enters_violationsFrom (fun _ => id) hclear hsize) Rules.cover_nil hskipped).bind
  intro o ses₁ h₁
  obtain ⟨ht₁, hcover₁, hclear₁⟩ := h₁
  match o with
  | (some o, p) => exact advances_of_eq_nil (interpolants_eq_nil hcover₁)
  | (none, p) =>
      obtain ⟨d, ht₁, hd⟩ := ht₁ rfl
      apply (meets_quiet (Enters.push (Q := fun _ => Opened [] false) hclear₁.opened) hcover₁
        (Talk.meets_push st.contract ht₁)).bind
      intro _ ses₂ h₂
      obtain ⟨ht₂, hcover₂, hopened₂⟩ := h₂
      have hidle₂ : d.push.active = [] := hd
      apply Talk.meets_andFinally_of_last (meets_refine_grows st hn ht₂ hidle₂ hcover₂ hopened₂ hrounds)
      · intro _ ses₃ h₃
        obtain ⟨ht₃, images, himages, hgrows⟩ := h₃
        have hpop : Meets (Talk.pop : Talk σ Unit) ses₃ (fun _ _ => True) (Cut False fun _ => False) :=
          (Talk.meets_pop st.contract st.cut ht₃ rfl).imp fun _ _ _ => trivial
        apply (meets_pop_interpolants.and hpop).mono
        · intro _ ses₄ h₄
          rw [← h₄.1] at himages
          exact ⟨images, himages, hgrows⟩
        · intro _ _ hcut
          exact (hcut.2.resolve_left id).elim
      · exact fun _ _ => id
      · intro e ses₃ h₃
        have hpop := meets_pop_interpolants.and (Talk.lost_pop st.contract h₃.1)
        apply hpop.mono
        · exact fun _ _ h₄ => ⟨h₄.2, h₄.1.trans h₃.2⟩
        · exact fun _ _ h₄ => ⟨h₄.2, h₄.1.trans h₃.2⟩

omit [Solver σ] st hn

open DecisionSolver

/-- A turn with a solver that decides by diagrams comes to an end, whatever was examined before and whether paths have to
be loop-free or not. There are at most `2 ^ b + 1` rounds for variables of `b` bits, each of which takes one interpolant,
and each round but the last one has covered states that were not covered before. -/
theorem advances_turn (hs : s.Monolithic) (hu : Unrolling.After s n u) (hn : 0 < n) {x : DecisionSolver} (hidle : x.Idle)
    {rounds : Nat} (hrounds : 2 ^ totalBits s.vars.elements < rounds) (loopFree : Bool) (r : Reconstruction S A)
    (checked : Nat) :
    ∃ result ses images, (turn u rounds loopFree r checked).run.run ⟨x, #[]⟩ = (result, ses) ∧
      (ses.log.toList.filterMap Exchange.interpolant?).mapM (moveBack u) = .ok images ∧
      images.length ≤ 2 ^ totalBits s.vars.elements + 1 ∧ Grows s u images.dropLast ∧
      ∀ e, result = .error e → ses.solver.Crowded ∧ images = [] := by
  have st : Stage False Crowded Tracks False s n u :=
    ⟨contract False, id, hs.regular, hu.unrolled hs.init_free hs.trans_free⟩
  have hcard := State.card_le (SortedSet.nodup_elements s.vars)
  obtain ⟨c, ht, hc⟩ := hidle.tracks
  have hmeets : Meets (turn u rounds loopFree r checked) ⟨x, #[]⟩ (fun _ t => Advances s u t) (Fails Crowded) :=
    meets_turn_grows st hn ht hc (hcard.trans_lt hrounds)
  cases hrun : (turn u rounds loopFree r checked).run.run ⟨x, #[]⟩ with
  | mk result ses =>
      cases result with
      | ok o =>
          obtain ⟨images, himages, hgrows⟩ := hmeets.of_run_ok hrun
          have hlength := hgrows.length_le_card
          rw [List.length_dropLast] at hlength
          exact ⟨_, _, images, rfl, himages, by omega, hgrows, fun _ => nofun⟩
      | error e =>
          obtain ⟨hcrowded, hnone⟩ := hmeets.of_run_error hrun
          exact ⟨_, _, [], rfl, by rw [hnone]; rfl, Nat.zero_le _, grows_nil, fun _ _ => ⟨hcrowded, rfl⟩⟩

/-- A turn on two frames of a single bit, which takes three rounds at most. -/
theorem advances_turn_latch : ∃ u x result ses images, Unrolling.After Checker.latch 1 u ∧ ofBits 0 = .ok x ∧
    (turn (A := Update) u 3 false .explicit 0).run.run ⟨x, #[]⟩ = (result, ses) ∧
    (ses.log.toList.filterMap Exchange.interpolant?).mapM (moveBack u) = .ok images ∧ images.length ≤ 3 ∧
    Grows Checker.latch u images.dropLast := by
  have hstart : ∃ u x, Unrolling.After Checker.latch 1 u ∧ ofBits 0 = .ok x := ⟨_, _, .extend (.start rfl) rfl, rfl⟩
  obtain ⟨u, x, hu, hx⟩ := hstart
  have hrounds : 2 ^ totalBits Checker.latch.vars.elements < 3 := by decide
  obtain ⟨result, ses, images, hrun, himages, hlength, hgrows, -⟩ := advances_turn Checker.monolithic_latch hu Nat.one_pos
    (idle_ofBits hx) hrounds false (.explicit : Reconstruction Valuation Update) 0
  exact ⟨u, x, result, ses, images, hu, hx, hrun, himages, hlength, hgrows⟩

end Interpolation

end Invariance
