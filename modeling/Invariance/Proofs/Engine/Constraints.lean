import Invariance.Proofs.Engine.Induction
import Invariance.Proofs.Engine.Interpolation
import Invariance.Proofs.Solver.Ledger

/-!
What the strategies assert. Each of them keeps a path in the context of its solver that grows with the unrolling, and
asks about it in scopes of its own. The constraints on the path are computed here from the unrolling and from the frames
at which paths have to be loop-free; whenever a strategy asks its solver, the context holds these and nothing else.
-/

namespace Invariance

/-! ### Constraints -/

/-- The constraints that a frame differs from all earlier ones, if it has to. -/
def Unrolling.distinctIf (u : Unrolling) (free : Bool) (frame : Nat) : Except Fault (List Formula) :=
  if free then u.distinctFromEarlier frame else return []

/-- Formulas asserted on neither side. -/
def plain (es : List Formula) : List Assertion :=
  es.map fun e => (none, e)

namespace Search

/-- What leads to a frame: the initial states, or the step from the frame before it. -/
def arrival (u : Unrolling) : Nat → Except Fault Formula
  | 0 => return u.init
  | frame + 1 => u.stepAt frame

/-- The path through the frames below the given one, and that those in `free` differ from all earlier ones. -/
def constraints (u : Unrolling) (free : Nat → Bool) : Nat → Except Fault (List Assertion)
  | 0 => return []
  | frame + 1 => do
    let path ← constraints u free frame
    let first ← arrival u frame
    let distinct ← u.distinctIf (free frame && 0 < frame) frame
    return path ++ plain (first :: distinct)

/-- The two questions of the search, the frames before `l.nested` having been examined. -/
inductive Asks (u : Unrolling) (free : Nat → Bool) (l : Ledger) : Prop
  /-- Does the path to the next frame end in a violation? The violation is in a scope of its own. -/
  | violation (bad : Formula) (houter : ∃ path, constraints u free (l.nested + 1) = .ok path ∧ l.context.outer = [path])
      (hbad : u.violationAt l.nested = .ok bad) (hscope : l.context.scope = [(none, bad)])
  /-- Is there a path to the next frame, where paths have to be loop-free? -/
  | path (hfree : free l.nested = true ∧ 0 < l.nested) (houter : l.context.outer = [])
      (hscope : constraints u free (l.nested + 1) = .ok l.context.scope)

/-- The search examines frames up to the newest one, and does not interpolate. -/
def rules (u : Unrolling) (free : Nat → Bool) (last : Nat) : Rules where
  check l := l.nested ≤ last ∧ Asks u free l
  interpolant _ := False

end Search

namespace Induction

/-- The path of good states through the steps below the given one, and that the frames in `free` differ from all earlier
ones. -/
def constraints (u : Unrolling) (free : Nat → Bool) : Nat → Except Fault (List Assertion)
  | 0 => return []
  | step + 1 => do
    let path ← constraints u free step
    let good ← u.propAt step
    let next ← u.stepAt step
    let distinct ← u.distinctIf (free (step + 1)) (step + 1)
    return path ++ plain (good :: next :: distinct)

/-- Can the path of good states to the newest frame end in a violation? The violation is in a scope of its own. -/
structure Asks (u : Unrolling) (free : Nat → Bool) (last : Nat) (l : Ledger) : Prop where
  outer : ∃ path, constraints u free last = .ok path ∧ l.context.outer = [path]
  scope : ∃ bad, u.violationAt last = .ok bad ∧ l.context.scope = [(none, bad)]

def rules (u : Unrolling) (free : Nat → Bool) (last : Nat) : Rules where
  check := Asks u free last
  interpolant _ := False

end Induction

namespace Interpolation

/-- A formula about the second frame, moved back to the first one. -/
def moveBack (u : Unrolling) (e : Formula) : Except (Halt FrameError) Formula := do
  let e ← Halt.ofError (e.fold (← Halt.ofFault (u.clockAt 1)))
  Halt.ofFault (e.unfold (← Halt.ofFault (u.clockAt 0)))

/-- The path from the states `first` to the newest frame, cut after its first step. -/
def cut (u : Unrolling) (last : Nat) (first : Formula) : Except Fault (List Assertion) := do
  let step ← u.stepAt 0
  let steps ← (List.range' 1 (last - 1)).mapM u.stepAt
  return (some .a, first) :: (some .a, step) :: steps.map fun e => (some .b, e)

/-- The interpolants received in a turn, before which there were others, moved back to the first frame. -/
def Moved (u : Unrolling) (others received images : List Formula) : Prop :=
  ∃ own, received = others ++ own ∧ own.mapM (moveBack u) = .ok images

/-- The initial states, and the interpolants after them. -/
def covered (u : Unrolling) (images : List Formula) : Formula :=
  images.foldl (fun covered new => .mkOr [covered, new]) u.init

theorem mkOr_covered {u : Unrolling} {images : List Formula} {new : Formula} :
    .mkOr [covered u images, new] = covered u (images ++ [new]) := by
  simp [covered, List.foldl_append]

/-- The path from the newest states to a violation in the newest frame, cut after its first step, is all that is
asserted. The newest states are the last interpolant, moved back, and before there is one the initial states. -/
structure OnCut (u : Unrolling) (last : Nat) (others : List Formula) (l : Ledger) : Prop where
  outer : l.context.outer = [[], []]
  scope : ∃ images path bad, Moved u others l.received images ∧
    cut u last (images.getLastD u.init) = .ok path ∧ u.violationAt last = .ok bad ∧
    l.context.scope = path ++ [(some .b, bad)]

/-- The questions of interpolation in a turn, before which other interpolants were received. After each interpolant comes
the question whether it covers states that are new. -/
inductive Asks (u : Unrolling) (last : Nat) (others : List Formula) (l : Ledger) : Prop
  /-- Is there a violation in a frame that was skipped? -/
  | violation (hfresh : l.fresh = false) (frame : Nat) (steps : List Formula) (bad : Formula) (hframe : frame < last)
      (hsteps : (List.range frame).mapM u.stepAt = .ok steps) (hbad : u.violationAt frame = .ok bad)
      (houter : l.context.outer = [[]]) (hscope : l.context.scope = plain (u.init :: steps ++ [bad]))
  /-- Is there a loop-free path to the newest frame? -/
  | path (hfresh : l.fresh = false) (path : List Assertion) (distinct : List Formula)
      (hpath : cut u last u.init = .ok path) (hdistinct : u.distinctFromEarlier last = .ok distinct)
      (houter : l.context.outer = [path, [], []]) (hscope : l.context.scope = plain distinct)
  /-- Do the newest states lead to a violation? -/
  | cut (hfresh : l.fresh = false) (hcut : OnCut u last others l)
  /-- Does the interpolant that was received last cover a state that those before it do not? -/
  | covered (hfresh : l.fresh = true) (images : List Formula) (new : Formula)
      (hreceived : Moved u others l.received (images ++ [new])) (houter : l.context.outer = [[], []])
      (hscope : l.context.scope = [(some .a, new), (some .a, (covered u images).mkNot)])

/-- An interpolant is asked for where the path from the newest states to a violation is all that is asserted. -/
def rules (u : Unrolling) (last : Nat) (others : List Formula) : Rules where
  check := Asks u last others
  interpolant := OnCut u last others

end Interpolation

/-! ### Growing unrollings -/

/-- One unrolling has all frames and steps of the other. -/
structure Unrolling.Within (u v : Unrolling) : Prop where
  system : v.system = u.system
  vars : v.vars = u.vars
  init : v.init = u.init
  clockAt : ∀ {f c}, u.clockAt f = .ok c → v.clockAt f = .ok c
  stepAt : ∀ {f e}, u.stepAt f = .ok e → v.stepAt f = .ok e

theorem mapM_mono {ε α β : Type} {f g : α → Except ε β} (hfg : ∀ a b, f a = .ok b → g a = .ok b) {l : List α}
    {bs : List β} (h : l.mapM f = .ok bs) : l.mapM g = .ok bs := by
  induction l generalizing bs with
  | nil => exact h
  | cons a l ih =>
      rw [List.mapM_cons] at h ⊢
      exact bind_mono (hfg a) (fun b => bind_mono (fun _ => ih) fun _ => id) h

theorem filterMapM_mono {ε α β : Type} {f g : α → Except ε (Option β)} (hfg : ∀ a b, f a = .ok b → g a = .ok b)
    {l : List α} {bs : List β} (h : l.filterMapM f = .ok bs) : l.filterMapM g = .ok bs := by
  induction l generalizing bs with
  | nil => exact h
  | cons a l ih =>
      rw [List.filterMapM_cons] at h ⊢
      refine bind_mono (hfg a) (fun b hb => ?_) h
      cases b with
      | none => exact ih hb
      | some b => exact bind_mono (fun _ => ih) (fun _ => id) hb

namespace Unrolling.Within

variable {u v w : Unrolling} {f i last : Nat} {e : Formula} {es : List Formula} {as : List Assertion}

theorem refl (u : Unrolling) : u.Within u :=
  ⟨rfl, rfl, rfl, id, id⟩

theorem trans (h : u.Within v) (h' : v.Within w) : u.Within w :=
  ⟨h'.system.trans h.system, h'.vars.trans h.vars, h'.init.trans h.init, fun hc => h'.clockAt (h.clockAt hc),
    fun he => h'.stepAt (h.stepAt he)⟩

theorem push_step (u : Unrolling) (e : Formula) : u.Within { u with steps := u.steps.push e } where
  system := rfl
  vars := rfl
  init := rfl
  clockAt := id
  stepAt {f d} hd := by
    unfold Unrolling.stepAt at *
    cases hget : u.steps[f]? with
    | none => simp [hget] at hd
    | some d' =>
        obtain ⟨hlt, -⟩ := Array.getElem?_eq_some_iff.mp hget
        rw [hget] at hd
        simpa [Array.getElem?_push, hlt.ne, hget] using hd

theorem push_clock (u : Unrolling) (c : Clock) : u.Within { u with clocks := u.clocks.push c } where
  system := rfl
  vars := rfl
  init := rfl
  clockAt {f d} hd := by
    unfold Unrolling.clockAt at *
    cases hget : u.clocks[f]? with
    | none => simp [hget] at hd
    | some d' =>
        obtain ⟨hlt, -⟩ := Array.getElem?_eq_some_iff.mp hget
        rw [hget] at hd
        simpa [Array.getElem?_push, hlt.ne, hget] using hd
  stepAt := id

/-- Nothing is lost when a step is added, nor when that fails. -/
theorem extend (u : Unrolling) : u.Within u.extend.2 := by
  unfold Unrolling.extend
  split
  · exact refl u
  · next e _ =>
      simp only
      split
      · exact push_step u e
      · exact (push_step u e).trans (push_clock _ _)

variable (h : u.Within v)

include h

theorem propAt (he : u.propAt f = .ok e) : v.propAt f = .ok e := by
  unfold Unrolling.propAt at *
  rw [h.system]
  exact bind_mono (fun _ => h.clockAt) (fun _ => id) he

theorem violationAt (he : u.violationAt f = .ok e) : v.violationAt f = .ok e :=
  bind_mono (fun _ => h.propAt) (fun _ => id) he

theorem allSame (he : u.allSame i f = .ok e) : v.allSame i f = .ok e := by
  unfold Unrolling.allSame at *
  rw [h.vars]
  exact bind_mono (fun _ => h.clockAt) (fun _ => bind_mono (fun _ => h.clockAt) fun _ => id) he

theorem distinctFromEarlier (hes : u.distinctFromEarlier f = .ok es) : v.distinctFromEarlier f = .ok es := by
  refine filterMapM_mono (fun i o ho => ?_) hes
  refine bind_mono (fun _ => h.clockAt) (fun c => bind_mono (fun _ => h.clockAt) fun d hd => ?_) ho
  split at hd
  · next heq => rwa [if_pos heq]
  · next hne =>
      rw [if_neg hne]
      exact bind_mono (fun _ => h.allSame) (fun _ => id) hd

theorem distinctIf {free : Bool} (hes : u.distinctIf free f = .ok es) : v.distinctIf free f = .ok es := by
  cases free with
  | false => exact hes
  | true => exact h.distinctFromEarlier hes

theorem search {free : Nat → Bool} (has : Search.constraints u free f = .ok as) :
    Search.constraints v free f = .ok as := by
  have harrival : ∀ f e, Search.arrival u f = .ok e → Search.arrival v f = .ok e := by
    intro f e he
    cases f with
    | zero =>
        rw [Search.arrival, h.init]
        exact he
    | succ f => exact h.stepAt he
  induction f generalizing as with
  | zero => exact has
  | succ f ih =>
      exact bind_mono (fun _ => ih)
        (fun _ => bind_mono (harrival f) fun _ => bind_mono (fun _ => h.distinctIf) fun _ => id) has

theorem induction {free : Nat → Bool} (has : Induction.constraints u free f = .ok as) :
    Induction.constraints v free f = .ok as := by
  induction f generalizing as with
  | zero => exact has
  | succ f ih =>
      exact bind_mono (fun _ => ih) (fun _ => bind_mono (fun _ => h.propAt) fun _ => bind_mono (fun _ => h.stepAt) fun _ =>
        bind_mono (fun _ => h.distinctIf) fun _ => id) has

theorem cut {first : Formula} (has : Interpolation.cut u last first = .ok as) : Interpolation.cut v last first = .ok as :=
  bind_mono (fun _ => h.stepAt) (fun _ => bind_mono (fun _ => mapM_mono fun _ _ => h.stepAt) fun _ => id) has

theorem moveBack {d : Formula} (hd : Interpolation.moveBack u e = .ok d) : Interpolation.moveBack v e = .ok d := by
  have hclock : ∀ f c, (Halt.ofFault (u.clockAt f) : Except (Halt FrameError) Clock) = .ok c →
      (Halt.ofFault (v.clockAt f) : Except (Halt FrameError) Clock) = .ok c := by
    intro f c hc
    cases hget : u.clockAt f with
    | error => simp [hget, Halt.ofFault] at hc
    | ok d =>
        rw [hget] at hc
        rwa [h.clockAt hget]
  exact bind_mono (hclock 1) (fun _ => bind_mono (fun _ => id) fun _ => bind_mono (hclock 0) fun _ => id) hd

theorem moved {others images : List Formula} (his : Interpolation.Moved u others es images) :
    Interpolation.Moved v others es images := by
  obtain ⟨own, hes, himages⟩ := his
  exact ⟨own, hes, mapM_mono (fun _ _ => h.moveBack) himages⟩

end Unrolling.Within

/-! ### Questions of larger unrollings -/

section Within

variable {u v : Unrolling} {free : Nat → Bool} {last : Nat} {others : List Formula} {l : Ledger}

theorem Search.Asks.within (h : Asks u free l) (huv : u.Within v) : Asks v free l := by
  cases h with
  | violation bad houter hbad hscope =>
      obtain ⟨path, hpath, houter⟩ := houter
      exact .violation bad ⟨path, huv.search hpath, houter⟩ (huv.violationAt hbad) hscope
  | path hfree houter hscope => exact .path hfree houter (huv.search hscope)

theorem Induction.Asks.within (h : Asks u free last l) (huv : u.Within v) : Asks v free last l where
  outer := by
    obtain ⟨path, hpath, houter⟩ := h.outer
    exact ⟨path, huv.induction hpath, houter⟩
  scope := by
    obtain ⟨bad, hbad, hscope⟩ := h.scope
    exact ⟨bad, huv.violationAt hbad, hscope⟩

theorem Interpolation.OnCut.within (h : OnCut u last others l) (huv : u.Within v) : OnCut v last others l where
  outer := h.outer
  scope := by
    obtain ⟨images, path, bad, himages, hpath, hbad, hscope⟩ := h.scope
    rw [← huv.init] at hpath
    exact ⟨images, path, bad, huv.moved himages, huv.cut hpath, huv.violationAt hbad, hscope⟩

theorem Interpolation.Asks.within (h : Asks u last others l) (huv : u.Within v) : Asks v last others l := by
  cases h with
  | violation hfresh frame steps bad hframe hsteps hbad houter hscope =>
      rw [← huv.init] at hscope
      exact .violation hfresh frame steps bad hframe (mapM_mono (fun _ _ => huv.stepAt) hsteps) (huv.violationAt hbad)
        houter
        hscope
  | path hfresh path distinct hpath hdistinct houter hscope =>
      rw [← huv.init] at hpath
      exact .path hfresh path distinct (huv.cut hpath) (huv.distinctFromEarlier hdistinct) houter hscope
  | cut hfresh hcut => exact .cut hfresh (hcut.within huv)
  | covered hfresh images new hreceived houter hscope =>
      rw [Interpolation.covered, ← huv.init] at hscope
      exact .covered hfresh images new (huv.moved hreceived) houter hscope

end Within

/-! ### Turns -/

variable {σ S A : Type} [Solver σ] {u : Unrolling} {free : Nat → Bool} {last frame : Nat} {l : Ledger}
variable {r : Reconstruction S A} {R : Rules} {loopFree : Bool}

@[simp] theorem Context.scope_assertAll {c : Context} {side : Option Partition} {es : List Formula} :
    (c.assertAll side es).scope = c.scope ++ es.map fun e => (side, e) := by
  induction es generalizing c with
  | nil => simp [assertAll]
  | cons e es ih =>
      rw [assertAll, List.foldl_cons, ← assertAll, ih]
      simp [assert]

namespace Search

/-- The path through the frames below `reached` is in the context, and the frames below `examined` were examined. -/
structure Reached (u : Unrolling) (free : Nat → Bool) (reached examined : Nat) (l : Ledger) : Prop where
  outer : l.context.outer = []
  scope : constraints u free reached = .ok l.context.scope
  nested : l.nested = examined

/-- The path to a frame is in the context, but for the constraints that the frame differs from earlier ones. -/
structure Arrived (u : Unrolling) (free : Nat → Bool) (frame : Nat) (l : Ledger) : Prop where
  outer : l.context.outer = []
  scope : ∀ distinct, u.distinctIf (free frame && 0 < frame) frame = .ok distinct →
    constraints u free (frame + 1) = .ok (l.context.scope ++ plain distinct)
  nested : l.nested = frame

theorem enters_reach (h : Reached u free frame frame l) :
    Enters (σ := σ) R (reach u frame) l fun _ => Arrived u free frame := by
  have hreach : (reach u frame : Talk σ Unit) = (do Talk.assert none (← Talk.ofFault (arrival u frame))) := by
    cases frame <;> rfl
  rw [hreach]
  refine .bind_ofFault fun first hfirst => .assert ⟨h.outer, fun distinct hdistinct => ?_, h.nested⟩
  simp [constraints, h.scope, hfirst, hdistinct, plain, Context.assert, bind, Except.bind, pure, Except.pure]

theorem enters_isBeyondPaths (h : Arrived u free frame l) (hfree : free frame = true ∧ 0 < frame) (hlast : frame ≤ last) :
    Enters (σ := σ) (rules u free last) (isBeyondPaths u frame) l fun _ => Reached u free (frame + 1) frame := by
  refine .bind_ofFault fun distinct hdistinct => ?_
  have hscope := h.scope distinct (by rw [Unrolling.distinctIf, hfree.1, decide_eq_true hfree.2]; exact hdistinct)
  refine (Enters.assertAll (Q := fun _ => Reached u free (frame + 1) frame) ?_).bind fun _ l' hl' => ?_
  · refine ⟨Context.outer_assertAll.trans h.outer, ?_, h.nested⟩
    rw [hscope, Context.scope_assertAll]
    rfl
  · have hnested := hl'.nested
    subst hnested
    refine (Enters.check (Q := fun _ => Reached u free (l'.nested + 1) l'.nested) ?_ fun status => ?_).bind
      fun _ _ hl => .pure hl
    · exact ⟨hlast, .path hfree hl'.outer hl'.scope⟩
    · refine ⟨hl'.outer, hl'.scope, ?_⟩
      simp [Ledger.enter, hl'.outer]

theorem enters_counterexample {Q : Trace S A → Ledger → Prop} (h : ∀ t, Q t l) :
    Enters (σ := σ) R (counterexample u r frame) l Q := by
  refine (Enters.model (Q := fun _ l' => l' = l) fun _ => rfl).bind ?_
  rintro m _ rfl
  cases u.trace m frame r with
  | ok t => exact .pure (h t)
  | error h => exact .throw

/-- A check for a violation in a scope of its own, and the end of the scope. -/
theorem enters_decide {ρ : Type} {violated : Trace S A → ρ} {unknown good : ρ} {scope : List Assertion}
    {outer : List (List Assertion)} {Q : ρ → Ledger → Prop} (hcheck : R.check l)
    (houter : l.context.outer = scope :: outer)
    (hQ : ∀ o, Q o { l with context := ⟨outer, scope, none⟩, nested := l.nested + 1, fresh := false }) :
    Enters (σ := σ) R (do
      let outcome ← match ← Talk.check with
        | .sat => do pure (violated (← counterexample u r frame))
        | .unknown => pure unknown
        | .unsat => pure good
      Talk.pop
      return outcome) l Q := by
  have hchecked : ∀ status, l.enter (.check (.ok status)) =
      { l with context := l.context.checked status, nested := l.nested + 1, fresh := false } := by
    intro status
    simp [Ledger.enter, houter, Exchange.call, Exchange.answer, Call.after, Except.map]
  have hclose : ∀ status o, Enters (σ := σ) R (do Talk.pop; return o) (l.enter (.check (.ok status))) Q := by
    intro status o
    rw [hchecked]
    exact .close houter (hQ o)
  refine (Enters.check (Q := fun status l' => l' = l.enter (.check (.ok status))) hcheck fun _ => rfl).bind ?_
  rintro status _ rfl
  cases status with
  | sat =>
      refine (enters_counterexample (Q := fun _ l' => l' = l.enter (.check (.ok .sat))) fun _ => rfl).bind ?_
      rintro t _ rfl
      exact hclose .sat _
  | unknown => exact hclose .unknown _
  | unsat => exact hclose .unsat _

theorem enters_violation (h : Reached u free (frame + 1) frame l) (hlast : frame ≤ last) :
    Enters (σ := σ) (rules u free last) (violation u r frame) l fun _ => Reached u free (frame + 1) (frame + 1) := by
  have hnested := h.nested
  subst hnested
  refine (Enters.push (Q := fun _ l' => l' = { l with context := l.context.push }) rfl).bind ?_
  rintro _ _ rfl
  refine .bind_ofFault fun bad hbad => ?_
  refine (Enters.assert (Q := fun _ l' => l'.nested = l.nested ∧ l'.context.outer = [l.context.scope] ∧
    l'.context.scope = [(none, bad)]) ?_).bind ?_
  · exact ⟨rfl, congrArg (l.context.scope :: ·) h.outer, rfl⟩
  · rintro _ l' ⟨hnested, houter, hscope⟩
    refine enters_decide ⟨hnested ▸ hlast, ?_⟩ houter fun o => ⟨rfl, h.scope, congrArg (· + 1) hnested⟩
    rw [← hnested] at h hbad
    exact .violation bad ⟨_, h.scope, houter⟩ hbad hscope

theorem enters_examine (h : Reached u free frame frame l) (hlast : frame ≤ last) (hfree : free frame = loopFree) :
    Enters (σ := σ) (rules u free last) (examine u loopFree r frame) l fun o l' =>
      o = none → Reached u free (frame + 1) (frame + 1) l' := by
  refine (enters_reach h).bind fun _ l₁ h₁ => ?_
  by_cases hdistinct : (loopFree && decide (0 < frame)) = true
  · rw [if_pos hdistinct]
    have hfree : free frame = true ∧ 0 < frame := by simpa [hfree] using hdistinct
    refine (enters_isBeyondPaths h₁ hfree hlast).bind fun beyond l₂ h₂ => ?_
    cases beyond with
    | true => exact .pure nofun
    | false => exact (enters_violation h₂ hlast).imp fun _ _ h₃ _ => h₃
  · rw [if_neg hdistinct]
    have hscope := h₁.scope [] (by rw [hfree, Unrolling.distinctIf, if_neg hdistinct]; rfl)
    have h₂ : Reached u free (frame + 1) frame l₁ := ⟨h₁.outer, by simpa [plain] using hscope, h₁.nested⟩
    exact (enters_violation h₂ hlast).imp fun _ _ h₃ _ => h₃

/-- By induction on the number of frames, each of which leaves the path to the next one. -/
theorem enters_examineFrom (n : Nat) (h : Reached u free frame frame l) (hlast : frame + n = last + 1)
    (hfree : ∀ g, frame ≤ g → g ≤ last → free g = loopFree) :
    Enters (σ := σ) (rules u free last) (examineFrom u loopFree r n frame) l fun o l' =>
      o.1 = none → o.2 = last + 1 ∧ Reached u free (last + 1) (last + 1) l' := by
  induction n generalizing frame l with
  | zero =>
      refine .pure fun _ => ?_
      subst hlast
      exact ⟨rfl, h⟩
  | succ n ih =>
      refine (enters_examine h (by omega) (hfree frame le_rfl (by omega))).bind fun o l' hl' => ?_
      cases o with
      | some o => exact .pure nofun
      | none => exact ih (hl' rfl) (by omega) fun g hg => hfree g (by omega)

theorem enters_turn (h : Reached u free frame frame l) (hframe : frame ≤ u.lastFrame + 1)
    (hfree : ∀ g, frame ≤ g → g ≤ u.lastFrame → free g = loopFree) :
    Enters (σ := σ) (rules u free u.lastFrame) (turn u loopFree r frame) l fun o l' =>
      o.1 = none → o.2 = u.lastFrame + 1 ∧ Reached u free (u.lastFrame + 1) (u.lastFrame + 1) l' :=
  enters_examineFrom _ h (by omega) hfree

end Search

namespace Induction

/-- The path of good states through the steps below the given one is in the context. -/
structure Reached (u : Unrolling) (free : Nat → Bool) (step : Nat) (l : Ledger) : Prop where
  outer : l.context.outer = []
  scope : constraints u free step = .ok l.context.scope

theorem enters_prolong (h : Reached u free frame l) (hfree : free (frame + 1) = loopFree) :
    Enters (σ := σ) R (prolong u loopFree frame) l fun _ => Reached u free (frame + 1) := by
  apply Enters.bind_ofFault
  intro good hgood
  apply (Enters.assert (Q := fun _ l' => l' = { l with context := l.context.assert none good }) rfl).bind
  intro _ _ hl
  subst hl
  apply Enters.bind_ofFault
  intro next hnext
  apply (Enters.assert (Q := fun _ l' =>
    l' = { l with context := (l.context.assert none good).assert none next }) rfl).bind
  intro _ _ hl
  subst hl
  have hscope : ∀ distinct, u.distinctIf loopFree (frame + 1) = .ok distinct →
      constraints u free (frame + 1) = .ok (l.context.scope ++ [(none, good)] ++ [(none, next)] ++ plain distinct) := by
    intro distinct hdistinct
    simp [constraints, h.scope, hgood, hnext, hfree, hdistinct, plain, bind, Except.bind, pure, Except.pure]
  cases loopFree with
  | false => exact .pure ⟨h.outer, by simpa [plain, Context.assert] using hscope [] rfl⟩
  | true =>
      apply Enters.bind_ofFault
      intro distinct hdistinct
      apply Enters.assertAll
      refine ⟨Context.outer_assertAll.trans h.outer, ?_⟩
      rw [hscope distinct hdistinct, Context.scope_assertAll]
      rfl

/-- By induction on the number of steps, each of which leaves a longer path. -/
theorem enters_prolongs (n : Nat) (h : Reached u free frame l)
    (hfree : ∀ g, frame < g → g ≤ frame + n → free g = loopFree) :
    Enters (σ := σ) R ((List.range' frame n).forM (prolong u loopFree)) l fun _ => Reached u free (frame + n) := by
  induction n generalizing frame l with
  | zero => exact .pure h
  | succ n ih =>
      apply (enters_prolong h (hfree _ (by omega) (by omega))).bind
      intro _ l' hl'
      rw [show frame + (n + 1) = frame + 1 + n by omega]
      exact ih hl' fun g hg hgn => hfree g (by omega) (by omega)

theorem enters_conclude (h : Reached u free u.lastFrame l) :
    Enters (σ := σ) (rules u free u.lastFrame) (conclude u) l fun _ => Reached u free u.lastFrame := by
  apply (Enters.push (Q := fun _ l' => l' = { l with context := l.context.push }) rfl).bind
  intro _ _ hl
  subst hl
  apply Enters.bind_ofFault
  intro bad hbad
  apply (Enters.assert (Q := fun _ l' =>
    l'.context.outer = [l.context.scope] ∧ l'.context.scope = [(none, bad)]) ?_).bind
  · intro _ l₁ hl₁
    have hasks : Asks u free u.lastFrame l₁ := ⟨⟨_, h.scope, hl₁.1⟩, ⟨bad, hbad, hl₁.2⟩⟩
    apply (Enters.check (Q := fun _ l' => l'.context.outer = [l.context.scope]) hasks fun _ => hl₁.1).bind
    intro status l₂ hl₂
    exact .close hl₂ ⟨rfl, h.scope⟩
  · exact ⟨congrArg _ h.outer, rfl⟩

theorem enters_turn (h : Reached u free frame l) (hframe : frame ≤ u.steps.size) (hsize : u.steps.size = u.lastFrame)
    (hfree : ∀ g, frame < g → g ≤ u.lastFrame → free g = loopFree) :
    Enters (σ := σ) (rules u free u.lastFrame) (turn (S := S) (A := A) u loopFree frame) l fun o l' =>
      o.2 = u.lastFrame ∧ Reached u free u.lastFrame l' := by
  have hlast : frame + (u.steps.size - frame) = u.lastFrame := by omega
  apply (enters_prolongs (u.steps.size - frame) h fun g hg hgn => hfree g hg (by omega)).bind
  intro _ l₁ hl₁
  rw [hlast] at hl₁
  apply (enters_conclude hl₁).bind
  intro status l₂ hl₂
  have hmax : max frame u.steps.size = u.lastFrame := by omega
  cases status with
  | unsat | sat | unknown => exact .pure ⟨hmax, hl₂⟩

end Induction

namespace Interpolation

theorem mapM_stepAt (n : Nat) (h : frame + n ≤ u.steps.size) :
    (List.range' frame n).mapM u.stepAt = .ok ((u.steps.toList.drop frame).take n) := by
  induction n generalizing frame with
  | zero => simp [pure, Except.pure]
  | succ n ih =>
      have hlt : frame < u.steps.toList.length := by
        rw [Array.length_toList]
        omega
      have hstep : u.stepAt frame = .ok u.steps.toList[frame] := by
        rw [Unrolling.stepAt, ← Array.getElem?_toList, List.getElem?_eq_getElem hlt]
      rw [List.range'_succ, List.mapM_cons, hstep, ih (by omega), List.drop_eq_getElem_cons hlt, List.take_succ_cons]
      rfl

/-- No scope is open and nothing is asserted. These interpolants were received. -/
structure Clear (received : List Formula) (l : Ledger) : Prop where
  outer : l.context.outer = []
  scope : l.context.scope = []
  received : l.received = received
  fresh : l.fresh = false

/-- The scope of a turn is open and nothing is asserted. The last interpolant was received just now if it is `fresh`. -/
structure Opened (received : List Formula) (fresh : Bool) (l : Ledger) : Prop where
  outer : l.context.outer = [[]]
  scope : l.context.scope = []
  received : l.received = received
  fresh : l.fresh = fresh

/-- The cut path is laid in a scope of its own. -/
structure Laid (u : Unrolling) (first : Formula) (received : List Formula) (l : Ledger) : Prop where
  outer : l.context.outer = [[], []]
  scope : cut u u.lastFrame first = .ok l.context.scope
  received : l.received = received
  fresh : l.fresh = false

theorem Clear.opened {received : List Formula} (h : Clear received l) :
    Opened received false { l with context := l.context.push } :=
  ⟨congrArg₂ _ h.scope h.outer, rfl, h.received, h.fresh⟩

theorem Opened.cleared {received : List Formula} (h : Opened received false l) :
    ∃ scope outer, l.context.outer = scope :: outer ∧ Clear received { l with context := ⟨outer, scope, none⟩ } :=
  ⟨[], [], h.outer, rfl, rfl, h.received, h.fresh⟩

variable {others received images : List Formula}

theorem enters_violation (hR : ∀ l, Asks u u.lastFrame others l → R.check l) (h : Clear received l)
    (hframe : frame < u.lastFrame) (hsize : u.steps.size = u.lastFrame) :
    Enters (σ := σ) R (violation u r frame) l fun _ => Clear received := by
  have hsteps : (List.range frame).mapM u.stepAt = .ok (u.steps.toList.take frame) := by
    rw [List.range_eq_range', mapM_stepAt frame (by omega), List.drop_zero]
  apply (Enters.push (Q := fun _ => Opened received false) h.opened).bind
  intro _ l₁ hl₁
  apply (Enters.assert (Q := fun _ l' => l' = { l₁ with context := l₁.context.assert none u.init }) rfl).bind
  intro _ _ hl
  subst hl
  apply (Enters.assertAll (Q := fun _ l' => l'.context.outer = [[]] ∧ l'.received = received ∧ l'.fresh = false ∧
    l'.context.scope = plain (u.init :: u.steps.toList.take frame)) ?_).bind
  · intro _ l₂ hl₂
    apply Enters.bind_ofFault
    intro bad hbad
    apply (Enters.assert (Q := fun _ l' => l'.context.outer = [[]] ∧ l'.received = received ∧ l'.fresh = false ∧
      l'.context.scope = plain (u.init :: u.steps.toList.take frame ++ [bad])) ?_).bind
    · intro _ l₃ hl₃
      obtain ⟨houter, hreceived, hfresh, hscope⟩ := hl₃
      have hasks : Asks u u.lastFrame others l₃ := .violation hfresh frame _ bad hframe hsteps hbad houter hscope
      exact Search.enters_decide (hR l₃ hasks) houter fun _ => ⟨rfl, rfl, hreceived, rfl⟩
    · refine ⟨hl₂.1, hl₂.2.1, hl₂.2.2.1, ?_⟩
      simp [Context.assert, hl₂.2.2.2, plain]
  · refine ⟨Context.outer_assertAll.trans hl₁.outer, hl₁.received, hl₁.fresh, ?_⟩
    rw [Context.scope_assertAll]
    simp [Context.assert, hl₁.scope, plain]

theorem enters_violationsFrom (hR : ∀ l, Asks u u.lastFrame others l → R.check l) (h : Clear received l)
    (hsize : u.steps.size = u.lastFrame) :
    Enters (σ := σ) R (violationsFrom u r (u.lastFrame - frame) frame) l fun _ => Clear received := by
  generalize hn : u.lastFrame - frame = n
  induction n generalizing frame l with
  | zero => exact .pure h
  | succ n ih =>
      apply (enters_violation hR h (by omega) hsize).bind
      intro o l' hl'
      cases o with
      | some o => exact .pure hl'
      | none => exact ih hl' (by omega)

section Turn

variable {first : Formula} (hpos : 0 < u.lastFrame) (hsize : u.steps.size = u.lastFrame)

include hpos hsize

theorem enters_split (h : Opened received false l) :
    Enters (σ := σ) R (split u first) l fun _ => Laid u first received := by
  have hsteps : (List.range' 1 (u.lastFrame - 1)).mapM u.stepAt = .ok (u.steps.toList.drop 1) := by
    rw [mapM_stepAt _ (by omega), List.take_of_length_le]
    rw [List.length_drop, Array.length_toList]
    omega
  apply (Enters.push (Q := fun _ l' => l' = { l with context := l.context.push }) rfl).bind
  intro _ _ hl
  subst hl
  apply (Enters.assert (Q := fun _ l' =>
    l' = { l with context := l.context.push.assert (some .a) first }) rfl).bind
  intro _ _ hl
  subst hl
  apply Enters.bind_ofFault
  intro step hstep
  apply (Enters.assert (Q := fun _ l' =>
    l' = { l with context := (l.context.push.assert (some .a) first).assert (some .a) step }) rfl).bind
  intro _ _ hl
  subst hl
  apply Enters.assertAll
  refine ⟨?_, ?_, h.received, h.fresh⟩
  · rw [Context.outer_assertAll]
    exact congrArg₂ _ h.scope h.outer
  · rw [Context.scope_assertAll]
    simp [cut, hstep, hsteps, Context.assert, Context.push, bind, Except.bind, pure, Except.pure]

omit hpos hsize in
theorem enters_assertViolation (h : Laid u (images.getLastD u.init) received l)
    (himages : Moved u others received images) :
    Enters (σ := σ) R (assertViolation u) l fun _ l' =>
      OnCut u u.lastFrame others l' ∧ l'.received = received ∧ l'.fresh = false := by
  apply Enters.bind_ofFault
  intro bad hbad
  apply Enters.assert
  exact ⟨⟨h.outer, images, _, bad, h.received ▸ himages, h.scope, hbad, rfl⟩, h.received, h.fresh⟩

omit hpos hsize in
theorem enters_isBeyondPaths (hR : ∀ l, Asks u u.lastFrame others l → R.check l) (h : Laid u u.init received l) :
    Enters (σ := σ) R (isBeyondPaths u) l fun _ => Laid u u.init received := by
  apply (Enters.push (Q := fun _ l' => l' = { l with context := l.context.push }) rfl).bind
  intro _ _ hl
  subst hl
  apply Enters.bind_ofFault
  intro distinct hdistinct
  apply (Enters.assertAll (Q := fun _ l' => l'.context.outer = [l.context.scope, [], []] ∧
    l'.context.scope = plain distinct ∧ l'.received = received ∧ l'.fresh = false) ?_).bind
  · intro _ l₁ hl₁
    have hasks : Asks u u.lastFrame others l₁ := .path hl₁.2.2.2 _ distinct h.scope hdistinct hl₁.1 hl₁.2.1
    apply (Enters.check (Q := fun _ l' => l'.context.outer = [l.context.scope, [], []] ∧ l'.received = received ∧
      l'.fresh = false) (hR l₁ hasks) fun _ => ⟨hl₁.1, hl₁.2.2.1, rfl⟩).bind
    intro status l₂ hl₂
    exact .close hl₂.1 ⟨rfl, h.scope, hl₂.2.1, hl₂.2.2⟩
  · refine ⟨?_, ?_, h.received, h.fresh⟩
    · rw [Context.outer_assertAll]
      exact congrArg _ h.outer
    · rw [Context.scope_assertAll]
      rfl

omit hpos hsize in
/-- An interpolant is received, and moved back to the first frame. -/
theorem enters_image (h : OnCut u u.lastFrame others l) (himages : Moved u others l.received images) :
    Enters (σ := σ) (rules u u.lastFrame others) (image u) l fun new l' => l'.context.outer = [[], []] ∧
      l'.fresh = true ∧ Moved u others l'.received (images ++ [new]) := by
  apply (Enters.interpolant (Q := fun e l' =>
    l' = { l with received := l.received ++ [e], fresh := true }) h fun _ => rfl).bind
  intro e _ hl
  subst hl
  apply Enters.bind_ofFault
  intro c₁ hc₁
  cases hfold : e.fold c₁ with
  | error => exact .throw
  | ok d =>
      apply Enters.bind_ofFault
      intro c₀ hc₀
      apply Enters.ofFault
      intro new hnew
      have hmove : moveBack u e = .ok new := by
        simp [moveBack, hc₁, hfold, hc₀, hnew, Halt.ofFault, Halt.ofError, bind, Except.bind]
      obtain ⟨own, hreceived, hown⟩ := himages
      refine ⟨h.outer, rfl, own ++ [e], ?_, ?_⟩
      · rw [hreceived, List.append_assoc]
      · simp [List.mapM_append, hown, hmove, bind, Except.bind, pure, Except.pure]

omit hpos hsize in
theorem enters_isCovered {new : Formula} (h : Opened received true l)
    (himages : Moved u others received (images ++ [new])) :
    Enters (σ := σ) (rules u u.lastFrame others) (isCovered new (covered u images)) l
      fun _ => Opened received false := by
  apply (Enters.push (Q := fun _ l' => l' = { l with context := l.context.push }) rfl).bind
  intro _ _ hl
  subst hl
  apply (Enters.assert (Q := fun _ l' =>
    l' = { l with context := l.context.push.assert (some .a) new }) rfl).bind
  intro _ _ hl
  subst hl
  apply (Enters.assert (Q := fun _ l' => l'.context.outer = [[], []] ∧
    l'.context.scope = [(some .a, new), (some .a, (covered u images).mkNot)] ∧ l'.received = received ∧
    l'.fresh = true) ?_).bind
  · intro _ l₁ hl₁
    have hasks : Asks u u.lastFrame others l₁ :=
      .covered hl₁.2.2.2 images new (hl₁.2.2.1 ▸ himages) hl₁.1 hl₁.2.1
    apply (Enters.check (Q := fun _ l' => l'.context.outer = [[], []] ∧ l'.received = received ∧ l'.fresh = false) hasks
      fun _ => ⟨hl₁.1, hl₁.2.2.1, rfl⟩).bind
    intro status l₂ hl₂
    exact .close hl₂.1 ⟨rfl, rfl, hl₂.2.1, hl₂.2.2⟩
  · exact ⟨congrArg₂ _ h.scope h.outer, rfl, h.received, h.fresh⟩

/-- By induction on the number of rounds. Each round starts on the path from the newest states to a violation, with the
interpolants received so far. -/
theorem enters_cover (rounds : Nat) (h : OnCut u u.lastFrame others l) (himages : Moved u others l.received images) :
    Enters (σ := σ) (rules u u.lastFrame others) (cover (S := S) (A := A) u rounds (covered u images)) l fun _ l' =>
      ∃ received, Opened received false l' := by
  induction rounds generalizing images l with
  | zero => exact .throw
  | succ n ih =>
      apply (enters_image h himages).bind
      intro new l₁ hl₁
      obtain ⟨houter, hfresh, hnew⟩ := hl₁
      apply (Enters.pop (Q := fun _ => Opened l₁.received true) houter ⟨rfl, rfl, rfl, hfresh⟩).bind
      intro _ l₂ hl₂
      apply (enters_isCovered hl₂ hnew).bind
      intro status l₃ hl₃
      cases status with
      | unsat | unknown => exact .pure ⟨_, hl₃⟩
      | sat =>
          have hnewest : (images ++ [new]).getLastD u.init = new := by simp
          apply (enters_split hpos hsize hl₃).bind
          intro _ l₄ hl₄
          rw [← hnewest] at hl₄
          apply (enters_assertViolation hl₄ hnew).bind
          intro _ l₅ hl₅
          obtain ⟨hcut, hreceived, hfresh⟩ := hl₅
          apply (Enters.check (Q := fun _ l' => OnCut u u.lastFrame others l' ∧ l'.received = l₁.received ∧
            l'.fresh = false) (Asks.cut hfresh hcut) fun _ => ⟨⟨hcut.outer, hcut.scope⟩, hreceived, rfl⟩).bind
          intro status l₆ hl₆
          cases status with
          | unsat =>
              rw [mkOr_covered]
              exact ih hl₆.1 (hl₆.2.1 ▸ hnew)
          | sat | unknown => exact .close hl₆.1.outer ⟨_, rfl, rfl, hl₆.2.1, hl₆.2.2⟩

theorem enters_decideViolation {rounds checked : Nat} (h : Laid u u.init others l) :
    Enters (σ := σ) (rules u u.lastFrame others) (decideViolation u rounds r checked) l fun _ l' =>
      ∃ received, Opened received false l' := by
  have hnone : Moved u others others [] := ⟨[], (List.append_nil _).symm, rfl⟩
  apply (enters_assertViolation h hnone).bind
  intro _ l₁ hl₁
  obtain ⟨hcut, hreceived, hfresh⟩ := hl₁
  apply (Enters.check (Q := fun _ l' => OnCut u u.lastFrame others l' ∧ l'.received = others ∧ l'.fresh = false)
    (Asks.cut hfresh hcut) fun _ => ⟨⟨hcut.outer, hcut.scope⟩, hreceived, rfl⟩).bind
  intro status l₂ hl₂
  cases status with
  | sat =>
      apply (Search.enters_counterexample (Q := fun _ l' => l' = l₂) fun _ => rfl).bind
      intro t _ hl
      subst hl
      exact .close hl₂.1.outer ⟨_, rfl, rfl, hl₂.2.1, hl₂.2.2⟩
  | unknown => exact .close hl₂.1.outer ⟨_, rfl, rfl, hl₂.2.1, hl₂.2.2⟩
  | unsat =>
      have hnone : Moved u others l₂.received [] := by rwa [hl₂.2.1]
      apply (enters_cover hpos hsize rounds hl₂.1 hnone).bind
      intro _ l₃ hl₃
      exact Enters.pure (Q := fun _ l' => ∃ received, Opened received false l') hl₃

theorem enters_refine {rounds checked : Nat} (h : Opened others false l) :
    Enters (σ := σ) (rules u u.lastFrame others) (refine u rounds loopFree r checked) l fun _ l' =>
      ∃ received, Opened received false l' := by
  rw [refine_eq]
  apply (enters_split hpos hsize h).bind
  intro _ l₁ hl₁
  cases loopFree with
  | false => exact enters_decideViolation hpos hsize hl₁
  | true =>
      apply (enters_isBeyondPaths (fun _ => id) hl₁).bind
      intro beyond l₂ hl₂
      cases beyond with
      | true => exact .close hl₂.outer ⟨_, rfl, rfl, hl₂.received, hl₂.fresh⟩
      | false => exact enters_decideViolation hpos hsize hl₂

theorem enters_turn {rounds checked : Nat} (h : Clear others l) :
    Enters (σ := σ) (rules u u.lastFrame others) (turn u rounds loopFree r checked) l fun _ l' =>
      ∃ received, Clear received l' := by
  apply (enters_violationsFrom (fun _ => id) h hsize).bind
  intro o l₁ hl₁
  match o with
  | (some o, _) => exact .pure ⟨_, hl₁⟩
  | (none, p) =>
      apply (Enters.push (Q := fun _ => Opened others false) hl₁.opened).bind
      intro _ l₂ hl₂
      apply (enters_refine hpos hsize hl₂).andFinally
      intro _ l₃ hl₃
      obtain ⟨received, hl₃⟩ := hl₃
      obtain ⟨scope, outer, houter, hclear⟩ := hl₃.cleared
      exact ⟨scope, outer, houter, received, hclear⟩

end Turn

end Interpolation

end Invariance
