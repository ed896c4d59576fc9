import Invariance.Proofs.Engine.Unrolling
import Invariance.Proofs.Formula.Valuations

/-!
Unrolled formulas are those of the system, moved in time. A formula unfolded at a clock says of the symbols there what
the formula says over a step, at later clocks it is the same formula about later symbols, and so is each step of an
unrolling. Formulas about one frame are moved to another one by folding and unfolding them.
-/

namespace Invariance

variable {e f : Formula} {c : Clock} {s : TransitionSystem} {u : Unrolling} {n : Nat}

/-- What a formula is when it is unfolded at a clock. -/
structure Formula.Unfolds (e : Formula) (c : Clock) (f : Formula) : Prop where
  unfold_eq : e.unfold c = .ok f
  timed : f.Timed
  /-- Over a step, unprimed variables have the values of their symbols at the clock, and primed ones those of the
  next generation. -/
  value : e.SingleStep → ∀ (σ : Assignment) (s t : Valuation), σ.Shows s c.get e → σ.Shows t (fun x => c.get x + 1) e →
    Alike Eq (σ.valueOf f) (e.evalStep s t)
  /-- At a later clock, each symbol is later by the offset of its variable. -/
  later : ∀ d k, c.advance d = .ok k → e.unfold k ≠ .error .overflow →
    e.unfold k = .ok (f.retime fun x m => d.get x + m)

theorem Formula.exists_unfolds (he : e.SymbolFree) (hc : e.unfold c ≠ .error .overflow) :
    ∃ f, e.Unfolds c f := by
  obtain ⟨f, hf⟩ := exists_unfold_eq_ok hc
  obtain ⟨rfl, -⟩ := of_unfold_eq_ok he hf
  refine ⟨_, hf, retime_timed, fun hstep σ s t hs ht => alike_valueOf_placeAt he hstep hs ht, fun d k hk hnot => ?_⟩
  obtain ⟨g, hg⟩ := exists_unfold_eq_ok hnot
  obtain ⟨rfl, -⟩ := of_unfold_eq_ok he hg
  rw [hg, placeAt, placeAt, retime_retime]
  congr 2
  funext x m
  rw [(Clock.get_advance hk x).1]
  omega

namespace Unrolling

/-- The unrolling of a system after it has been extended `n` times. -/
inductive After (s : TransitionSystem) : Nat → Unrolling → Prop
  | start {u : Unrolling} (h : ofSystem s = .ok u) : After s 0 u
  | extend {n : Nat} {u u' : Unrolling} (h : After s n u) (hext : u.extend = (.ok (), u')) : After s (n + 1) u'

/-- The frames and steps of an unrolling lie at multiples of the offset. -/
structure Periodic (s : TransitionSystem) (n : Nat) (u : Unrolling) : Prop where
  lastFrame : u.lastFrame = n
  clock : ∀ f ≤ n, ∃ c, u.clockAt f = .ok c ∧ ∀ x, c.get x = f * s.offset.get x
  /-- Each step is the first one, later by the clock of its frame. -/
  step : ∀ f < n, ∃ c e, u.clockAt f = .ok c ∧ u.stepAt 0 = .ok e ∧ u.stepAt f = .ok (e.retime fun x m => c.get x + m)
  /-- What is said of the second frame can be said of the first. -/
  back : 0 < n → ∃ c₀ c₁, u.clockAt 0 = .ok c₀ ∧ u.clockAt 1 = .ok c₁ ∧ ∀ e : Formula, e.Timed →
    (∀ g, .sym g ∈ e.subformulas → g.generation = c₁.get g.base) →
    ∃ d f, e.fold c₁ = .ok d ∧ d.unfold c₀ = .ok f ∧
      ∀ σ τ : Assignment, (∀ x, τ x (c₁.get x) = σ x (c₀.get x)) → (σ.Satisfies f ↔ τ.Satisfies e)

/-- Extending an unrolling adds a frame and a step of the system. -/
theorem After.unrolled (h : After s n u) (hinit : s.init.SymbolFree) (htrans : s.trans.SymbolFree) :
    Unrolled s n u := by
  induction h with
  | start h => exact unrolled_ofSystem hinit h
  | extend _ hext ih => exact ih.extend htrans hext

end Unrolling

namespace Unrolled

theorem stepAt_eq_retime {f : Nat} (h : Unrolled s n u) (hf : f < n) (hc : ∀ x, c.get x = s.frame f x) :
    u.stepAt f = .ok ((s.stepFrom 0).retime fun x m => c.get x + m) := by
  rw [h.stepAt hf, TransitionSystem.stepFrom, TransitionSystem.stepFrom, Formula.placeAt, Formula.placeAt,
    Formula.retime_retime, TransitionSystem.frame_zero]
  congr 2
  funext x m
  rw [hc, Nat.zero_add]

end Unrolled

namespace Formula

variable {c₀ c₁ : Clock}

/-- A formula about one clock is moved to another one, where it says the same. -/
theorem exists_moved (he : e.Timed) (hat : ∀ g, .sym g ∈ e.subformulas → g.generation = c₁.get g.base)
    (hc : ∀ x, c₀.get x < Word.bound32) :
    ∃ d f, e.fold c₁ = .ok d ∧ d.unfold c₀ = .ok f ∧
      ∀ σ τ : Assignment, (∀ x, τ x (c₁.get x) = σ x (c₀.get x)) → (σ.Satisfies f ↔ τ.Satisfies e) := by
  obtain ⟨d, hd, hunfold⟩ := exists_fold_unfold_eq_ok (c := c₁) (d := c₀) he (fun g hg => (hat g hg).ge) fun g hg => by
    rw [hat g hg, Nat.sub_self]
    exact hc _
  refine ⟨d, _, hd, hunfold, fun σ τ hστ => ?_⟩
  rw [Assignment.satisfies_retime he]
  refine Assignment.satisfies_congr he fun g hg => ?_
  rw [Assignment.retime, hat g hg, Nat.sub_self, Nat.add_zero, hστ]

end Formula

namespace Unrolling

/-- Moving in time is faithful. -/
theorem After.periodic (h : After s n u) (hinit : s.init.SymbolFree) (htrans : s.trans.SymbolFree) :
    Periodic s n u := by
  have hu := h.unrolled hinit htrans
  refine ⟨hu.lastFrame, fun f hf => ?_, fun f hf => ?_, fun hn => ?_⟩
  · obtain ⟨c, hc, -, hget⟩ := hu.exists_clockAt hf
    exact ⟨c, hc, fun x => (hget x).1⟩
  · obtain ⟨c, hc, -, hget⟩ := hu.exists_clockAt hf.le
    exact ⟨c, s.stepFrom 0, hc, hu.stepAt (by omega), hu.stepAt_eq_retime hf fun x => (hget x).1⟩
  · obtain ⟨c₀, hc₀, -, hget₀⟩ := hu.exists_clockAt n.zero_le
    obtain ⟨c₁, hc₁, -, -⟩ := hu.exists_clockAt (f := 1) hn
    exact ⟨c₀, c₁, hc₀, hc₁, fun e he hat => Formula.exists_moved he hat fun x => (hget₀ x).2⟩

/-- Formulas over variables are unfolded faithfully, and the unrolling of a system that is made of them consists of
copies of its formulas, one for each frame. -/
theorem exists_unfolds_and_periodic (he : e.SymbolFree) (hc : e.unfold c ≠ .error .overflow) (hinit : s.init.SymbolFree)
    (htrans : s.trans.SymbolFree) (hu : After s n u) : (∃ f, e.Unfolds c f) ∧ Periodic s n u :=
  ⟨Formula.exists_unfolds he hc, hu.periodic hinit htrans⟩

/-- A flag that is turned over by each step, which advances it by two generations. -/
private def turning : TransitionSystem where
  init := .var ⟨"x", .bool⟩
  trans := .eq (.prime (.prime (.var ⟨"x", .bool⟩))) (.not (.var ⟨"x", .bool⟩))
  prop := .bool true
  offset := .all 2

theorem periodic_turning : ∃ u, After turning 2 u ∧ Periodic turning 2 u ∧ ∃ f, turning.trans.Unfolds (.all 3) f := by
  have hinit : turning.init.SymbolFree := by simp [turning, Formula.SymbolFree, Formula.subformulas]
  have htrans : turning.trans.SymbolFree := by simp [turning, Formula.SymbolFree, Formula.subformulas]
  have hc : turning.trans.unfold (.all 3) ≠ .error .overflow := by
    rw [show turning.trans.unfold (.all 3) = .ok _ from rfl]
    exact nofun
  have hu : After turning 2 _ := .extend (.extend (.start rfl) rfl) rfl
  obtain ⟨hunfolds, hperiodic⟩ := exists_unfolds_and_periodic htrans hc hinit htrans hu
  exact ⟨_, hu, hperiodic, hunfolds⟩

end Unrolling

end Invariance
