import Invariance.TransitionSystem
import Invariance.Proofs.Dynamics.Paths
import Invariance.Proofs.Formula.Predicates

/-!
The dynamics of a system. States give values to its variables, and steps relate states at the present and at the
next frame; in between, a variable with a larger offset passes through more generations. An assignment to symbols
gives a state to each frame, and paths of states are exactly what assignments make of the unrolled formulas.
-/

namespace Invariance

/-- Values of the given variables, each within its domain. -/
def State (xs : List Variable) : Type :=
  (x : {x // x ∈ xs}) → {v : Value // v.fits x.1.domain}

theorem Value.default_fits (d : Domain) : (Value.default d).fits d := by
  match d with
  | .bool => rfl
  | .int w =>
      refine beq_iff_eq.mpr ((Word.truncate_eq_self_iff w.pos (w.le.trans (by decide))).mpr ?_)
      have hpos : (0 : Int) < 2 ^ w.bits := Int.pow_pos (by decide)
      constructor <;> simp

namespace Assignment

instance : Inhabited Assignment :=
  ⟨fun x _ => ⟨.default x.domain, Value.default_fits x.domain⟩⟩

/-- The state at a frame. -/
def stateAt (σ : Assignment) (xs : List Variable) (frame : Variable → Nat) : State xs :=
  fun x => σ x.1 (frame x.1)

end Assignment

/-- The assignment that gives a state to every generation. -/
def State.always {xs : List Variable} (s : State xs) : Assignment :=
  fun x m => if h : x ∈ xs then s ⟨x, h⟩ else (default : Assignment) x m

theorem State.stateAt_always {xs : List Variable} (s : State xs) (frame : Variable → Nat) :
    s.always.stateAt xs frame = s := by
  funext x
  simp [Assignment.stateAt, always, x.2]

/-- No variable stands under more primes than the bound says. In the formula placed at the first frame, a
variable under `n` primes is its symbol of generation `n`. -/
def Formula.PrimesWithin (bound : Variable → Nat) (e : Formula) : Prop :=
  ∀ g, .sym g ∈ (e.placeAt fun _ => 0).subformulas → g.generation ≤ bound g.base

theorem Formula.PrimeFree.primesWithin {e : Formula} (h : e.PrimeFree) (hsym : e.SymbolFree) :
    e.PrimesWithin fun _ => 0 :=
  fun _ hg => (generation_of_primeFree hsym h hg).le

theorem Formula.SingleStep.primesWithin {e : Formula} (h : e.SingleStep) (hsym : e.SymbolFree) :
    e.PrimesWithin fun _ => 1 := by
  intro g hg
  rcases generation_of_singleStep hsym h hg with hgen | hgen
  · exact hgen.trans_le (Nat.zero_le 1)
  · exact hgen.le

namespace TransitionSystem

variable {s : TransitionSystem} {σ τ : Assignment} {π : Nat → State s.vars.elements} {f n : Nat}

/-- The formulas of the system are boolean and speak of variables; initial states and the property of the present
one, and steps of no later generation than that of the next frame. -/
structure Regular (s : TransitionSystem) : Prop where
  init_bool : s.init.HasKind .bool
  trans_bool : s.trans.HasKind .bool
  prop_bool : s.prop.HasKind .bool
  init_free : s.init.SymbolFree
  trans_free : s.trans.SymbolFree
  prop_free : s.prop.SymbolFree
  init_now : s.init.PrimesWithin fun _ => 0
  trans_within : s.trans.PrimesWithin s.offset.get
  prop_now : s.prop.PrimesWithin fun _ => 0

/-- A system in the usual form: a step advances every variable by one generation, and no prime stands below a prime. -/
structure Monolithic (s : TransitionSystem) : Prop where
  offset : s.offset = .all 1
  init_bool : s.init.HasKind .bool
  trans_bool : s.trans.HasKind .bool
  prop_bool : s.prop.HasKind .bool
  init_free : s.init.SymbolFree
  trans_free : s.trans.SymbolFree
  prop_free : s.prop.SymbolFree
  init_now : s.init.PrimeFree
  trans_step : s.trans.SingleStep
  prop_now : s.prop.PrimeFree

theorem Monolithic.regular (h : s.Monolithic) : s.Regular where
  init_bool := h.init_bool
  trans_bool := h.trans_bool
  prop_bool := h.prop_bool
  init_free := h.init_free
  trans_free := h.trans_free
  prop_free := h.prop_free
  init_now := h.init_now.primesWithin h.init_free
  trans_within := h.offset ▸ h.trans_step.primesWithin h.trans_free
  prop_now := h.prop_now.primesWithin h.prop_free

/-- The generations of a frame. -/
def frame (s : TransitionSystem) (f : Nat) : Variable → Nat :=
  fun x => f * s.offset.get x

/-- The initial states, at the first frame. -/
def initial (s : TransitionSystem) : Formula :=
  s.init.placeAt (s.frame 0)

/-- The step from a frame. -/
def stepFrom (s : TransitionSystem) (f : Nat) : Formula :=
  s.trans.placeAt (s.frame f)

/-- The property in a frame. -/
def propIn (s : TransitionSystem) (f : Nat) : Formula :=
  s.prop.placeAt (s.frame f)

/-- The state that an assignment gives to a frame. -/
def state (s : TransitionSystem) (σ : Assignment) (f : Nat) : State s.vars.elements :=
  σ.stateAt s.vars.elements (s.frame f)

/-- The states of the system and its steps. -/
def dynamics (s : TransitionSystem) : Dynamics (State s.vars.elements) where
  Initial a := ∃ σ, s.state σ 0 = a ∧ σ.Satisfies s.initial
  Step a b := ∃ σ, s.state σ 0 = a ∧ s.state σ 1 = b ∧ σ.Satisfies (s.stepFrom 0)
  Good a := ∃ σ, s.state σ 0 = a ∧ σ.Satisfies (s.propIn 0)

/-! ### Symbols of the unrolled formulas -/

theorem frame_zero : s.frame 0 = fun _ => 0 := by
  funext x
  exact Nat.zero_mul _

theorem frame_succ (x : Variable) : s.frame (f + 1) x = s.frame f x + s.offset.get x :=
  Nat.succ_mul _ _

theorem Monolithic.frame_eq (h : s.Monolithic) : s.frame f = fun _ => f := by
  funext x
  rw [frame, h.offset, Clock.get_all, Nat.mul_one]

/-- A symbol of a variable of the system, at a frame or between it and the next one. -/
structure Within (s : TransitionSystem) (f : Nat) (g : Symbol) : Prop where
  mem : g.base ∈ s.vars.elements
  le : s.frame f g.base ≤ g.generation
  lt : g.generation ≤ s.frame (f + 1) g.base

theorem mem_vars {e : Formula} {x : Variable} (he : e = s.init ∨ e = s.trans ∨ e = s.prop)
    (hx : .var x ∈ e.subformulas) : x ∈ s.vars.elements := by
  rw [vars, SortedSet.mem_elements_ofList]
  simp only [List.mem_append, Formula.mem_vars]
  rcases he with rfl | rfl | rfl
  · exact .inl (.inl hx)
  · exact .inl (.inr hx)
  · exact .inr hx

/-- The symbols of a formula of the system that is placed at a frame. -/
private theorem of_sym_mem_placeAt {e : Formula} (he : e = s.init ∨ e = s.trans ∨ e = s.prop)
    (hfree : e.SymbolFree) {bound : Variable → Nat} (hwithin : e.PrimesWithin bound) {g : Symbol}
    (hg : .sym g ∈ (e.placeAt (s.frame f)).subformulas) :
    g.base ∈ s.vars.elements ∧ ∃ m ≤ bound g.base, g.generation = s.frame f g.base + m := by
  refine ⟨mem_vars he (Formula.var_mem_of_sym_mem_placeAt hfree hg), ?_⟩
  rw [Formula.placeAt_eq_retime] at hg
  obtain ⟨m, hm, hgen⟩ := Formula.exists_of_sym_mem_retime Formula.retime_timed hg
  exact ⟨m, hwithin _ hm, hgen⟩

namespace Regular

theorem of_sym_mem_initial (h : s.Regular) {g : Symbol} (hg : .sym g ∈ s.initial.subformulas) :
    g.base ∈ s.vars.elements ∧ g.generation = s.frame 0 g.base := by
  obtain ⟨hx, m, hm, hgen⟩ := of_sym_mem_placeAt (.inl rfl) h.init_free h.init_now hg
  exact ⟨hx, by rw [hgen, Nat.le_zero.mp hm, Nat.add_zero]⟩

theorem of_sym_mem_propIn (h : s.Regular) {g : Symbol} (hg : .sym g ∈ (s.propIn f).subformulas) :
    g.base ∈ s.vars.elements ∧ g.generation = s.frame f g.base := by
  obtain ⟨hx, m, hm, hgen⟩ := of_sym_mem_placeAt (.inr (.inr rfl)) h.prop_free h.prop_now hg
  exact ⟨hx, by rw [hgen, Nat.le_zero.mp hm, Nat.add_zero]⟩

theorem of_sym_mem_stepFrom (h : s.Regular) {g : Symbol} (hg : .sym g ∈ (s.stepFrom f).subformulas) :
    s.Within f g := by
  obtain ⟨hx, m, hm, hgen⟩ := of_sym_mem_placeAt (.inr (.inl rfl)) h.trans_free h.trans_within hg
  exact ⟨hx, by rw [hgen]; exact Nat.le_add_right _ _, by rw [hgen, frame_succ]; exact Nat.add_le_add_left hm _⟩

end Regular

/-! ### Assignments and states -/

/-- What holds at a frame holds of the assignment from that frame on. -/
theorem satisfies_placeAt (e : Formula) (frame : Variable → Nat) :
    σ.Satisfies (e.placeAt frame) ↔ (σ.onward frame).Satisfies (e.placeAt fun _ => 0) := by
  rw [Formula.placeAt_eq_retime]
  exact Assignment.satisfies_retime Formula.retime_timed

theorem satisfies_stepFrom : σ.Satisfies (s.stepFrom f) ↔ (σ.onward (s.frame f)).Satisfies (s.stepFrom 0) := by
  rw [stepFrom, stepFrom, satisfies_placeAt, frame_zero]

theorem state_onward : s.state (σ.onward (s.frame f)) n = s.state σ (f + n) := by
  funext x
  simp only [state, Assignment.stateAt, Assignment.onward, Assignment.retime, frame, Nat.add_mul]

theorem satisfies_congr_state {e : Formula} (he : e.Timed)
    (hsym : ∀ g, .sym g ∈ e.subformulas → g.base ∈ s.vars.elements ∧ g.generation = s.frame f g.base)
    (hstate : s.state σ f = s.state τ f) : σ.Satisfies e ↔ τ.Satisfies e := by
  refine Assignment.satisfies_congr he fun g hg => ?_
  obtain ⟨hx, hgen⟩ := hsym g hg
  rw [hgen]
  exact congrFun hstate ⟨_, hx⟩

theorem Regular.initial_iff (h : s.Regular) : s.dynamics.Initial (s.state σ 0) ↔ σ.Satisfies s.initial := by
  constructor
  · rintro ⟨τ, hstate, hτ⟩
    exact (satisfies_congr_state Formula.retime_timed (fun _ => h.of_sym_mem_initial) hstate).mp hτ
  · exact fun hσ => ⟨σ, rfl, hσ⟩

theorem Regular.good_iff (h : s.Regular) : s.dynamics.Good (s.state σ f) ↔ σ.Satisfies (s.propIn f) := by
  rw [propIn, satisfies_placeAt, ← frame_zero (s := s), ← propIn]
  have hstate : s.state (σ.onward (s.frame f)) 0 = s.state σ f := state_onward
  rw [← hstate]
  constructor
  · rintro ⟨τ, hτ, hgood⟩
    exact (satisfies_congr_state Formula.retime_timed (fun _ => h.of_sym_mem_propIn) hτ).mp hgood
  · exact fun hσ => ⟨_, rfl, hσ⟩

theorem step_of_satisfies (h : σ.Satisfies (s.stepFrom f)) :
    s.dynamics.Step (s.state σ f) (s.state σ (f + 1)) :=
  ⟨_, state_onward, state_onward, satisfies_stepFrom.mp h⟩

/-! ### Paths -/

/-- The assignment that follows one assignment after the other, each from one frame to the next. -/
def splice (s : TransitionSystem) (τ : Nat → Assignment) : Assignment :=
  fun x m => τ (m / s.offset.get x) x (m % s.offset.get x)

/-- Assignments that fit together: each begins in the state in which the one before it ends. -/
private theorem splice_eq {τ : Nat → Assignment} (hlink : ∀ i < n, s.state (τ i) 1 = s.state (τ (i + 1)) 0)
    {x : Variable} (hx : x ∈ s.vars.elements) {i m : Nat} (hi : i ≤ n) (hm : m ≤ s.offset.get x)
    (hend : i = n → m = 0) : s.splice τ x (s.frame i x + m) = τ i x m := by
  have hnext : ∀ i < n, τ i x (s.offset.get x) = τ (i + 1) x 0 := fun i hi => by
    have := congrFun (hlink i hi) ⟨x, hx⟩
    simpa only [state, Assignment.stateAt, frame, Nat.one_mul, Nat.zero_mul] using this
  rcases Nat.eq_zero_or_pos (s.offset.get x) with hzero | hpos
  · -- a variable that never moves has the value it starts with
    have hsame : ∀ i ≤ n, τ i x 0 = τ 0 x 0 := by
      intro i
      induction i with
      | zero => exact fun _ => rfl
      | succ i ih =>
          intro hi
          rw [← ih (by omega), ← hnext i hi, hzero]
    obtain rfl : m = 0 := by omega
    rw [hsame i hi]
    simp only [splice, frame, hzero, Nat.mul_zero, Nat.add_zero, Nat.div_zero, Nat.mod_zero]
  · rcases Nat.lt_or_eq_of_le hm with hlt | rfl
    · simp only [splice, frame]
      rw [Nat.mul_comm, Nat.mul_add_div hpos, Nat.div_eq_of_lt hlt, Nat.add_zero, Nat.mul_add_mod,
        Nat.mod_eq_of_lt hlt]
    · have hlt : i < n := by
        rcases Nat.lt_or_eq_of_le hi with h | h
        · exact h
        · exact absurd (hend h) hpos.ne'
      rw [hnext i hlt, ← frame_succ]
      simp only [splice, frame, Nat.mul_div_cancel _ hpos, Nat.mul_mod_left]

/-- A path of states is what some assignment makes of the unrolled steps. -/
theorem Regular.exists_assignment (h : s.Regular) (hpath : s.dynamics.Path π n) :
    ∃ σ, (∀ i ≤ n, s.state σ i = π i) ∧ ∀ i < n, σ.Satisfies (s.stepFrom i) := by
  have hex : ∀ i, ∃ τ, s.state τ 0 = π i ∧ (i < n → s.state τ 1 = π (i + 1) ∧ τ.Satisfies (s.stepFrom 0)) := by
    intro i
    by_cases hi : i < n
    · obtain ⟨τ, h₀, h₁, hτ⟩ := hpath i hi
      exact ⟨τ, h₀, fun _ => ⟨h₁, hτ⟩⟩
    · exact ⟨(π i).always, (π i).stateAt_always _, fun hi' => absurd hi' hi⟩
  choose τ hstart hstep using hex
  have hlink : ∀ i < n, s.state (τ i) 1 = s.state (τ (i + 1)) 0 := fun i hi => by
    rw [(hstep i hi).1, hstart]
  refine ⟨s.splice τ, fun i hi => ?_, fun i hi => ?_⟩
  · rw [← hstart i]
    funext x
    have := splice_eq hlink x.2 hi (Nat.zero_le _) fun _ => rfl
    simpa only [state, Assignment.stateAt, frame_zero, Nat.add_zero] using this
  · rw [satisfies_stepFrom]
    refine (Assignment.satisfies_congr Formula.retime_timed fun g hg => ?_).mpr (hstep i hi).2
    obtain ⟨hx, -, hle⟩ := h.of_sym_mem_stepFrom hg
    rw [frame_succ, frame_zero, Nat.zero_add] at hle
    exact splice_eq hlink hx hi.le hle fun heq => absurd heq hi.ne

/-- An execution is what some assignment makes of the initial states and the unrolled steps. -/
theorem Regular.exists_execution (h : s.Regular) (hexec : s.dynamics.Execution π n) :
    ∃ σ, (∀ i ≤ n, s.state σ i = π i) ∧ σ.Satisfies s.initial ∧ ∀ i < n, σ.Satisfies (s.stepFrom i) := by
  obtain ⟨σ, hstate, hstep⟩ := h.exists_assignment hexec.path
  refine ⟨σ, hstate, h.initial_iff.mp ?_, hstep⟩
  rw [hstate 0 n.zero_le]
  exact hexec.initial

theorem Regular.execution_of_satisfies (h : s.Regular) (hinit : σ.Satisfies s.initial)
    (hstep : ∀ i < n, σ.Satisfies (s.stepFrom i)) : s.dynamics.Execution (s.state σ) n :=
  ⟨h.initial_iff.mpr hinit, fun i hi => step_of_satisfies (hstep i hi)⟩

end TransitionSystem

end Invariance
