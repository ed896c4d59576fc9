import Invariance.Engine.Unrolling
import Invariance.Proofs.Dynamics.Frames

/-!
Unrollings of a regular system. Frames and steps are those of the system, moved to the generations of their frame,
and the constraints that frames differ say so of their states.
-/

namespace Invariance

open TransitionSystem

variable {s : TransitionSystem} {u : Unrolling} {σ : Assignment} {n f i : Nat}

namespace Unrolling

/-- An unrolling starts with the first frame, at the first generations. -/
theorem of_ofSystem_eq_ok (h : ofSystem s = .ok u) : ∃ e, s.init.unfold .zero = .ok e ∧
    u = { system := s, vars := s.vars.elements, clocks := #[.zero], steps := #[], init := e } := by
  rw [ofSystem] at h
  cases hinit : s.init.unfold .zero with
  | error => simp [hinit, bind, Except.bind] at h
  | ok e =>
      simp only [hinit, bind, Except.bind, pure, Except.pure, Except.ok.injEq] at h
      exact ⟨e, rfl, h.symm⟩

/-- What an extension adds are the step from the newest frame and the frame that it leads to. -/
theorem of_extend_eq_ok {u' : Unrolling} (h : u.extend = (.ok (), u')) :
    ∃ c e d, u.clockAt u.lastFrame = .ok c ∧ u.system.trans.unfold c = .ok e ∧ c.advance u.system.offset = .ok d ∧
      u' = { u with steps := u.steps.push e, clocks := u.clocks.push d } := by
  rw [extend, nextStep] at h
  cases hc : u.clockAt u.lastFrame with
  | error => simp [hc, bind, Except.bind] at h
  | ok c =>
      cases he : u.system.trans.unfold c with
      | error => simp [hc, he, bind, Except.bind] at h
      | ok e =>
          have hnext : nextClock { u with steps := u.steps.push e } = c.advance u.system.offset := by
            change (u.clockAt u.lastFrame >>= fun c => c.advance u.system.offset) = _
            rw [hc]
            rfl
          simp only [hc, he, hnext, bind, Except.bind] at h
          cases hd : c.advance u.system.offset with
          | error => simp [hd] at h
          | ok d =>
              simp only [hd, Prod.mk.injEq, true_and] at h
              exact ⟨c, e, d, rfl, he, hd, h.symm⟩

end Unrolling

/-- The unrolling holds the frames 0 to `n` of the system and the steps between them. -/
structure Unrolled (s : TransitionSystem) (n : Nat) (u : Unrolling) : Prop where
  system : u.system = s
  vars : u.vars = s.vars.elements
  size : u.clocks.size = n + 1
  clock : ∀ f ≤ n, ∃ c, u.clocks[f]? = some c ∧ c.rest = f * s.offset.rest ∧
    ∀ x, c.get x = s.frame f x ∧ c.get x < Word.bound32
  steps : u.steps.toList = (List.range n).map s.stepFrom
  init : u.init = s.initial

/-- A symbol of a variable of the system, at a frame up to the given one. -/
structure TransitionSystem.Upto (s : TransitionSystem) (f : Nat) (g : Symbol) : Prop where
  mem : g.base ∈ s.vars.elements
  le : g.generation ≤ s.frame f g.base

theorem TransitionSystem.frame_mono (h : i ≤ f) (x : Variable) : s.frame i x ≤ s.frame f x :=
  Nat.mul_le_mul_right _ h

theorem TransitionSystem.Upto.mono {g : Symbol} (h : s.Upto i g) (hif : i ≤ f) : s.Upto f g :=
  ⟨h.mem, h.le.trans (frame_mono hif _)⟩

namespace TransitionSystem.Regular

variable (h : s.Regular)

include h

theorem predicate_initial : s.initial.Predicate (s.Upto 0) where
  bool := h.init_bool.retimeFrom
  timed := Formula.retime_timed
  symbols _ hg := ⟨(h.of_sym_mem_initial hg).1, (h.of_sym_mem_initial hg).2.le⟩

theorem predicate_propIn (f : Nat) : (s.propIn f).Predicate (s.Upto f) where
  bool := h.prop_bool.retimeFrom
  timed := Formula.retime_timed
  symbols _ hg := ⟨(h.of_sym_mem_propIn hg).1, (h.of_sym_mem_propIn hg).2.le⟩

theorem predicate_stepFrom (f : Nat) : (s.stepFrom f).Predicate (s.Upto (f + 1)) where
  bool := h.trans_bool.retimeFrom
  timed := Formula.retime_timed
  symbols _ hg := ⟨(h.of_sym_mem_stepFrom hg).mem, (h.of_sym_mem_stepFrom hg).lt⟩

end TransitionSystem.Regular

namespace Unrolled

/-! ### Access -/

theorem lastFrame (hu : Unrolled s n u) : u.lastFrame = n := by
  rw [Unrolling.lastFrame, hu.size, Nat.add_sub_cancel]

theorem size_steps (hu : Unrolled s n u) : u.steps.size = n := by
  rw [← Array.length_toList, hu.steps, List.length_map, List.length_range]

theorem exists_clockAt (hu : Unrolled s n u) (hf : f ≤ n) :
    ∃ c, u.clockAt f = .ok c ∧ c.rest = f * s.offset.rest ∧
      ∀ x, c.get x = s.frame f x ∧ c.get x < Word.bound32 := by
  obtain ⟨c, hc, hrest, hget⟩ := hu.clock f hf
  exact ⟨c, by rw [Unrolling.clockAt, hc], hrest, hget⟩

theorem stepAt (hu : Unrolled s n u) (hf : f < n) : u.stepAt f = .ok (s.stepFrom f) := by
  have hget : u.steps[f]? = some (s.stepFrom f) := by
    rw [← Array.getElem?_toList, hu.steps, List.getElem?_map, List.getElem?_range hf]
    rfl
  rw [Unrolling.stepAt, hget]

theorem take_steps (hu : Unrolled s n u) (hf : f ≤ n) :
    u.steps.toList.take f = (List.range f).map s.stepFrom := by
  rw [hu.steps, ← List.map_take, List.take_range, Nat.min_eq_left hf]

theorem mem_drop_steps (hu : Unrolled s n u) {e : Formula} :
    e ∈ u.steps.toList.drop 1 ↔ ∃ f, 1 ≤ f ∧ f < n ∧ e = s.stepFrom f := by
  rw [hu.steps, ← List.map_drop, List.mem_map]
  constructor
  · rintro ⟨f, hf, rfl⟩
    obtain ⟨i, hi, rfl⟩ := List.mem_iff_getElem.mp hf
    rw [List.length_drop, List.length_range] at hi
    refine ⟨1 + i, Nat.le_add_right _ _, by omega, ?_⟩
    rw [List.getElem_drop, List.getElem_range]
  · rintro ⟨f, h₁, h₂, rfl⟩
    refine ⟨f, List.mem_iff_getElem.mpr ⟨f - 1, ?_, ?_⟩, rfl⟩
    · rw [List.length_drop, List.length_range]
      omega
    · rw [List.getElem_drop, List.getElem_range]
      omega

theorem propAt (hu : Unrolled s n u) (h : s.Regular) (hf : f ≤ n) : u.propAt f = .ok (s.propIn f) := by
  obtain ⟨c, hc, -, hget⟩ := hu.exists_clockAt hf
  have hframe : c.get = s.frame f := funext fun x => (hget x).1
  have hbound : (s.prop.placeAt c.get).InBounds := by
    intro g hg
    rw [hframe] at hg
    rw [(h.of_sym_mem_propIn hg).2, ← (hget _).1]
    exact (hget _).2
  rw [Unrolling.propAt, hc, hu.system]
  exact (Formula.unfold_eq_ok h.prop_free hbound).trans (by rw [hframe]; rfl)

theorem violationAt (hu : Unrolled s n u) (h : s.Regular) (hf : f ≤ n) :
    u.violationAt f = .ok (s.propIn f).mkNot := by
  rw [Unrolling.violationAt, hu.propAt h hf]
  rfl

end Unrolled

/-! ### Growth -/

theorem unrolled_ofSystem (h : s.init.SymbolFree) (hu : Unrolling.ofSystem s = .ok u) : Unrolled s 0 u := by
  obtain ⟨e, hinit, rfl⟩ := Unrolling.of_ofSystem_eq_ok hu
  have he : e = s.initial := by
    rw [(Formula.of_unfold_eq_ok h hinit).1, initial, frame_zero]
    rfl
  refine ⟨rfl, rfl, rfl, fun f hf => ?_, rfl, he⟩
  obtain rfl := Nat.le_zero.mp hf
  refine ⟨.zero, rfl, (Nat.zero_mul _).symm, fun x => ⟨?_, by rw [Clock.get_zero]; decide⟩⟩
  rw [Clock.get_zero, frame_zero]

theorem TransitionSystem.Regular.exists_unrolled (h : s.Regular) :
    ∃ u, Unrolling.ofSystem s = .ok u ∧ Unrolled s 0 u := by
  have hzero : s.initial = s.init.placeAt Clock.zero.get := by
    rw [initial, frame_zero]
    rfl
  have hinit : s.init.unfold .zero = .ok s.initial := by
    rw [hzero]
    refine Formula.unfold_eq_ok h.init_free fun g hg => ?_
    rw [← hzero] at hg
    rw [(h.of_sym_mem_initial hg).2, frame_zero]
    exact Nat.zero_lt_succ _
  obtain ⟨u, hu⟩ : ∃ u, Unrolling.ofSystem s = .ok u := ⟨_, by rw [Unrolling.ofSystem, hinit]; rfl⟩
  exact ⟨u, hu, unrolled_ofSystem h.init_free hu⟩

namespace Unrolled

/-- The unrolling after a step more. -/
private theorem push (hu : Unrolled s n u) {c : Clock} (hrest : c.rest = (n + 1) * s.offset.rest)
    (hget : ∀ x, c.get x = s.frame (n + 1) x ∧ c.get x < Word.bound32) :
    Unrolled s (n + 1) { u with steps := u.steps.push (s.stepFrom n), clocks := u.clocks.push c } where
  system := hu.system
  vars := hu.vars
  size := by rw [Array.size_push, hu.size]
  clock f hf := by
    rcases Nat.lt_or_eq_of_le hf with hlt | rfl
    · obtain ⟨d, hd, hspec⟩ := hu.clock f (by omega)
      refine ⟨d, ?_, hspec⟩
      rw [Array.getElem?_push_lt (by rw [hu.size]; omega)]
      exact (Array.getElem?_eq_some_iff.mp hd).2 ▸ rfl
    · refine ⟨c, ?_, hrest, hget⟩
      rw [← hu.size, Array.getElem?_push_size]
  steps := by rw [Array.toList_push, hu.steps, List.range_succ, List.map_append]; rfl
  init := hu.init

private theorem nextClock_push (hu : Unrolled s n u) {c : Clock} (hc : u.clockAt n = .ok c) (e : Formula) :
    Unrolling.nextClock { u with steps := u.steps.push e } = c.advance s.offset := by
  change (u.clockAt u.lastFrame >>= fun c => c.advance u.system.offset) = _
  rw [hu.lastFrame, hc, hu.system]
  rfl

/-- Unrolling a step more is possible only within the range of generations. -/
theorem extend (hu : Unrolled s n u) (h : s.trans.SymbolFree) {u' : Unrolling} (hext : u.extend = (.ok (), u')) :
    Unrolled s (n + 1) u' := by
  obtain ⟨c, hc, hrest, hget⟩ := hu.exists_clockAt le_rfl
  have hframe : c.get = s.frame n := funext fun x => (hget x).1
  obtain ⟨b, e, d, hb, hstep, hadv, rfl⟩ := Unrolling.of_extend_eq_ok hext
  rw [hu.lastFrame, hc, Except.ok.injEq] at hb
  subst hb
  rw [hu.system] at hstep hadv
  have he : e = s.stepFrom n := by
    rw [(Formula.of_unfold_eq_ok h hstep).1, hframe]
    rfl
  rw [he]
  refine hu.push ?_ fun x => ?_
  · rw [Clock.rest_advance hadv, hrest, Nat.succ_mul]
  · rw [frame_succ, ← (hget x).1]
    exact Clock.get_advance hadv x

theorem exists_extend (hu : Unrolled s n u) (h : s.Regular)
    (hrest : (n + 1) * s.offset.rest < Word.bound32) (hget : ∀ x, s.frame (n + 1) x < Word.bound32) :
    ∃ u', u.extend = (.ok (), u') := by
  obtain ⟨c, hc, hr, hg⟩ := hu.exists_clockAt le_rfl
  have hframe : c.get = s.frame n := funext fun x => (hg x).1
  have hstep : u.nextStep = .ok (s.stepFrom n) := by
    rw [Unrolling.nextStep, hu.lastFrame, hc, hu.system, stepFrom, ← hframe]
    refine Formula.unfold_eq_ok h.trans_free fun g hmem => ?_
    rw [hframe] at hmem
    exact (h.of_sym_mem_stepFrom hmem).lt.trans_lt (hget _)
  obtain ⟨d, hd, -⟩ := Clock.exists_advance (c := c) (d := s.offset)
    (by rw [hr, ← Nat.succ_mul]; exact hrest)
    fun x => by rw [(hg x).1, ← frame_succ]; exact hget x
  have hext : u.extend = (.ok (), { u with steps := u.steps.push (s.stepFrom n), clocks := u.clocks.push d }) := by
    rw [Unrolling.extend, hstep]
    simp only [hu.nextClock_push hc, hd]
  exact ⟨_, hext⟩

/-! ### Frames that differ -/

end Unrolled

private theorem filterMapM_eq_ok {α β ε : Type} {p : α → Except ε (Option β)} {q : α → Option β} {l : List α}
    (h : ∀ a ∈ l, p a = .ok (q a)) : l.filterMapM p = .ok (l.filterMap q) := by
  induction l with
  | nil => rfl
  | cons a l ih =>
      rw [List.filterMapM_cons, h a List.mem_cons_self, ih fun b hb => h b (List.mem_cons_of_mem _ hb),
        List.filterMap_cons]
      cases q a <;> rfl

/-- The formula that a variable has the same value at two generations. -/
def sameAt (x : Variable) (m k : Nat) : Formula :=
  .eq (.sym ⟨x, m⟩) (.sym ⟨x, k⟩)

theorem satisfies_sameAt {x : Variable} {m k : Nat} : σ.Satisfies (sameAt x m k) ↔ σ x m = σ x k := by
  rw [Assignment.Satisfies, sameAt, Formula.evaluates_eq]
  simp only [Formula.evaluates_sym, Assignment.reading, Except.ok.injEq, Symbol.domain]
  obtain ⟨v, hv⟩ := σ x m
  obtain ⟨w, hw⟩ := σ x k
  simp only [Subtype.mk.injEq]
  generalize x.domain = d at *
  cases v with
  | bool a =>
      cases w with
      | int b => cases d <;> simp_all [Value.fits]
      | bool b =>
          constructor
          · rintro (⟨_, _, ⟨⟩, ⟨⟩, h⟩ | ⟨_, _, _, _, ⟨⟩, -⟩)
            exact congrArg _ (beq_iff_eq.mp (Sized.bool.inj h).symm)
          · rintro ⟨⟩
            exact .inl ⟨a, a, rfl, rfl, by rw [beq_self_eq_true]⟩
  | int a =>
      cases w with
      | bool b => cases d <;> simp_all [Value.fits]
      | int b =>
          constructor
          · rintro (⟨_, _, ⟨⟩, -⟩ | ⟨_, _, _, _, ⟨⟩, ⟨⟩, h⟩)
            exact congrArg _ (beq_iff_eq.mp (Sized.bool.inj h).symm)
          · rintro ⟨⟩
            exact .inr ⟨a, _, a, _, rfl, rfl, by rw [beq_self_eq_true]⟩

theorem predicate_sameAt {x : Variable} {m k : Nat} {U : Symbol → Prop} (hm : U ⟨x, m⟩) (hk : U ⟨x, k⟩) :
    (sameAt x m k).Predicate U where
  bool := by
    have hsym : ∀ m, (Formula.sym ⟨x, m⟩).HasKind (.ofDomain x.domain) := fun m => .sym ⟨x, m⟩
    unfold sameAt
    generalize x.domain = d at hsym
    cases d with
    | bool => exact .eqBool (hsym m) (hsym k)
    | int w => exact .eqInt (hsym m) (hsym k)
  timed := by constructor <;> simp [sameAt, Formula.PrimeFree, Formula.subformulas]
  symbols g hg := by
    simp only [sameAt, Formula.subformulas, List.mem_cons, List.mem_append, reduceCtorEq,
      Formula.sym.injEq, false_or, List.not_mem_nil, or_false] at hg
    rcases hg with rfl | rfl
    · exact hm
    · exact hk

namespace TransitionSystem

/-- The formula that a frame has the same state as another. -/
def sameIn (s : TransitionSystem) (i j : Nat) : Formula :=
  .mkAnd (s.vars.elements.map fun x => sameAt x (s.frame i x) (s.frame j x))

theorem satisfies_sameIn {j : Nat} : σ.Satisfies (s.sameIn i j) ↔ s.state σ i = s.state σ j := by
  rw [sameIn, Assignment.satisfies_mkAnd]
  simp only [List.forall_mem_map, satisfies_sameAt]
  exact ⟨fun h => funext fun x => h x.1 x.2, fun h x hx => congrFun h ⟨x, hx⟩⟩

theorem predicate_sameIn (hif : i ≤ f) : (s.sameIn i f).Predicate (s.Upto f) := by
  refine .mkAnd ?_
  simp only [List.forall_mem_map]
  exact fun x hx => predicate_sameAt ⟨hx, frame_mono hif x⟩ ⟨hx, le_rfl⟩

/-- Some variable moves on from each frame to the next. -/
def Moving (s : TransitionSystem) : Prop :=
  ∃ x, 0 < s.offset.get x

end TransitionSystem

namespace Unrolled

private theorem allSame (hu : Unrolled s n u) (hi : i ≤ n) (hf : f ≤ n) :
    u.allSame i f = .ok (s.sameIn i f) := by
  obtain ⟨c, hc, -, hcget⟩ := hu.exists_clockAt hi
  obtain ⟨d, hd, -, hdget⟩ := hu.exists_clockAt hf
  have hci : s.frame i = c.get := funext fun x => (hcget x).1.symm
  have hdf : s.frame f = d.get := funext fun x => (hdget x).1.symm
  rw [Unrolling.allSame, hc, hd, hu.vars, TransitionSystem.sameIn, hci, hdf]
  rfl

/-- The constraints that a frame differs from the earlier ones. They hold where its state differs from those of
the earlier ones, and say no less if the clocks of all frames are different. -/
theorem exists_distinct (hu : Unrolled s n u) (hf : f ≤ n) :
    ∃ es, u.distinctFromEarlier f = .ok es ∧ (∀ e ∈ es, e.Predicate (s.Upto f)) ∧
      (∀ σ, (∀ i < f, s.state σ i ≠ s.state σ f) → ∀ e ∈ es, σ.Satisfies e) ∧
      (s.Moving → ∀ σ : Assignment, (∀ e ∈ es, σ.Satisfies e) → ∀ i < f, s.state σ i ≠ s.state σ f) := by
  obtain ⟨d, hd, -, hdget⟩ := hu.exists_clockAt hf
  have hclock : ∀ i, ∃ c, i < f → u.clockAt i = .ok c ∧ ∀ x, c.get x = s.frame i x := fun i => by
    by_cases hi : i < f
    · obtain ⟨c, hc, -, hcget⟩ := hu.exists_clockAt (f := i) (hi.le.trans hf)
      exact ⟨c, fun _ => ⟨hc, fun x => (hcget x).1⟩⟩
    · exact ⟨.zero, fun h => absurd h hi⟩
  choose c hc using hclock
  have hsat : ∀ {i} {σ : Assignment}, i < f →
      (σ.Satisfies (s.sameIn i f).mkNot ↔ s.state σ i ≠ s.state σ f) := fun hi => by
    rw [Assignment.satisfies_mkNot (predicate_sameIn hi.le), satisfies_sameIn]
  refine ⟨(List.range f).filterMap fun i => if c i = d then none else some (s.sameIn i f).mkNot, ?_, ?_, ?_, ?_⟩
  · refine filterMapM_eq_ok fun i hi => ?_
    have hi := List.mem_range.mp hi
    rw [(hc i hi).1, hd, hu.allSame (by omega) hf]
    change (if c i = d then _ else _) = _
    split <;> rfl
  all_goals simp only [List.mem_filterMap, List.mem_range, forall_exists_index, and_imp]
  · intro e i hi he
    split at he
    · cases he
    · cases he
      exact (predicate_sameIn hi.le).mkNot
  · intro σ hne e i hi he
    split at he
    · cases he
    · cases he
      exact (hsat hi).mpr (hne i hi)
  · rintro ⟨x, hx⟩ σ hall i hi
    have hcd : c i ≠ d := by
      intro heq
      have hget : s.frame i x = s.frame f x := by rw [← (hc i hi).2, ← (hdget x).1, heq]
      exact absurd (Nat.eq_of_mul_eq_mul_right hx hget) hi.ne
    exact (hsat hi).mp (hall _ i hi (if_neg hcd))

end Unrolled

end Invariance
