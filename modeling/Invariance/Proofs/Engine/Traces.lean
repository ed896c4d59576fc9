import Invariance.Proofs.Engine.Unrolling

/-! Traces read out of models: the states that an assignment gives to the frames, one after the other. -/

namespace Invariance

open TransitionSystem

variable {S A : Type} {s : TransitionSystem} {u : Unrolling} {σ : Assignment} {m : Model} {n f : Nat}

/-- The model gives every symbol its value under the assignment. -/
def Model.Reports (m : Model) (σ : Assignment) : Prop :=
  ∀ g, m.get? g = some (σ g.base g.generation).1

/-- The values that an assignment gives to variables at a frame. -/
def Assignment.valuation (σ : Assignment) (xs : List Variable) (frame : Variable → Nat) : Valuation :=
  xs.foldl (fun v x => v.insert x (σ x (frame x)).1) .empty

theorem Assignment.get?_valuation {xs : List Variable} {frame : Variable → Nat} {x : Variable} :
    (σ.valuation xs frame).get? x = if x ∈ xs then some (σ x (frame x)).1 else none := by
  rw [valuation, SortedMap.get?_foldl_insert, SortedMap.get?_empty, Option.or_none]
  cases h : xs.reverse.find? fun y => compare x y = .eq with
  | some y =>
      have heq := List.find?_some h
      have hmem := List.mem_of_find?_eq_some h
      rw [decide_eq_true_iff, Variable.compare_eq_iff] at heq
      subst heq
      rw [if_pos (List.mem_reverse.mp hmem), Option.map_some]
  | none =>
      rw [List.find?_eq_none] at h
      rw [if_neg fun hmem => h x (List.mem_reverse.mpr hmem) (by simp [Std.ReflOrd.compare_self]),
        Option.map_none]

theorem Assignment.keys_valuation {xs : List Variable} {frame : Variable → Nat} {x : Variable} :
    x ∈ (σ.valuation xs frame).keys ↔ x ∈ xs := by
  rw [SortedMap.mem_keys_iff, get?_valuation]
  split <;> simp [*]

theorem Model.Reports.stateAt (h : m.Reports σ) (c : Clock) (xs : List Variable) :
    m.stateAt c xs = .ok (σ.valuation xs c.get) := by
  unfold Model.stateAt Assignment.valuation
  generalize (SortedMap.empty : Valuation) = v
  induction xs generalizing v with
  | nil => rfl
  | cons x xs ih =>
      rw [List.foldlM_cons]
      simp only [h ⟨x, c.get x⟩]
      exact ih _

namespace TransitionSystem

/-- The values of the variables of the system in a frame. -/
def valuation (s : TransitionSystem) (σ : Assignment) (f : Nat) : Valuation :=
  σ.valuation s.vars.elements (s.frame f)

/-- The trace through the states of the frames up to the given one. -/
def trace (s : TransitionSystem) (r : Reconstruction S A) (σ : Assignment) (f : Nat) : Trace S A :=
  r.trace (s.valuation σ 0) ((List.range f).map fun i => s.valuation σ (i + 1))

end TransitionSystem

theorem Unrolled.trace (hu : Unrolled s n u) (hf : f ≤ n) (h : m.Reports σ) (r : Reconstruction S A) :
    u.trace m f r = .ok (s.trace r σ f) := by
  obtain ⟨c, hc, -⟩ := hu.exists_clockAt hf
  have hlist : (u.clocks.toList.take (f + 1)).mapM (fun c => m.stateAt c u.vars) =
      .ok ((List.range (f + 1)).map (s.valuation σ)) := by
    have hok := Formula.mapM_eq_ok (p := fun c => m.stateAt c u.vars) (l := u.clocks.toList.take (f + 1))
      fun c _ => h.stateAt c u.vars
    rw [hok]
    congr 1
    refine List.ext_getElem ?_ fun i h₁ h₂ => ?_
    · simp only [List.length_map, List.length_take, List.length_range, Array.length_toList, hu.size]
      omega
    · have hi : i < f + 1 := by rwa [List.length_map, List.length_range] at h₂
      simp only [List.getElem_map, List.getElem_take, List.getElem_range, Array.getElem_toList]
      obtain ⟨d, hd, -, hget⟩ := hu.clock i (by omega)
      obtain ⟨hi, hid⟩ := Array.getElem?_eq_some_iff.mp hd
      have hframe : d.get = s.frame i := funext fun x => (hget x).1
      rw [hid, hframe, hu.vars]
      rfl
  rw [Unrolling.trace, hc, hlist, List.range_succ_eq_map]
  simp only [List.map_cons, List.map_map]
  rfl

@[simp] theorem length_stepsBetween (action : S → S → A) (a : S) (as : List S) :
    (Trace.stepsBetween action a as).length = as.length := by
  induction as generalizing a with
  | nil => rfl
  | cons b as ih => simp [Trace.stepsBetween, ih]

/-- A trace that is read out of any model has a step for each frame after the first. -/
theorem Unrolled.length_trace (hu : Unrolled s n u) (hf : f ≤ n) {r : Reconstruction S A} {t : Trace S A}
    (h : u.trace m f r = .ok t) : t.length = f := by
  obtain ⟨c, hc, -⟩ := hu.exists_clockAt hf
  rw [Unrolling.trace, hc] at h
  cases hstates : (u.clocks.toList.take (f + 1)).mapM fun c => m.stateAt c u.vars with
  | error e => simp [hstates, Halt.ofFault, Halt.ofError, bind, Except.bind] at h
  | ok l =>
      have hclocks : u.clocks.toList.length = n + 1 := Array.length_toList.trans hu.size
      have hlen := Formula.length_of_mapM_eq_ok hstates
      rw [List.length_take, hclocks, Nat.min_eq_left (by omega)] at hlen
      obtain _ | ⟨first, rest⟩ := l
      · simp at hlen
      · simp only [hstates, Halt.ofFault, Halt.ofError, bind, Except.bind, pure, Except.pure, Except.ok.injEq] at h
        rw [← h]
        simpa [Reconstruction.trace, Trace.length] using hlen

theorem TransitionSystem.length_trace (r : Reconstruction S A) : (s.trace r σ f).length = f := by
  simp [TransitionSystem.trace, Reconstruction.trace, Trace.length]

end Invariance
