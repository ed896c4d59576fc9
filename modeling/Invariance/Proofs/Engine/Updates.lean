import Invariance.Proofs.Engine.Traces

/-!
Updates between states that bind the same variables. An update lists what differs, and overwriting the first state with
it gives the second. In a trace of states that follow each other, there is one between each two of them.
-/

namespace Invariance

variable {a b : Valuation} {x : Variable} {v : Value} {c : Change}

/-- The state with the new values of the variables that change. -/
def Update.overwrite (u : Update) (s : Valuation) : Valuation :=
  u.foldl (fun s c => s.insert c.var c.after) s

/-- The update lists the variables on which the states differ, in order and with both values, so that overwriting one
state with it gives the other. -/
structure Update.Leads (u : Update) (xs : List Variable) (a b : Valuation) : Prop where
  vars : u.map (·.var) = xs.filter fun x => a.get? x ≠ b.get? x
  values : ∀ c ∈ u, a.get? c.var = some c.before ∧ b.get? c.var = some c.after
  overwrite : u.overwrite a = b

/-- A variable that had a value is listed with both values if they differ. -/
theorem Change.of?_eq_some_iff (hx : (a.get? x).isSome) :
    Change.of? a x v = some c ↔ c.var = x ∧ a.get? x = some c.before ∧ c.after = v ∧ c.before ≠ v := by
  obtain ⟨old, hold⟩ := Option.isSome_iff_exists.mp hx
  rw [Change.of?, hold]
  by_cases h : old = v
  · simp only [if_pos h, Option.some.injEq]
    constructor
    · intro hnone
      cases hnone
    · rintro ⟨-, rfl, -, hne⟩
      exact absurd h hne
  · simp only [if_neg h, Option.some.injEq]
    constructor
    · rintro rfl
      exact ⟨rfl, rfl, rfl, h⟩
    · rintro ⟨rfl, rfl, rfl, -⟩
      rfl

namespace Update

theorem mem_between_iff (hkeys : a.keys = b.keys) :
    c ∈ between a b ↔ a.get? c.var = some c.before ∧ b.get? c.var = some c.after ∧ c.before ≠ c.after := by
  have hbound : ∀ e ∈ b.toList, (a.get? e.1).isSome := by
    intro e he
    rw [← SortedMap.mem_keys_iff, hkeys]
    exact List.mem_map_of_mem he
  rw [between, List.mem_filterMap]
  constructor
  · rintro ⟨e, he, hc⟩
    obtain ⟨hvar, hbefore, hafter, hne⟩ := (Change.of?_eq_some_iff (hbound e he)).mp hc
    rw [hvar, hafter]
    exact ⟨hbefore, SortedMap.mem_toList_iff.mp he, hne⟩
  · rintro ⟨hbefore, hafter, hne⟩
    have he := SortedMap.mem_toList_iff.mpr hafter
    exact ⟨_, he, (Change.of?_eq_some_iff (hbound _ he)).mpr ⟨rfl, hbefore, rfl, hne⟩⟩

theorem vars_between (hkeys : a.keys = b.keys) :
    (between a b).map (·.var) = b.keys.filter fun x => a.get? x ≠ b.get? x := by
  have hlist : ∀ es : List (Variable × Value), (∀ e ∈ es, e ∈ b.toList) →
      (es.filterMap fun e => Change.of? a e.1 e.2).map (·.var) =
        (es.map (·.1)).filter fun x => a.get? x ≠ b.get? x := by
    intro es hes
    induction es with
    | nil => rfl
    | cons e es ih =>
        have hnew : b.get? e.1 = some e.2 := SortedMap.mem_toList_iff.mp (hes e List.mem_cons_self)
        have hmem : e.1 ∈ a.keys := by
          rw [hkeys, SortedMap.mem_keys_iff, hnew]
          rfl
        obtain ⟨old, hold⟩ := Option.isSome_iff_exists.mp (SortedMap.mem_keys_iff.mp hmem)
        have ih := ih fun d hd => hes d (List.mem_cons_of_mem e hd)
        rw [List.filterMap_cons, List.map_cons, List.filter_cons, hnew, hold, ← ih, Change.of?, hold]
        by_cases h : old = e.2 <;> simp [h]
  exact hlist b.toList fun _ => id

theorem overwrite_between (hkeys : a.keys = b.keys) : (between a b).overwrite a = b := by
  apply SortedMap.ext_get?
  intro x
  rw [overwrite, SortedMap.get?_foldl_insert]
  cases hfind : (between a b).reverse.find? fun c => compare x c.var = .eq with
  | some c =>
      have hc := (mem_between_iff hkeys).mp (List.mem_reverse.mp (List.mem_of_find?_eq_some hfind))
      have hx := List.find?_some hfind
      rw [decide_eq_true_iff, Variable.compare_eq_iff] at hx
      subst hx
      exact hc.2.1.symm
  | none =>
      have hsame : a.get? x = b.get? x := by
        by_contra hne
        have hx : x ∈ b.keys := by
          by_contra hnot
          rw [SortedMap.get?_eq_none_iff.mpr hnot, SortedMap.get?_eq_none_iff.mpr (hkeys ▸ hnot)] at hne
          exact hne rfl
        have hlisted : x ∈ (between a b).map (·.var) := by
          rw [vars_between hkeys]
          exact List.mem_filter.mpr ⟨hx, decide_eq_true hne⟩
        obtain ⟨c, hc, rfl⟩ := List.mem_map.mp hlisted
        rw [List.find?_eq_none] at hfind
        exact hfind c (List.mem_reverse.mpr hc) (by simp [Std.ReflOrd.compare_self])
      rw [hsame]
      rfl

theorem leads_between (hkeys : a.keys = b.keys) : (between a b).Leads b.keys a b where
  vars := vars_between hkeys
  values _ hc := ⟨((mem_between_iff hkeys).mp hc).1, ((mem_between_iff hkeys).mp hc).2.1⟩
  overwrite := overwrite_between hkeys

end Update

/-! ### Traces of states as they are -/

theorem Trace.stepsBetween_range {S A : Type} (action : S → S → A) (π : Nat → S) (n : Nat) :
    stepsBetween action (π 0) ((List.range n).map fun i => π (i + 1)) =
      (List.range n).map fun i => (action (π i) (π (i + 1)), π (i + 1)) := by
  induction n generalizing π with
  | zero => rfl
  | succ n ih =>
      rw [List.range_succ_eq_map, List.map_cons, List.map_cons, List.map_map, List.map_map, stepsBetween]
      exact congrArg _ (ih fun i => π (i + 1))

namespace TransitionSystem

variable {s : TransitionSystem} {σ : Assignment} {f : Nat}

theorem steps_trace : (s.trace .explicit σ f).steps =
    (List.range f).map fun i => (Update.between (s.valuation σ i) (s.valuation σ (i + 1)), s.valuation σ (i + 1)) := by
  rw [trace, Reconstruction.trace, Reconstruction.explicit]
  simp only [Trace.stepsBetween_range, List.map_map]
  rfl

theorem states_trace : (s.trace .explicit σ f).states = (List.range (f + 1)).map (s.valuation σ) := by
  rw [Trace.states, steps_trace, List.map_map, List.range_succ_eq_map, List.map_cons, List.map_map]
  rfl

theorem actions_trace : (s.trace .explicit σ f).actions =
    (List.range f).map fun i => Update.between (s.valuation σ i) (s.valuation σ (i + 1)) := by
  rw [Trace.actions, steps_trace, List.map_map]
  rfl

end TransitionSystem

end Invariance
