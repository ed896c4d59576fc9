import Mathlib.SetTheory.Cardinal.Finite

/-!
Executions of a transition system that lead to a bad state, and four ways to show that there are none: all
loop-free paths are exhausted, every good path goes on well, a set of states that is closed under steps stays
away from bad states, or the bound on lengths is reached. Each rests on an execution to a bad state that is as
short as possible: it is loop-free, and so are all its parts.
-/

namespace Invariance

/-- A transition system and the states it should stay in. -/
structure Dynamics (S : Type) where
  Initial : S → Prop
  Step : S → S → Prop
  Good : S → Prop

namespace Dynamics

variable {S : Type} {D : Dynamics S} {π : Nat → S} {n k : Nat}

/-- The first `n` steps along a sequence of states are steps of the system. -/
def Path (D : Dynamics S) (π : Nat → S) (n : Nat) : Prop :=
  ∀ i < n, D.Step (π i) (π (i + 1))

/-- A path of `n` steps from an initial state. -/
structure Execution (D : Dynamics S) (π : Nat → S) (n : Nat) : Prop where
  initial : D.Initial (π 0)
  path : D.Path π n

/-- The states numbered 0 to `n` are all different. -/
def LoopFree (π : Nat → S) (n : Nat) : Prop :=
  ∀ i j, i < j → j ≤ n → π i ≠ π j

/-- No execution of fewer than `n` steps ends in a bad state. -/
def SafeBelow (D : Dynamics S) (n : Nat) : Prop :=
  ∀ m < n, ∀ π, D.Execution π m → D.Good (π m)

/-- No execution ends in a bad state. -/
def Safe (D : Dynamics S) : Prop :=
  ∀ n π, D.Execution π n → D.Good (π n)

/-- An execution to a bad state, such that no shorter one leads to a bad state. -/
structure Shortest (D : Dynamics S) (π : Nat → S) (n : Nat) : Prop where
  execution : D.Execution π n
  bad : ¬ D.Good (π n)
  safeBelow : D.SafeBelow n

/-! ### Paths and their parts -/

theorem Path.mono (h : D.Path π n) (hk : k ≤ n) : D.Path π k :=
  fun i hi => h i (hi.trans_le hk)

theorem Execution.mono (h : D.Execution π n) (hk : k ≤ n) : D.Execution π k :=
  ⟨h.initial, h.path.mono hk⟩

theorem LoopFree.mono (h : LoopFree π n) (hk : k ≤ n) : LoopFree π k :=
  fun i j hij hj => h i j hij (hj.trans hk)

theorem Path.drop (h : D.Path π (k + n)) : D.Path (fun i => π (k + i)) n :=
  fun i hi => h (k + i) (by omega)

theorem LoopFree.drop (h : LoopFree π (k + n)) : LoopFree (fun i => π (k + i)) n :=
  fun i j hij hj => h (k + i) (k + j) (by omega) (by omega)

/-- Cutting out the part between two occurrences of one state leaves an execution. -/
theorem Execution.cut (h : D.Execution π n) {i j : Nat} (hij : i < j) (hj : j ≤ n) (he : π i = π j) :
    D.Execution (fun m => if m ≤ i then π m else π (m + (j - i))) (n - (j - i)) := by
  refine ⟨by simpa using h.initial, fun m hm => ?_⟩
  rcases Nat.lt_trichotomy m i with hmi | rfl | hmi
  · simp only [hmi.le, Nat.succ_le_of_lt hmi, ite_true]
    exact h.path m (by omega)
  · have hnext : ¬ m + 1 ≤ m := by omega
    simp only [le_refl, ite_true, hnext, ite_false, he]
    have hstep := h.path j (by omega)
    rwa [show m + 1 + (j - m) = j + 1 by omega]
  · have hnow : ¬ m ≤ i := by omega
    have hnext : ¬ m + 1 ≤ i := by omega
    simp only [hnow, hnext, ite_false]
    have hstep := h.path (m + (j - i)) (by omega)
    rwa [show m + 1 + (j - i) = m + (j - i) + 1 by omega]

/-! ### Shortest executions to a bad state -/

theorem SafeBelow.mono (h : D.SafeBelow n) (hk : k ≤ n) : D.SafeBelow k :=
  fun m hm => h m (hm.trans_le hk)

theorem safeBelow_zero : D.SafeBelow 0 :=
  fun _ hm => absurd hm (Nat.not_lt_zero _)

theorem exists_shortest (h : ¬ D.Safe) : ∃ π n, D.Shortest π n := by
  classical
  simp only [Safe, not_forall] at h
  have hlen : ∃ n, ∃ π, D.Execution π n ∧ ¬ D.Good (π n) := by
    obtain ⟨n, π, hexec, hbad⟩ := h
    exact ⟨n, π, hexec, hbad⟩
  obtain ⟨π, hexec, hbad⟩ := Nat.find_spec hlen
  refine ⟨π, Nat.find hlen, hexec, hbad, fun m hm ρ hρ => ?_⟩
  by_contra hgood
  exact Nat.find_min hlen hm ⟨ρ, hρ, hgood⟩

theorem SafeBelow.le_of_bad (h : D.SafeBelow k) (hexec : D.Execution π n) (hbad : ¬ D.Good (π n)) :
    k ≤ n := by
  by_contra hlt
  exact hbad (h n (by omega) π hexec)

theorem Shortest.good (h : D.Shortest π n) {i : Nat} (hi : i < n) : D.Good (π i) :=
  h.safeBelow i hi π (h.execution.mono hi.le)

theorem Shortest.loopFree (h : D.Shortest π n) : LoopFree π n := by
  intro i j hij hj he
  have hend := h.safeBelow (n - (j - i)) (by omega) _ (h.execution.cut hij hj he)
  have hlast : n - (j - i) + (j - i) = n := by omega
  by_cases hle : n - (j - i) ≤ i
  · have hjn : j = n := by omega
    simp only [hle, ite_true] at hend
    rw [show n - (j - i) = i by omega, he, hjn] at hend
    exact h.bad hend
  · simp only [hle, ite_false, hlast] at hend
    exact h.bad hend

/-! ### Ways to show that no execution ends in a bad state -/

/-- Where all shorter executions are good, it is enough to look at loop-free ones. -/
theorem SafeBelow.succ (h : D.SafeBelow n)
    (hnone : ∀ π, D.Execution π n → LoopFree π n → D.Good (π n)) : D.SafeBelow (n + 1) := by
  intro m hm π hexec
  rcases Nat.lt_or_eq_of_le (Nat.lt_succ_iff.mp hm) with hlt | rfl
  · exact h m hlt π hexec
  · by_contra hbad
    have hshort : D.Shortest π m := ⟨hexec, hbad, h⟩
    exact hbad (hnone π hexec hshort.loopFree)

/-- No loop-free execution is as long as `n`. -/
theorem safe_of_exhausted (h : D.SafeBelow n) (hnone : ∀ π, D.Execution π n → ¬ LoopFree π n) :
    D.Safe := by
  by_contra hsafe
  obtain ⟨π, d, hshort⟩ := exists_shortest hsafe
  have hd : n ≤ d := h.le_of_bad hshort.execution hshort.bad
  exact hnone π (hshort.execution.mono hd) (hshort.loopFree.mono hd)

/-- No loop-free path through `n` good states ends in a bad one, and no execution of fewer steps does. -/
theorem safe_of_induction (h : D.SafeBelow n)
    (hstep : ∀ π, D.Path π n → LoopFree π n → (∀ i < n, D.Good (π i)) → D.Good (π n)) : D.Safe := by
  by_contra hsafe
  obtain ⟨π, d, hshort⟩ := exists_shortest hsafe
  obtain ⟨k, rfl⟩ := Nat.exists_eq_add_of_le' (h.le_of_bad hshort.execution hshort.bad)
  exact hshort.bad (hstep (fun i => π (k + i)) hshort.execution.path.drop hshort.loopFree.drop
    fun i hi => hshort.good (by omega))

/-! ### Closed sets of states -/

/-- No path of `n` steps leads from the state to a bad one. -/
def Avoids (D : Dynamics S) (n : Nat) (s : S) : Prop :=
  ∀ π, π 0 = s → D.Path π n → D.Good (π n)

/-- A set `C` of states that contains the initial ones and is closed under steps, except that steps from `F` may
leave it. States entered by a step are `n` steps away from bad ones. -/
structure Covers (D : Dynamics S) (n : Nat) (C F : S → Prop) : Prop where
  initial : ∀ s, D.Initial s → C s
  frontier : ∀ s, F s → C s
  step : ∀ s t, C s → D.Step s t → F s ∨ C t ∧ D.Avoids n t

variable {C F N : S → Prop}

theorem covers_initial : D.Covers n D.Initial D.Initial :=
  ⟨fun _ => id, fun _ => id, fun _ _ h _ => .inl h⟩

/-- The states entered from the frontier are the next frontier. -/
theorem Covers.extend (h : D.Covers n C F)
    (hnew : ∀ s t, F s → D.Step s t → N t ∧ D.Avoids n t) : D.Covers n (fun s => C s ∨ N s) N := by
  refine ⟨fun s hs => .inl (h.initial s hs), fun s hs => .inr hs, fun s t hs ht => ?_⟩
  rcases hs with hs | hs
  · rcases h.step s t hs ht with hF | ⟨hC, havoids⟩
    · obtain ⟨hN, havoids⟩ := hnew s t hF ht
      exact .inr ⟨.inr hN, havoids⟩
    · exact .inr ⟨.inl hC, havoids⟩
  · exact .inl hs

/-- If the states entered from the frontier are covered already, the set is closed. -/
theorem Covers.safe (h : D.Covers n C F) (hnew : ∀ s t, F s → D.Step s t → C t ∧ D.Avoids n t)
    (hbelow : D.SafeBelow (n + 2)) : D.Safe := by
  have hclosed : ∀ s t, C s → D.Step s t → C t ∧ D.Avoids n t := by
    intro s t hs ht
    rcases h.step s t hs ht with hF | hC
    · exact hnew s t hF ht
    · exact hC
  by_contra hsafe
  obtain ⟨π, d, hshort⟩ := exists_shortest hsafe
  obtain ⟨k, rfl⟩ := Nat.exists_eq_add_of_le' (hbelow.le_of_bad hshort.execution hshort.bad)
  have hin : ∀ i ≤ k + (n + 2), C (π i) := by
    intro i
    induction i with
    | zero => exact fun _ => h.initial _ hshort.execution.initial
    | succ i ih =>
        intro hi
        exact (hclosed _ _ (ih (by omega)) (hshort.execution.path i (by omega))).1
  -- the state `n` steps before the bad one was entered by a step
  have haway : D.Avoids n (π (k + 1 + 1)) :=
    (hclosed _ _ (hin (k + 1) (by omega)) (hshort.execution.path (k + 1) (by omega))).2
  have hpath : D.Path π (k + 2 + n) := by
    rw [show k + 2 + n = k + (n + 2) by omega]
    exact hshort.execution.path
  have hend := haway (fun i => π (k + 2 + i)) rfl hpath.drop
  rw [show k + 2 + n = k + (n + 2) by omega] at hend
  exact hshort.bad hend

/-! ### Finitely many states -/

theorem LoopFree.lt_card [Finite S] (h : LoopFree π n) : n < Nat.card S := by
  have hinj : Function.Injective fun i : Fin (n + 1) => π i := by
    intro i j he
    by_contra hne
    rcases lt_or_gt_of_ne hne with hlt | hlt
    · exact h i j hlt (Nat.lt_succ_iff.mp j.isLt) he
    · exact h j i hlt (Nat.lt_succ_iff.mp i.isLt) he.symm
  exact (Nat.card_fin (n + 1)).symm.trans_le (Nat.card_le_card_of_injective _ hinj)

end Dynamics

end Invariance
