import Invariance.Clock
import Invariance.Proofs.SortedMaps
import Mathlib.Data.Fintype.EquivFin

/-!
Clocks as functions from variables to generations. There always are variables that a clock does not mention, so that
equal functions are equal clocks, and what is compared or added for the variables mentioned and for the rest is compared
or added for all.
-/

namespace Invariance

theorem addGenerations_eq_ok {m n : Nat} (h : m + n < Word.bound32) :
    addGenerations m n = .ok (m + n) :=
  if_pos h

theorem of_addGenerations_eq_ok {m n k : Nat} (h : addGenerations m n = .ok k) :
    k = m + n ∧ k < Word.bound32 := by
  unfold addGenerations at h
  split at h
  · next hlt =>
      cases h
      exact ⟨rfl, hlt⟩
  · cases h

theorem eq_overflow_of_addGenerations_eq_error {m n : Nat} {x : Fault} (h : addGenerations m n = .error x) :
    x = .overflow := by
  unfold addGenerations at h
  split at h <;> cases h
  rfl

instance : Infinite Variable := by
  have hnames : Function.Injective fun name : String => (⟨name, .bool⟩ : Variable) := by
    intro a b hab
    cases hab
    rfl
  exact .of_injective _ hnames

namespace Clock

variable {c d e : Clock} {x y : Variable} {n : Nat}

@[simp] theorem get_all : (all n).get x = n :=
  rfl

@[simp] theorem get_zero : zero.get x = 0 :=
  rfl

theorem get_set : (c.set x n).get y = if y = x then n else c.get y := by
  unfold set get
  by_cases h : n = c.rest
  · simp only [if_pos h, SortedMap.get?_erase]
    split <;> simp [h]
  · simp only [if_neg h, SortedMap.get?_insert]
    split <;> simp

theorem get_of_not_mentioned (h : x ∉ c.exceptions.keys) : c.get x = c.rest := by
  rw [get, SortedMap.get?_eq_none_iff.mpr h, Option.getD_none]

private theorem get_foldlM_set {l : List Variable} {f : Variable → Except Fault Nat} {c e : Clock}
    (h : l.foldlM (fun d x => do return d.set x (← f x)) c = .ok e) (x : Variable) :
    if x ∈ l then f x = .ok (e.get x) else e.get x = c.get x := by
  induction l generalizing c with
  | nil =>
      cases h
      simp
  | cons a rest ih =>
      rw [List.foldlM_cons] at h
      cases ha : f a with
      | error => simp [ha, bind, Except.bind] at h
      | ok n =>
          simp only [ha, bind, pure, Except.bind, Except.pure] at h ih
          have hrest := ih h
          by_cases hx : x ∈ rest
          · simpa [hx] using hrest
          · by_cases hxa : x = a
            · subst hxa
              simp only [hx, if_false, get_set, if_true] at hrest
              simp [ha, hrest]
            · simp only [hx, if_false, get_set, if_neg hxa] at hrest
              simp [hx, hxa, hrest]

/-- Each variable is advanced by its own offset, within the range of generations. -/
theorem get_advance (h : c.advance d = .ok e) (x : Variable) :
    e.get x = c.get x + d.get x ∧ e.get x < Word.bound32 := by
  unfold advance at h
  cases hrest : addGenerations c.rest d.rest with
  | error => simp [hrest, bind, Except.bind] at h
  | ok rest =>
      rw [hrest] at h
      have hget := get_foldlM_set h x
      by_cases hx : x ∈ mentioned c d
      · rw [if_pos hx] at hget
        exact of_addGenerations_eq_ok hget
      · rw [if_neg hx, get_all] at hget
        simp only [mentioned, List.mem_append, not_or] at hx
        rw [get_of_not_mentioned hx.1, get_of_not_mentioned hx.2, hget]
        exact of_addGenerations_eq_ok hrest

private theorem exists_foldlM_set {l : List Variable} {f : Variable → Except Fault Nat} (c : Clock)
    (h : ∀ x ∈ l, ∃ n, f x = .ok n) :
    ∃ e, l.foldlM (fun d x => do return d.set x (← f x)) c = .ok e ∧ e.rest = c.rest := by
  induction l generalizing c with
  | nil => exact ⟨c, rfl, rfl⟩
  | cons a rest ih =>
      obtain ⟨n, hn⟩ := h a List.mem_cons_self
      obtain ⟨e, he, hrest⟩ := ih (c.set a n) fun x hx => h x (List.mem_cons_of_mem _ hx)
      refine ⟨e, ?_, hrest⟩
      rw [List.foldlM_cons, hn]
      exact he

/-- A clock can be advanced if no generation leaves its range. -/
theorem exists_advance (hrest : c.rest + d.rest < Word.bound32)
    (hget : ∀ x, c.get x + d.get x < Word.bound32) :
    ∃ e, c.advance d = .ok e ∧ e.rest = c.rest + d.rest := by
  obtain ⟨e, he, hr⟩ := exists_foldlM_set (l := mentioned c d) (all (c.rest + d.rest)) fun x _ =>
    ⟨_, addGenerations_eq_ok (hget x)⟩
  refine ⟨e, ?_, hr⟩
  rw [advance, addGenerations_eq_ok hrest]
  exact he

theorem rest_advance (h : c.advance d = .ok e) : e.rest = c.rest + d.rest := by
  cases hrest : addGenerations c.rest d.rest with
  | error => simp [advance, hrest, bind, Except.bind] at h
  | ok rest =>
      obtain ⟨rfl, hlt⟩ := of_addGenerations_eq_ok hrest
      have hok : ∀ x ∈ mentioned c d, ∃ n, addGenerations (c.get x) (d.get x) = .ok n := by
        intro x hx
        have hget := (get_advance h x).1
        exact ⟨_, addGenerations_eq_ok (hget ▸ (get_advance h x).2)⟩
      obtain ⟨e', he, hr⟩ := exists_foldlM_set (all (c.rest + d.rest)) hok
      rw [advance, hrest] at h
      cases h.symm.trans he
      exact hr

theorem eq_overflow_of_advance_eq_error {f : Fault} (h : c.advance d = .error f) : f = .overflow := by
  have hloop : ∀ (l : List Variable) (e : Clock),
      l.foldlM (fun e x => do return e.set x (← addGenerations (c.get x) (d.get x))) e = .error f → f = .overflow := by
    intro l
    induction l with
    | nil => exact fun _ h => nomatch h
    | cons x l ih =>
        intro e h
        rw [List.foldlM_cons] at h
        cases hadd : addGenerations (c.get x) (d.get x) with
        | error g =>
            rw [hadd] at h
            cases h
            exact eq_overflow_of_addGenerations_eq_error hadd
        | ok k =>
            rw [hadd] at h
            exact ih _ h
  unfold advance at h
  cases hadd : addGenerations c.rest d.rest with
  | error g =>
      rw [hadd] at h
      cases h
      exact eq_overflow_of_addGenerations_eq_error hadd
  | ok k =>
      rw [hadd] at h
      exact hloop _ _ h

/-! ### All variables -/

/-- There always are variables that neither clock mentions. -/
theorem exists_get_eq_rest (c d : Clock) : ∃ x, c.get x = c.rest ∧ d.get x = d.rest := by
  obtain ⟨x, hx⟩ := Infinite.exists_notMem_finset (mentioned c d).toFinset
  simp only [mentioned, List.toFinset_append, Finset.mem_union, List.mem_toFinset, not_or] at hx
  exact ⟨x, get_of_not_mentioned hx.1, get_of_not_mentioned hx.2⟩

theorem get?_exceptions : c.exceptions.get? x = if c.get x = c.rest then none else some (c.get x) := by
  rw [get]
  cases h : c.exceptions.get? x with
  | none => simp
  | some n =>
      have hne : n ≠ c.rest := c.proper (x, n) (SortedMap.mem_toList_iff.mpr h)
      simp [hne]

/-- Clocks with the same generations are the same. -/
theorem eq_iff_get : c = d ↔ ∀ x, c.get x = d.get x := by
  constructor
  · intro h x
    rw [h]
  · intro h
    have hrest : c.rest = d.rest := by
      obtain ⟨x, hc, hd⟩ := exists_get_eq_rest c d
      rw [← hc, ← hd, h]
    have hexceptions : c.exceptions = d.exceptions := by
      apply SortedMap.ext_get?
      intro x
      rw [get?_exceptions, get?_exceptions, h, hrest]
    cases c
    cases d
    cases hrest
    cases hexceptions
    rfl

theorem le_iff_get : c.le d ↔ ∀ x, c.get x ≤ d.get x := by
  simp only [le, Bool.and_eq_true, decide_eq_true_iff, List.all_eq_true]
  constructor
  · intro ⟨hrest, hmentioned⟩ x
    by_cases hx : x ∈ mentioned c d
    · exact hmentioned x hx
    · simp only [mentioned, List.mem_append, not_or] at hx
      rw [get_of_not_mentioned hx.1, get_of_not_mentioned hx.2]
      exact hrest
  · intro h
    obtain ⟨x, hc, hd⟩ := exists_get_eq_rest c d
    exact ⟨by rw [← hc, ← hd]; exact h x, fun x _ => h x⟩

theorem exists_advance_iff : (∃ e, c.advance d = .ok e) ↔ ∀ x, c.get x + d.get x < Word.bound32 := by
  constructor
  · intro ⟨e, he⟩ x
    rw [← (get_advance he x).1]
    exact (get_advance he x).2
  · intro h
    have hrest : c.rest + d.rest < Word.bound32 := by
      obtain ⟨x, hc, hd⟩ := exists_get_eq_rest c d
      rw [← hc, ← hd]
      exact h x
    obtain ⟨e, he, -⟩ := exists_advance hrest h
    exact ⟨e, he⟩

/-- A clock is advanced to the clock of the sums, if these are in the range of generations. -/
theorem advance_eq_ok_iff : c.advance d = .ok e ↔ ∀ x, e.get x = c.get x + d.get x ∧ e.get x < Word.bound32 := by
  constructor
  · exact get_advance
  · intro h
    have hget : ∀ x, c.get x + d.get x < Word.bound32 := fun x => (h x).1 ▸ (h x).2
    obtain ⟨k, hk⟩ := exists_advance_iff.mpr hget
    have heq : k = e := by
      rw [eq_iff_get]
      intro x
      rw [(get_advance hk x).1, (h x).1]
    rw [hk, heq]

/-- Computations of clocks that fail by an overflow at most are the same if they succeed with the same clocks. -/
private theorem outcome_eq {a b : Except Fault Clock} (ha : ∀ f, a = .error f → f = .overflow)
    (hb : ∀ f, b = .error f → f = .overflow) (h : ∀ e, a = .ok e ↔ b = .ok e) : a = b := by
  cases a with
  | ok e => exact ((h e).mp rfl).symm
  | error f =>
      cases b with
      | ok e => exact absurd ((h e).mpr rfl) nofun
      | error g => rw [ha f rfl, hb g rfl]

theorem advance_comm (c d : Clock) : c.advance d = d.advance c := by
  apply outcome_eq
  · exact fun _ => eq_overflow_of_advance_eq_error
  · exact fun _ => eq_overflow_of_advance_eq_error
  · intro e
    simp only [advance_eq_ok_iff, Nat.add_comm]

private theorem advance_twice_eq_ok_iff {k : Clock} : (c.advance d >>= fun i => i.advance e) = .ok k ↔
    ∀ x, k.get x = c.get x + d.get x + e.get x ∧ k.get x < Word.bound32 := by
  constructor
  · intro h x
    cases hi : c.advance d with
    | error f => simp [hi, bind, Except.bind] at h
    | ok i =>
        rw [hi] at h
        rw [← (get_advance hi x).1]
        exact get_advance h x
  · intro h
    have hget : ∀ x, c.get x + d.get x < Word.bound32 := fun x => by
      have := h x
      omega
    obtain ⟨i, hi⟩ := exists_advance_iff.mpr hget
    rw [hi]
    refine advance_eq_ok_iff.mpr fun x => ?_
    rw [(get_advance hi x).1]
    exact h x

private theorem eq_overflow_of_advance_twice {f : Fault} (h : (c.advance d >>= fun i => i.advance e) = .error f) :
    f = .overflow := by
  cases hi : c.advance d with
  | error g =>
      rw [hi] at h
      cases h
      exact eq_overflow_of_advance_eq_error hi
  | ok i =>
      rw [hi] at h
      exact eq_overflow_of_advance_eq_error h

theorem advance_assoc (c d e : Clock) :
    (c.advance d >>= fun k => k.advance e) = d.advance e >>= fun k => c.advance k := by
  have hcomm : (fun k => c.advance k) = fun k => k.advance c := funext (advance_comm c)
  rw [hcomm]
  apply outcome_eq
  · exact fun _ => eq_overflow_of_advance_twice
  · exact fun _ => eq_overflow_of_advance_twice
  · intro k
    have hsum : ∀ x, c.get x + d.get x + e.get x = d.get x + e.get x + c.get x := by
      intro x
      omega
    simp only [advance_twice_eq_ok_iff, hsum]

theorem le_of_advance_eq_ok (h : c.advance d = .ok e) : c.le e := by
  rw [le_iff_get]
  intro x
  rw [(get_advance h x).1]
  exact Nat.le_add_right _ _

end Clock

end Invariance
