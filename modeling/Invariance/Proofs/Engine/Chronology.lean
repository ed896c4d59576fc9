import Invariance.Proofs.Engine.Reindexing

/-!
The clocks of an unrolling, one after the other. They are the multiples of the offset of the system, whatever its
formulas are, so that none is earlier than the one before it, and two of them are the same clock only if no variable has
moved on in between.
-/

namespace Invariance

namespace Unrolling

variable {s : TransitionSystem} {u u' : Unrolling} {n i j : Nat}

/-- There is a clock for each frame up to the given one, and it has advanced as often. -/
structure Clocked (s : TransitionSystem) (n : Nat) (u : Unrolling) : Prop where
  system : u.system = s
  vars : u.vars = s.vars.elements
  size : u.clocks.size = n + 1
  clock : ∀ f ≤ n, ∃ c, u.clockAt f = .ok c ∧ ∀ x, c.get x = f * s.offset.get x

theorem clocked_ofSystem (h : ofSystem s = .ok u) : Clocked s 0 u := by
  obtain ⟨e, -, rfl⟩ := of_ofSystem_eq_ok h
  refine ⟨rfl, rfl, rfl, fun f hf => ?_⟩
  obtain rfl := Nat.le_zero.mp hf
  exact ⟨.zero, rfl, by simp⟩

/-- Only the clock of the newest frame matters to the next one. -/
theorem Clocked.extend (h : Clocked s n u) (hext : u.extend = (.ok (), u')) : Clocked s (n + 1) u' := by
  obtain ⟨c, hc, hget⟩ := h.clock n le_rfl
  have hlast : u.lastFrame = n := by
    rw [lastFrame, h.size, Nat.add_sub_cancel]
  obtain ⟨b, e, d, hb, -, hadvance, rfl⟩ := of_extend_eq_ok hext
  rw [hlast, hc, Except.ok.injEq] at hb
  subst hb
  rw [h.system] at hadvance
  refine ⟨h.system, h.vars, by simp [h.size], fun f hf => ?_⟩
  by_cases hnew : f = n + 1
  · refine ⟨d, ?_, fun x => ?_⟩
    · simp [clockAt, hnew, ← h.size]
    · rw [(Clock.get_advance hadvance x).1, hget, hnew, Nat.succ_mul]
  · obtain ⟨k, hk, hkget⟩ := h.clock f (by omega)
    refine ⟨k, ?_, hkget⟩
    have hlt : f < u.clocks.size := by
      rw [h.size]
      omega
    simpa [clockAt, Array.getElem?_push_lt hlt, Array.getElem?_eq_getElem hlt] using hk

theorem After.clocked (h : After s n u) : Clocked s n u := by
  induction h with
  | start h => exact clocked_ofSystem h
  | extend _ hext ih => exact ih.extend hext

/-- Clocks of later frames are later, or the same if no variable has a later generation. -/
theorem Clocked.exists_le (h : Clocked s n u) (hij : i ≤ j) (hj : j ≤ n) :
    ∃ c d, u.clockAt i = .ok c ∧ u.clockAt j = .ok d ∧ c.le d ∧ (c = d ↔ ∀ x, ¬ c.get x < d.get x) := by
  obtain ⟨c, hc, hcget⟩ := h.clock i (hij.trans hj)
  obtain ⟨d, hd, hdget⟩ := h.clock j hj
  have hle : ∀ x, c.get x ≤ d.get x := by
    intro x
    rw [hcget, hdget]
    exact Nat.mul_le_mul_right _ hij
  refine ⟨c, d, hc, hd, Clock.le_iff_get.mpr hle, ?_⟩
  rw [Clock.eq_iff_get]
  constructor
  · intro heq x
    rw [heq]
    exact lt_irrefl _
  · intro hnot x
    exact le_antisymm (hle x) (Nat.not_lt.mp (hnot x))

end Unrolling

namespace Clock

variable {s : TransitionSystem} {u : Unrolling} {n : Nat}

/-- Clocks are compared and added as functions from all variables to generations, and those of an unrolling follow each
other in the order of its frames. -/
theorem canonical_and_chained (c d e : Clock) (hu : Unrolling.After s n u) :
    (c = d ↔ ∀ x, c.get x = d.get x) ∧ (c.le d ↔ ∀ x, c.get x ≤ d.get x) ∧
    ((∃ k, c.advance d = .ok k) ↔ ∀ x, c.get x + d.get x < Word.bound32) ∧
    (∀ k, c.advance d = .ok k → (∀ x, k.get x = c.get x + d.get x) ∧ c.le k) ∧
    c.advance d = d.advance c ∧
    (c.advance d >>= fun k => k.advance e) = (d.advance e >>= fun k => c.advance k) ∧
    ∀ i j, i ≤ j → j ≤ n → ∃ a b, u.clockAt i = .ok a ∧ u.clockAt j = .ok b ∧ a.le b ∧
      (a = b ↔ ∀ x, ¬ a.get x < b.get x) := by
  refine ⟨eq_iff_get, le_iff_get, exists_advance_iff, fun k hk => ?_, advance_comm c d, advance_assoc c d e, ?_⟩
  · exact ⟨fun x => (get_advance hk x).1, le_of_advance_eq_ok hk⟩
  · exact fun i j hij hj => hu.clocked.exists_le hij hj

/-- A flag that advances alone, the other variables being left behind. -/
private def flipping : TransitionSystem where
  init := .var ⟨"x", .bool⟩
  trans := .eq (.prime (.var ⟨"x", .bool⟩)) (.not (.var ⟨"x", .bool⟩))
  prop := .bool true
  offset := Clock.zero.set ⟨"x", .bool⟩ 1

/-- The flag is one generation behind the other variables. -/
private def behind : Clock :=
  (Clock.all 3).set ⟨"x", .bool⟩ 2

/-- Once the flag has caught up, it is mentioned no more. -/
theorem canonical_and_chained_flipping :
    (∃ u, Unrolling.After flipping 2 u ∧ ∃ a b, u.clockAt 0 = .ok a ∧ u.clockAt 2 = .ok b ∧ a.le b ∧ a ≠ b) ∧
      behind.advance (Clock.zero.set ⟨"x", .bool⟩ 1) = .ok (.all 3) ∧
      (Clock.zero.set ⟨"x", .bool⟩ 1).advance behind = .ok (.all 3) := by
  have hu : Unrolling.After flipping 2 _ := .extend (.extend (.start rfl) rfl) rfl
  obtain ⟨-, -, -, -, hcomm, -, hchain⟩ := canonical_and_chained behind (Clock.zero.set ⟨"x", .bool⟩ 1) .zero hu
  have hsum : behind.advance (Clock.zero.set ⟨"x", .bool⟩ 1) = .ok (.all 3) := by rfl
  obtain ⟨a, b, ha, hb, hle, heq⟩ := hchain 0 2 (by decide) (by decide)
  refine ⟨⟨_, hu, a, b, ha, hb, hle, fun hab => ?_⟩, hsum, hcomm ▸ hsum⟩
  have hnot := heq.mp hab ⟨"x", .bool⟩
  cases ha
  cases hb
  exact hnot (by decide)

end Clock

end Invariance
