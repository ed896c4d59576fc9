import Invariance.Proofs.Diagram.Nodes

/-!
How a choice is broken up, as far as the table tells and whatever its nodes mean. Standard forms are no larger than the
choice, and both halves below the topmost variable are smaller, which bounds the recursion. What was read from a table
is read again from a larger one.
-/

namespace Invariance.Diagram

open Manager

variable {m m' : Manager} {c : Choice} {e : Edge} {v : Nat}

/-! ### Standard forms -/

namespace Choice

/-- The form is made of edges of the manager, and is no larger than the choice. -/
def Form.Within (m : Manager) (c : Choice) : Form → Prop
  | .settled e => m.Contains e
  | .split _ d => m.Includes d ∧ d.test.index ≠ 1 ∧ d.depth ≤ c.depth

private theorem within_negate (hc : m.Includes c) (htest : c.test.index ≠ 1) {d : Choice} (hd : c.depth ≤ d.depth) :
    (if c.yes.negated then Form.split true ⟨c.test, c.yes.not, c.no.not⟩ else .split false c).Within m d := by
  split
  · refine ⟨⟨hc.test, contains_not.mpr hc.yes, contains_not.mpr hc.no⟩, htest, ?_⟩
    simpa [depth] using hd
  · exact ⟨hc, htest, hd⟩

private theorem within_standard (hc : m.Includes c) (htest : c.test.index ≠ 1) {d : Choice} (hd : c.depth ≤ d.depth) :
    c.standard.Within m d := by
  unfold standard
  split
  · -- the test is negated, so that the outcomes trade places
    refine within_negate ⟨contains_not.mpr hc.test, hc.no, hc.yes⟩ (by simpa using htest) ?_
    simp only [depth, Edge.index_not] at hd ⊢
    omega
  · exact within_negate hc htest hd

/-- An outcome that is replaced by a constant, or not at all. -/
private theorem outcome_within {e x y z : Edge} {p q : Prop} [Decidable p] [Decidable q] (he : m.Contains e)
    (hx : m.Contains x ∧ x.index = 1) (hy : m.Contains y ∧ y.index = 1)
    (hz : z = if p then x else if q then y else e) : m.Contains z ∧ z.index ≤ e.index := by
  have hpos := he.1
  subst hz
  split
  · exact ⟨hx.1, by omega⟩
  · split
    · exact ⟨hy.1, by omega⟩
    · exact ⟨he, le_rfl⟩

theorem includes_specialize (hone : m.Contains .one) (hc : m.Includes c) :
    m.Includes c.specialize ∧ c.specialize.depth ≤ c.depth := by
  have hzero : m.Contains .zero := hone
  obtain ⟨hyes, hyesi⟩ := outcome_within hc.yes ⟨hone, rfl⟩ ⟨hzero, rfl⟩ (show c.specialize.yes = _ from rfl)
  obtain ⟨hno, hnoi⟩ := outcome_within hc.no ⟨hzero, rfl⟩ ⟨hone, rfl⟩ (show c.specialize.no = _ from rfl)
  refine ⟨⟨hc.test, hyes, hno⟩, ?_⟩
  change c.test.index + c.specialize.yes.index + c.specialize.no.index ≤ c.depth
  unfold depth
  omega

theorem within_reduce (hone : m.Contains .one) (hc : m.Includes c) : c.reduce.Within m c := by
  obtain ⟨hs, hdepth⟩ := includes_specialize hone hc
  unfold reduce
  split
  · exact hc.yes
  · next h₁ =>
      split
      · exact hc.no
      · next h₀ =>
          have htest := Edge.index_ne_one h₁ h₀
          dsimp only
          split
          · exact hs.yes
          · split
            · exact hs.test
            · split
              · exact contains_not.mpr hs.test
              · exact within_standard hs htest hdepth

end Choice

/-! ### Halves of a choice -/

namespace Manager

/-- The root of the edge decides the variable `v`. -/
def RootsAt (m : Manager) (v : Nat) (e : Edge) : Prop :=
  e.index ≠ 1 ∧ ∃ n, m.node e.index = .ok n ∧ n.var = v

/-- The variable `u + 1` is the topmost one of a choice, and splits it into two smaller choices. -/
structure Splits (m : Manager) (c : Choice) (u : Nat) (c₀ c₁ : Choice) : Prop where
  split_eq : m.split c = .ok (u + 1, c₀, c₁)
  under : m.Under u c.test ∧ m.Under u c.yes ∧ m.Under u c.no
  cofactors_eq : m.cofactors (u + 1) c.test = .ok (c₀.test, c₁.test) ∧
    m.cofactors (u + 1) c.yes = .ok (c₀.yes, c₁.yes) ∧ m.cofactors (u + 1) c.no = .ok (c₀.no, c₁.no)
  includes : m.Includes c₀ ∧ m.Includes c₁
  depth : c₀.depth < c.depth ∧ c₁.depth < c.depth

namespace Stored

variable (h : m.Stored)

include h

/-- The root of an edge that is not constant decides between older nodes. -/
theorem exists_root (he : m.Contains e) (hone : e.index ≠ 1) :
    ∃ n, m.node e.index = .ok n ∧ 0 < n.var ∧ ∀ b, m.Contains (n.child b) ∧ (n.child b).index < e.index := by
  obtain ⟨n, hn⟩ := he.exists_node
  obtain ⟨hvar, hchild⟩ := h.older _ n (by have := he.1; omega) hn
  refine ⟨n, hn, hvar, fun b => ⟨⟨(hchild b).1, ?_⟩, (hchild b).2⟩⟩
  exact (hchild b).2.le.trans he.2

private theorem exists_var (he : m.Contains e) (hone : e.index ≠ 1) :
    ∃ u, m.var e = .ok (u + 1) ∧ m.Under u e ∧ m.RootsAt (u + 1) e := by
  obtain ⟨n, hn, hpos, -⟩ := h.exists_root he hone
  have hvar : n.var - 1 + 1 = n.var := by omega
  refine ⟨n.var - 1, ?_, .inr ⟨n, hn, by omega⟩, hone, n, hn, hvar.symm⟩
  rw [var_of_node hn, hvar]

private theorem exists_above (he : m.Contains e) (u : Nat) :
    ∃ w ≤ u, m.above (u + 1) e = .ok (w + 1) ∧ m.Under w e ∧ (w = u ∨ m.RootsAt (w + 1) e) := by
  unfold above
  by_cases hone : e.index = 1
  · rw [if_pos (Edge.isConst_iff.mpr hone)]
    exact ⟨u, le_rfl, rfl, .inl hone, .inl rfl⟩
  · obtain ⟨k, hvar, hunder, hroot⟩ := h.exists_var he hone
    rw [if_neg (fun h => hone (Edge.isConst_iff.mp h)), hvar]
    rcases Nat.lt_or_ge k u with hlt | hge
    · refine ⟨k, hlt.le, ?_, hunder, .inr hroot⟩
      change Except.ok (min (u + 1) (k + 1)) = _
      rw [Nat.min_eq_right (by omega)]
    · refine ⟨u, le_rfl, ?_, hunder.mono hge, .inl rfl⟩
      change Except.ok (min (u + 1) (k + 1)) = _
      rw [Nat.min_eq_left (by omega)]

/-- The topmost variable of a choice: no root decides a smaller one, and one of them decides it. -/
private theorem exists_top (hc : m.Includes c) (htest : c.test.index ≠ 1) :
    ∃ u, m.top c = .ok (u + 1) ∧ (m.Under u c.test ∧ m.Under u c.yes ∧ m.Under u c.no) ∧
      (m.RootsAt (u + 1) c.test ∨ m.RootsAt (u + 1) c.yes ∨ m.RootsAt (u + 1) c.no) := by
  obtain ⟨u₁, hvar, hunder₁, hroot₁⟩ := h.exists_var hc.test htest
  obtain ⟨u₂, hle₂, hyes, hunder₂, hroot₂⟩ := h.exists_above hc.yes u₁
  obtain ⟨u₃, hle₃, hno, hunder₃, hroot₃⟩ := h.exists_above hc.no u₂
  refine ⟨u₃, ?_, ⟨hunder₁.mono (by omega), hunder₂.mono hle₃, hunder₃⟩, ?_⟩
  · rw [top, hvar]
    change (m.above (u₁ + 1) c.yes >>= fun v => m.above v c.no) = _
    rw [hyes]
    exact hno
  · rcases hroot₃ with rfl | hroot
    · rcases hroot₂ with rfl | hroot
      · exact .inl hroot₁
      · exact .inr (.inl hroot)
    · exact .inr (.inr hroot)

private theorem exists_cofactors (he : m.Contains e) (v : Nat) :
    ∃ e₀ e₁, m.cofactors v e = .ok (e₀, e₁) ∧ (m.Contains e₀ ∧ m.Contains e₁) ∧
      (e₀.index ≤ e.index ∧ e₁.index ≤ e.index) ∧
      (m.RootsAt v e → e₀.index < e.index ∧ e₁.index < e.index) := by
  unfold cofactors
  by_cases hone : e.index = 1
  · rw [if_pos (Edge.isConst_iff.mpr hone)]
    exact ⟨e, e, rfl, ⟨he, he⟩, ⟨le_rfl, le_rfl⟩, fun hroot => absurd hone hroot.1⟩
  · obtain ⟨n, hn, -, hchild⟩ := h.exists_root he hone
    rw [if_neg (mt Edge.isConst_iff.mp hone), hn]
    change ∃ e₀ e₁, (if n.var = v then Except.ok (n.low.flipIf e.negated, n.high.flipIf e.negated) else
      .ok (e, e)) = .ok (e₀, e₁) ∧ _
    by_cases hvar : n.var = v
    · rw [if_pos hvar]
      obtain ⟨hlow, hlowi⟩ := hchild false
      obtain ⟨hhigh, hhighi⟩ := hchild true
      refine ⟨_, _, rfl, ⟨contains_flipIf.mpr hlow, contains_flipIf.mpr hhigh⟩, ?_, fun _ => ?_⟩
      · rw [Edge.index_flipIf, Edge.index_flipIf]
        exact ⟨hlowi.le, hhighi.le⟩
      · rw [Edge.index_flipIf, Edge.index_flipIf]
        exact ⟨hlowi, hhighi⟩
    · rw [if_neg hvar]
      refine ⟨e, e, rfl, ⟨he, he⟩, ⟨le_rfl, le_rfl⟩, ?_⟩
      rintro ⟨-, n', hn', hvar'⟩
      cases hn.symm.trans hn'
      exact absurd hvar' hvar

/-- A choice is split into smaller ones. -/
theorem exists_splits (hc : m.Includes c) (htest : c.test.index ≠ 1) : ∃ u c₀ c₁, m.Splits c u c₀ c₁ := by
  obtain ⟨u, htop, hunder, hroot⟩ := h.exists_top hc htest
  obtain ⟨f₀, f₁, hf, ⟨hf₀, hf₁⟩, ⟨hfi₀, hfi₁⟩, hfr⟩ := h.exists_cofactors hc.test (u + 1)
  obtain ⟨g₀, g₁, hg, ⟨hg₀, hg₁⟩, ⟨hgi₀, hgi₁⟩, hgr⟩ := h.exists_cofactors hc.yes (u + 1)
  obtain ⟨h₀, h₁, hh, ⟨hh₀, hh₁⟩, ⟨hhi₀, hhi₁⟩, hhr⟩ := h.exists_cofactors hc.no (u + 1)
  refine ⟨u, ⟨f₀, g₀, h₀⟩, ⟨f₁, g₁, h₁⟩, ?_, hunder, ⟨hf, hg, hh⟩, ⟨⟨hf₀, hg₀, hh₀⟩, ⟨hf₁, hg₁, hh₁⟩⟩, ?_⟩
  · unfold split
    simp only [htop, hf, hg, hh, bind, Except.bind]
    rfl
  · unfold Choice.depth
    rcases hroot with hr | hr | hr
    · have := hfr hr
      constructor <;> dsimp only <;> omega
    · have := hgr hr
      constructor <;> dsimp only <;> omega
    · have := hhr hr
      constructor <;> dsimp only <;> omega

end Stored

/-! ### Reading a larger table -/

namespace Keeps

variable (h : m.Keeps m')

include h

private theorem above_eq {w : Nat} (hv : m.above v e = .ok w) : m'.above v e = .ok w := by
  unfold above at *
  cases hconst : e.isConst with
  | true =>
      rw [hconst] at hv
      exact hv
  | false =>
      rw [hconst] at hv
      exact bind_mono (fun _ => h.var_eq) (fun _ => id) hv

private theorem top_eq (hv : m.top c = .ok v) : m'.top c = .ok v :=
  bind_mono (fun _ => h.var_eq) (fun _ => bind_mono (fun _ => h.above_eq) fun _ => h.above_eq) hv

private theorem cofactors_eq {o : Edge × Edge} (ho : m.cofactors v e = .ok o) : m'.cofactors v e = .ok o := by
  unfold cofactors at *
  cases hconst : e.isConst with
  | true =>
      rw [hconst] at ho
      exact ho
  | false =>
      rw [hconst] at ho
      exact bind_mono (fun n => h e.index n) (fun _ => id) ho

/-- The halves of a choice stay what they are. -/
theorem split_eq {o : Nat × Choice × Choice} (ho : m.split c = .ok o) : m'.split c = .ok o :=
  bind_mono (fun _ => h.top_eq) (fun _ => bind_mono (fun _ => h.cofactors_eq) fun _ =>
    bind_mono (fun _ => h.cofactors_eq) fun _ => bind_mono (fun _ => h.cofactors_eq) fun _ => id) ho

end Keeps

end Manager

end Invariance.Diagram
