import Invariance.Proofs.Bits.Allocation
import Invariance.Proofs.Diagram.Choice
import Invariance.Proofs.Diagram.Models
import Mathlib.Order.PiLex

/-!
The least model. On a path that prefers false, a variable is true only where it has to be, so that no assignment that
satisfies the function comes before the one that is false off the path.
-/

namespace Invariance.Diagram.Manager

open Bits

variable {m : Manager} {e : Edge} {v : Nat} {ls : List Int}

/-- The assignments that satisfy a function, of which one comes before another if it is false at the first variable on
which they differ. -/
def Satisfying (m : Manager) (e : Edge) : Set (Lex (Nat → Bool)) :=
  {ρ | m.value (ofLex ρ) e = true}

theorem IsPath.isLeast (h : m.IsPath v e ls) : IsLeast (m.Satisfying e) (toLex (truthOf ls)) := by
  refine ⟨h.value _ fun l hl => truthOf_natAbs h.increasing hl, fun ρ hρ => ?_⟩
  by_contra hlt
  obtain ⟨i, hsame, hi⟩ := not_le.mp hlt
  obtain ⟨hfalse, htrue⟩ := Bool.lt_iff.mp hi
  obtain ⟨l, hl, rfl, hpos⟩ := exists_of_truthOf htrue
  obtain ⟨before, after, rfl⟩ := List.append_of_mem hl
  -- up to the first difference the assignment follows the path, which says that the variable is true
  have hfollows : Follows (ofLex ρ) before := by
    intro k hk
    have hbefore := (List.pairwise_append.mp h.increasing).2.2 k hk l List.mem_cons_self
    exact (hsame _ hbefore).trans (truthOf_natAbs h.increasing (List.mem_append_left _ hk))
  have hvalue := h.forced before l after rfl hpos (ofLex ρ) hfollows hfalse
  exact Bool.false_ne_true (hvalue.symm.trans hρ)

/-- The path found is the least model. -/
theorem onePath_isLeast (hm : m.Valid) (he : m.Contains e)
    (hvars : ∀ i n, m.node i = .ok n → n.var < Word.signBound32) :
    (m.onePath e = .ok none ↔ ∀ ρ, m.value ρ e = false) ∧
    ((∃ ρ, m.value ρ e = true) → ∃ ls vars, m.onePath e = .ok (some ls) ∧ m.support e = .ok vars ∧
      (ls.Pairwise fun k l => k.natAbs < l.natAbs) ∧ (∀ l ∈ ls, l.natAbs ∈ vars.elements) ∧
      (∀ ρ, Follows ρ ls → m.value ρ e = true) ∧ IsLeast (m.Satisfying e) (toLex (truthOf ls))) := by
  have hzero := he.denotes.eq_zero_iff hm
  by_cases heq : e = .zero
  · have hfalse := hzero.mp heq
    refine ⟨⟨fun _ => hfalse, fun _ => by rw [onePath, if_pos heq]; rfl⟩, fun ⟨ρ, hρ⟩ => ?_⟩
    exact absurd hρ (Bool.eq_false_iff.mp (hfalse ρ))
  · have hbound : ∀ v, m.DependsOn e v → v < Word.signBound32 := by
      intro v hv
      obtain ⟨i, n, hn, rfl⟩ := hv.exists_node hm he
      exact hvars i n hn
    obtain ⟨ls, hls, hpath⟩ := exists_onePath hm he heq hbound
    obtain ⟨vars, hsupport, hmem⟩ := exists_support hm he
    refine ⟨⟨fun hnone => ?_, fun hfalse => absurd (hzero.mpr hfalse) heq⟩, fun _ => ?_⟩
    · cases hnone.symm.trans hls
    · exact ⟨ls, vars, hls, hsupport, hpath.increasing, fun l hl => (hmem _).mpr (hpath.depends l hl), hpath.value,
        hpath.isLeast⟩

private def disjunction : Build Edge := do
  Build.or (← Build.mkVar 1) (← Build.mkVar 2)

/-- Of two variables, one of which is to be true, the least model has the second one. -/
theorem onePath_isLeast_disjunction : ∃ m₀ m e, Manager.ofBits 3 = .ok m₀ ∧ disjunction.run.run m₀ = (.ok e, m) ∧
    m.onePath e = .ok (some [-1, 2]) ∧ IsLeast (m.Satisfying e) (toLex (truthOf [-1, 2])) := by
  have hm₀ : Manager.ofBits 3 = .ok _ := rfl
  have hmade : Meets disjunction _ (fun e m => m.Valid ∧ m.Denotes e fun ρ => ρ 1 || ρ 2) fun _ _ => False :=
    Build.meets_ofVars (Manager.valid_ofBits hm₀) Nat.one_pos Nat.two_pos fun m x y hg hx hy =>
      (Build.meets_or hg.valid hx hy).imp fun e m' he => ⟨he.1.valid, he.2⟩
  have hrun : ∀ m₀, Manager.ofBits 3 = .ok m₀ → (disjunction.run.run m₀).1 = .ok (.ofNode 4 false) ∧
      (disjunction.run.run m₀).2.onePath (.ofNode 4 false) = .ok (some [-1, 2]) ∧
      ∀ i ≤ (disjunction.run.run m₀).2.size, ∀ n ∈ ((disjunction.run.run m₀).2.node i).toOption,
        n.var < Word.signBound32 := by
    rintro _ ⟨⟩
    decide +kernel
  obtain ⟨hedge, hpath, hvars⟩ := hrun _ hm₀
  obtain ⟨hm, he⟩ := hmade.of_run_ok (Prod.ext hedge rfl)
  obtain ⟨-, hleast⟩ := onePath_isLeast hm he.contains fun i n hn =>
    hvars i (Slots.Interning.le_size_of_get hn) n (by rw [hn]; rfl)
  obtain ⟨ls, vars, hls, -, -, -, -, hleast⟩ := hleast ⟨fun _ => true, he.value _⟩
  cases hls.symm.trans hpath
  exact ⟨_, _, _, hm₀, Prod.ext hedge rfl, hpath, hleast⟩

end Invariance.Diagram.Manager
