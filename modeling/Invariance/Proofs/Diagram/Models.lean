import Invariance.Diagram.Models
import Invariance.Proofs.Diagram.Support

/-! Satisfying paths. A function that is not false has one, and is true wherever the literals on it are. -/

namespace Invariance.Diagram.Manager

variable {m m' : Manager} {ρ : Nat → Bool} {e : Edge} {v w : Nat} {l : Int} {ls : List Int}

/-- Each literal is true. -/
def Follows (ρ : Nat → Bool) (ls : List Int) : Prop :=
  ∀ l ∈ ls, ρ l.natAbs = decide (0 < l)

/-- Literals on variables larger than `v`, from the smallest on, that make the function true. A variable is true only
where the function is false otherwise, given the literals before. -/
structure IsPath (m : Manager) (v : Nat) (e : Edge) (ls : List Int) : Prop where
  increasing : ls.Pairwise fun k l => k.natAbs < l.natAbs
  larger : ∀ l ∈ ls, v < l.natAbs
  depends : ∀ l ∈ ls, m.DependsOn e l.natAbs
  value : ∀ ρ, Follows ρ ls → m.value ρ e = true
  forced : ∀ before l after, ls = before ++ l :: after → 0 < l →
    ∀ ρ, Follows ρ before → ρ l.natAbs = false → m.value ρ e = false

theorem isPath_one (hm : m.Valid) (v : Nat) : m.IsPath v .one [] where
  increasing := .nil
  larger := by simp
  depends := by simp
  value _ _ := hm.tabled.value_one
  forced := by simp

/-- The path of a half, below the decision for it. The other half is false if the decision is for the high one. -/
theorem IsPath.cons {half : Edge} (h : m.IsPath v half ls) (hl : l.natAbs = v) (hw : w < v) (hv : m.DependsOn e v)
    (hhalf : ∀ u, m.DependsOn half u → m.DependsOn e u)
    (hvalue : ∀ ρ : Nat → Bool, ρ v = decide (0 < l) → m.value ρ e = m.value ρ half)
    (hforced : 0 < l → ∀ ρ : Nat → Bool, ρ v = false → m.value ρ e = false) : m.IsPath w e (l :: ls) where
  increasing := List.pairwise_cons.mpr ⟨fun k hk => hl ▸ h.larger k hk, h.increasing⟩
  larger k hk := by
    rcases List.mem_cons.mp hk with rfl | hk
    · omega
    · have := h.larger k hk
      omega
  depends k hk := by
    rcases List.mem_cons.mp hk with rfl | hk
    · exact hl ▸ hv
    · exact hhalf _ (h.depends k hk)
  value ρ hρ := by
    obtain ⟨hhead, htail⟩ := List.forall_mem_cons.mp hρ
    rw [hvalue ρ (hl ▸ hhead), h.value ρ htail]
  forced before k after heq hk ρ hρ hfalse := by
    cases before with
    | nil =>
        cases heq
        exact hforced hk ρ (hl ▸ hfalse)
    | cons head before =>
        cases heq
        obtain ⟨hhead, htail⟩ := List.forall_mem_cons.mp hρ
        rw [hvalue ρ (hl ▸ hhead)]
        exact h.forced before k after rfl hk ρ htail hfalse

theorem signed32_eq (h : v < Word.signBound32) : Word.signed32 v = v :=
  if_pos h

theorem complementLiteral_eq (v : Nat) (h : v < Word.signBound32) : complementLiteral v = .ok (-v) :=
  if_neg (by omega)

theorem exists_pathWithin (hm : m.Valid) (k : Nat) (he : m.Under w e) (hzero : e ≠ .zero) (hk : e.index < k)
    (hbound : ∀ v, m.DependsOn e v → v < Word.signBound32) :
    ∃ ls, m.pathWithin k e = .ok ls ∧ m.IsPath w e ls := by
  induction k generalizing e w with
  | zero => exact absurd hk (Nat.not_lt_zero _)
  | succ k ih =>
      rw [pathWithin]
      by_cases hone : e = .one
      · rw [if_pos hone]
        exact ⟨[], rfl, hone ▸ isPath_one hm w⟩
      · have hindex := Edge.index_ne_one hone hzero
        have hcon := hm.tabled.contains_of_under he
        obtain ⟨v, low, high, hdec, -⟩ := exists_decides hm hcon hindex
        have hdep := hdec.dependsOn_var hm
        have hv := hbound v hdep
        have hwv := hdep.lt_of_under hm he
        have hpos := hdec.pos
        simp only [if_neg hone, hdec.var_eq, hdec.low_eq, hdec.high_eq, signed32_eq hv, bind, Except.bind]
        by_cases hlow : low = .zero
        · have hhigh : high ≠ .zero := fun h => hdec.ne (hlow.trans h.symm)
          obtain ⟨ls, hls, hpath⟩ := ih hdec.under.2 hhigh (by have := hdec.index.2; omega)
            fun w hw => hbound w (hdec.dependsOn_of_high hm hw)
          refine ⟨(v : Int) :: ls, ?_, hpath.cons (by simp) hwv hdep (fun w => hdec.dependsOn_of_high hm) ?_ ?_⟩
          · rw [if_pos hlow, hls]
            rfl
          · intro ρ hρ
            rw [hdec.value, hρ, if_pos (by simpa using hpos)]
          · intro _ ρ hρ
            rw [hdec.value, hρ, hlow, hm.tabled.value_zero]
            rfl
        · obtain ⟨ls, hls, hpath⟩ := ih hdec.under.1 hlow (by have := hdec.index.1; omega)
            fun w hw => hbound w (hdec.dependsOn_of_low hm hw)
          refine ⟨-(v : Int) :: ls, ?_, hpath.cons (by simp) hwv hdep (fun w => hdec.dependsOn_of_low hm) ?_ ?_⟩
          · rw [if_neg hlow, complementLiteral_eq v hv, hls]
            rfl
          · intro ρ hρ
            rw [hdec.value, hρ, if_neg (by simp)]
          · exact fun hneg => absurd hneg (by omega)

/-- A function that is not false has a satisfying path. -/
theorem exists_onePath (hm : m.Valid) (he : m.Contains e) (hzero : e ≠ .zero)
    (hbound : ∀ v, m.DependsOn e v → v < Word.signBound32) :
    ∃ ls, m.onePath e = .ok (some ls) ∧ m.IsPath 0 e ls := by
  obtain ⟨ls, hls, hpath⟩ := exists_pathWithin hm (e.index + 1) (hm.tabled.under_zero_of_contains he) hzero
    (Nat.lt_succ_self _) hbound
  refine ⟨ls, ?_, hpath⟩
  rw [onePath, if_neg hzero, hls]
  rfl

/-! ### Paths of any function -/

/-- A larger manager has the same path, or fails to have one in the same way. -/
theorem Grows.pathWithin (hm : m.Valid) (h : m.Grows m') (k : Nat) (he : m.Contains e) (hzero : e ≠ .zero) :
    m'.pathWithin k e = m.pathWithin k e := by
  induction k generalizing e with
  | zero => rfl
  | succ k ih =>
      rw [Manager.pathWithin, Manager.pathWithin]
      by_cases hone : e = .one
      · rw [if_pos hone, if_pos hone]
      · have hindex := Edge.index_ne_one hone hzero
        obtain ⟨v, low, high, hdec, -⟩ := exists_decides hm he hindex
        have hc := hdec.contains hm
        simp only [if_neg hone, hdec.var_eq, hdec.low_eq, hdec.high_eq, h.keeps.var_eq hdec.var_eq,
          h.keeps.low_eq hdec.low_eq, h.keeps.high_eq hdec.high_eq, bind, Except.bind]
        by_cases hlow : low = .zero
        · rw [if_pos hlow, if_pos hlow, ih hc.2 fun hhigh => hdec.ne (hlow.trans hhigh.symm)]
        · rw [if_neg hlow, if_neg hlow, ih hc.1 hlow]

theorem Grows.onePath (hm : m.Valid) (h : m.Grows m') (he : m.Contains e) : m'.onePath e = m.onePath e := by
  rw [Manager.onePath, Manager.onePath]
  by_cases hzero : e = .zero
  · rw [if_pos hzero, if_pos hzero]
  · rw [if_neg hzero, if_neg hzero, h.pathWithin hm _ he hzero]

/-- Where literals cannot name a variable, they name a smaller one. -/
theorem natAbs_signed32_le (v : Nat) : (Word.signed32 v).natAbs ≤ v := by
  unfold Word.signed32 Word.signBound32 Word.bound32
  split <;> omega

theorem natAbs_of_complementLiteral {k : Int} (h : complementLiteral k = .ok l) : l.natAbs = k.natAbs := by
  unfold complementLiteral at h
  split at h
  · cases h
  · cases h
    exact Int.natAbs_neg k

theorem natAbs_le_of_pathWithin (hm : m.Valid) (k : Nat) (he : m.Contains e) (hzero : e ≠ .zero)
    (hls : m.pathWithin k e = .ok ls) (hl : l ∈ ls) : ∃ v, m.DependsOn e v ∧ l.natAbs ≤ v := by
  induction k generalizing e ls with
  | zero => cases hls
  | succ k ih =>
      rw [pathWithin] at hls
      by_cases hone : e = .one
      · rw [if_pos hone] at hls
        cases hls
        cases hl
      · have hindex := Edge.index_ne_one hone hzero
        obtain ⟨v, low, high, hdec, -⟩ := exists_decides hm he hindex
        have hc := hdec.contains hm
        have hv := hdec.dependsOn_var hm
        have hhead := natAbs_signed32_le v
        simp only [if_neg hone, hdec.var_eq, hdec.low_eq, hdec.high_eq, bind, Except.bind] at hls
        by_cases hlow : low = .zero
        · rw [if_pos hlow] at hls
          cases hrest : m.pathWithin k high with
          | error => simp [hrest] at hls
          | ok rest =>
              simp only [hrest, pure, Except.pure, Except.ok.injEq] at hls
              subst hls
              rcases List.mem_cons.mp hl with rfl | hl
              · exact ⟨v, hv, hhead⟩
              · obtain ⟨u, hu, hle⟩ := ih hc.2 (fun hhigh => hdec.ne (hlow.trans hhigh.symm)) hrest hl
                exact ⟨u, hdec.dependsOn_of_high hm hu, hle⟩
        · rw [if_neg hlow] at hls
          cases hnot : complementLiteral (Word.signed32 v) with
          | error => simp [hnot] at hls
          | ok head =>
              cases hrest : m.pathWithin k low with
              | error => simp [hnot, hrest] at hls
              | ok rest =>
                  simp only [hnot, hrest, pure, Except.pure, Except.ok.injEq] at hls
                  subst hls
                  rcases List.mem_cons.mp hl with rfl | hl
                  · exact ⟨v, hv, natAbs_of_complementLiteral hnot ▸ hhead⟩
                  · obtain ⟨u, hu, hle⟩ := ih hc.1 hlow hrest hl
                    exact ⟨u, hdec.dependsOn_of_low hm hu, hle⟩

/-- No literal on a path names a variable beyond all those on which the function depends. -/
theorem natAbs_le_of_onePath (hm : m.Valid) (he : m.Contains e) (hls : m.onePath e = .ok (some ls)) (hl : l ∈ ls) :
    ∃ v, m.DependsOn e v ∧ l.natAbs ≤ v := by
  rw [onePath] at hls
  by_cases hzero : e = .zero
  · rw [if_pos hzero] at hls
    cases hls
  · rw [if_neg hzero] at hls
    cases hpath : m.pathWithin (e.index + 1) e with
    | error => simp [hpath, bind, Except.bind] at hls
    | ok path =>
        simp only [hpath, bind, Except.bind, pure, Except.pure, Except.ok.injEq, Option.some_inj] at hls
        exact natAbs_le_of_pathWithin hm _ he hzero (hls ▸ hpath) hl

end Invariance.Diagram.Manager
