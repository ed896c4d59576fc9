import Invariance.Proofs.Bits.Readback
import Invariance.Proofs.Diagram.Coincidence

/-!
The same formula from another diagram. What is read back for a function depends on the function and on the symbols to
which its variables belong, not on the numbers of the nodes: in two workspaces the search visits nodes that correspond
to each other, one by one, and finds or refuses them alike.
-/

namespace Invariance.Bits

open Diagram Formula Manager Readback

variable {m₁ m₂ : Manager} {a₁ a₂ : Allocation} {x₁ x₂ : Edge} {n₁ n₂ : Node} {found₁ found₂ : Found} {e : Formula}

/-- Nodes that have the same function in the two managers have the same formula so far, or none. -/
def Parallel (m₁ m₂ : Manager) (found₁ found₂ : Found) : Prop :=
  ∀ x₁ x₂, Coincide m₁ x₁ m₂ x₂ → found₁[x₁.index]? = found₂[x₂.index]?

theorem Parallel.insert (h₁ : m₁.Valid) (h₂ : m₂.Valid) (hx : Coincide m₁ x₁ m₂ x₂) (h : Parallel m₁ m₂ found₁ found₂) :
    Parallel m₁ m₂ (found₁.insert x₁.index e) (found₂.insert x₂.index e) := by
  intro y₁ y₂ hy
  rw [Std.TreeMap.getElem?_insert, Std.TreeMap.getElem?_insert, h y₁ y₂ hy]
  have hiff := hx.index_eq_iff h₁ h₂ hy
  simp only [Std.LawfulEqCmp.compare_eq_iff_eq, hiff]

/-- How two searches end alike: with the same formula, all others found corresponding too, or by the same refusal. -/
inductive EndAlike (m₁ m₂ : Manager) : Except (Halt ForeignVariable) (Formula × Found) →
    Except (Halt ForeignVariable) (Formula × Found) → Prop where
  | found (e : Formula) {found₁ found₂ : Found} (h : Parallel m₁ m₂ found₁ found₂) :
      EndAlike m₁ m₂ (.ok (e, found₁)) (.ok (e, found₂))
  | refused (h : Halt ForeignVariable) : EndAlike m₁ m₂ (.error h) (.error h)

theorem EndAlike.bind {o₁ o₂ : Except (Halt ForeignVariable) (Formula × Found)}
    {g₁ g₂ : Formula × Found → Except (Halt ForeignVariable) (Formula × Found)} (h : EndAlike m₁ m₂ o₁ o₂)
    (hg : ∀ e found₁ found₂, Parallel m₁ m₂ found₁ found₂ → EndAlike m₁ m₂ (g₁ (e, found₁)) (g₂ (e, found₂))) :
    EndAlike m₁ m₂ (o₁ >>= g₁) (o₂ >>= g₂) := by
  cases h with
  | found e h => exact hg e _ _ h
  | refused h => exact .refused h

theorem literal_congr {v : Nat} (h : a₁.owner? v = a₂.owner? v) : literal a₁ v = literal a₂ v := by
  rw [literal, literal, h]

theorem shape_congr (h₁ : m₁.Valid) (h₂ : m₂.Valid) (hlow : Coincide m₁ n₁.low m₂ n₂.low)
    (hhigh : Coincide m₁ n₁.high m₂ n₂.high) : Shape.ofNode n₁ = Shape.ofNode n₂ := by
  simp only [Shape.ofNode, hlow.eq_one_iff h₁ h₂, hlow.eq_zero_iff h₁ h₂, hhigh.eq_one_iff h₁ h₂,
    hhigh.eq_zero_iff h₁ h₂]

/-- By induction on the decisions that are left to the first search; the second is at a corresponding node all along. -/
theorem endAlike_within (h₁ : m₁.Valid) (h₂ : m₂.Valid) (k₁ k₂ : Nat) (hx : Coincide m₁ x₁ m₂ x₂) (hk₁ : x₁.index < k₁)
    (hk₂ : x₂.index < k₂) (howner : ∀ v, m₁.DependsOn x₁ v → a₁.owner? v = a₂.owner? v)
    (hfound : Parallel m₁ m₂ found₁ found₂) :
    EndAlike m₁ m₂ (within m₁ a₁ k₁ found₁ x₁) (within m₂ a₂ k₂ found₂ x₂) := by
  induction k₁ generalizing k₂ x₁ x₂ found₁ found₂ with
  | zero => exact absurd hk₁ (Nat.not_lt_zero _)
  | succ k₁ ih =>
      obtain ⟨k₂, rfl⟩ := Nat.exists_eq_succ_of_ne_zero (Nat.ne_zero_of_lt hk₂)
      rw [within, within]
      by_cases hone : x₁ = .one
      · rw [if_pos hone, if_pos ((hx.eq_one_iff h₁ h₂).mp hone)]
        exact .found _ hfound
      by_cases hzero : x₁ = .zero
      · rw [if_neg hone, if_neg (mt (hx.eq_one_iff h₁ h₂).mpr hone), if_pos hzero,
          if_pos ((hx.eq_zero_iff h₁ h₂).mp hzero)]
        exact .found _ hfound
      rw [if_neg hone, if_neg (mt (hx.eq_one_iff h₁ h₂).mpr hone), if_neg hzero,
        if_neg (mt (hx.eq_zero_iff h₁ h₂).mpr hzero)]
      dsimp only
      rw [hfound x₁ x₂ hx, hx.negated_eq h₁ h₂]
      cases found₂[x₂.index]? with
      | some r => exact .found _ hfound
      | none =>
          have hindex := Edge.index_ne_one hone hzero
          obtain ⟨n₁, hn₁⟩ := hx.left.exists_node
          obtain ⟨n₂, hn₂⟩ := hx.right.exists_node
          have hvar := hx.var_eq h₁ h₂ hindex hn₁ hn₂
          have hlow : Coincide m₁ n₁.low m₂ n₂.low := hx.child h₁ h₂ hindex hn₁ hn₂ false
          have hhigh : Coincide m₁ n₁.high m₂ n₂.high := hx.child h₁ h₂ hindex hn₁ hn₂ true
          have hdec₁ := decides_of_node h₁ hn₁ hindex
          have hlt₁ := hdec₁.index
          have hlt₂ := (decides_of_node h₂ hn₂ (mt (hx.index_eq_one_iff h₁ h₂).mpr hindex)).index
          rw [Edge.index_ofNode] at hlt₁ hlt₂
          have hdep : ∀ {v}, m₁.DependsAt x₁.index v → a₁.owner? v = a₂.owner? v :=
            fun hv => howner _ (dependsOn_iff_dependsAt.mpr hv)
          have hendlow : ∀ {found₁ found₂}, Parallel m₁ m₂ found₁ found₂ →
              EndAlike m₁ m₂ (within m₁ a₁ k₁ found₁ n₁.low) (within m₂ a₂ k₂ found₂ n₂.low) :=
            ih k₂ hlow (by omega) (by omega) fun v hv => hdep (hdec₁.dependsOn_of_low h₁ hv)
          have hendhigh : ∀ {found₁ found₂}, Parallel m₁ m₂ found₁ found₂ →
              EndAlike m₁ m₂ (within m₁ a₁ k₁ found₁ n₁.high) (within m₂ a₂ k₂ found₂ n₂.high) :=
            ih k₂ hhigh (by omega) (by omega) fun v hv => hdep (hdec₁.dependsOn_of_high h₁ hv)
          simp only [hn₁, hn₂, Halt.ofFault, ok_bind, ← hvar, literal_congr (hdep (hdec₁.dependsOn_var h₁)),
            shape_congr h₁ h₂ hlow hhigh]
          cases literal a₂ n₁.var with
          | error h => exact .refused h
          | ok l =>
              rw [ok_bind, ok_bind]
              cases Shape.ofNode n₂ <;> dsimp only
              case positive => exact .found _ (hfound.insert h₁ h₂ hx)
              case negative => exact .found _ (hfound.insert h₁ h₂ hx)
              case andHigh => exact (hendhigh hfound).bind fun _ _ _ hfound => .found _ (hfound.insert h₁ h₂ hx)
              case notAndLow => exact (hendlow hfound).bind fun _ _ _ hfound => .found _ (hfound.insert h₁ h₂ hx)
              case orLow => exact (hendlow hfound).bind fun _ _ _ hfound => .found _ (hfound.insert h₁ h₂ hx)
              case notOrHigh => exact (hendhigh hfound).bind fun _ _ _ hfound => .found _ (hfound.insert h₁ h₂ hx)
              case choice =>
                  refine (hendhigh hfound).bind fun _ _ _ hfound => ?_
                  exact (hendlow hfound).bind fun _ _ _ hfound => .found _ (hfound.insert h₁ h₂ hx)

/-- Functions that are the same, over variables that belong to the same symbols, are read back as the same formula. -/
theorem readback_congr (h₁ : m₁.Valid) (h₂ : m₂.Valid) (hx : Coincide m₁ x₁ m₂ x₂)
    (howner : ∀ v, m₁.DependsOn x₁ v → a₁.owner? v = a₂.owner? v) : readback m₁ a₁ x₁ = readback m₂ a₂ x₂ := by
  have hempty : Parallel m₁ m₂ {} {} := fun x₁ x₂ _ => by simp
  have hends := endAlike_within h₁ h₂ (x₁.index + 1) (x₂.index + 1) hx (Nat.lt_succ_self _) (Nat.lt_succ_self _) howner
    hempty
  rw [readback, readback]
  generalize within m₁ a₁ (x₁.index + 1) {} x₁ = o₁ at hends
  generalize within m₂ a₂ (x₂.index + 1) {} x₂ = o₂ at hends
  cases hends <;> rfl

end Invariance.Bits
