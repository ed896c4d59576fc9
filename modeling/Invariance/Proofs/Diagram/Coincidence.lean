import Invariance.Proofs.Diagram.Quantifier

/-!
One function in two managers. A diagram has no choice but the numbers of its nodes: edges that have the same function
have the same sign, decide the same variable, and lead to children that have the same functions again.
-/

namespace Invariance.Diagram.Manager

variable {m₁ m₂ : Manager} {e₁ e₂ f₁ f₂ : Edge} {n₁ n₂ : Node} {v : Nat}

/-- Edges of two managers that have the same function. -/
structure Coincide (m₁ : Manager) (e₁ : Edge) (m₂ : Manager) (e₂ : Edge) : Prop where
  left : m₁.Contains e₁
  right : m₂.Contains e₂
  value : ∀ ρ, m₁.value ρ e₁ = m₂.value ρ e₂

namespace Coincide

theorem symm (h : Coincide m₁ e₁ m₂ e₂) : Coincide m₂ e₂ m₁ e₁ :=
  ⟨h.right, h.left, fun ρ => (h.value ρ).symm⟩

theorem dependsOn_iff (h : Coincide m₁ e₁ m₂ e₂) : m₁.DependsOn e₁ v ↔ m₂.DependsOn e₂ v :=
  exists_congr fun ρ => by rw [h.value, h.value]

section Valid

variable (h₁ : m₁.Valid) (h₂ : m₂.Valid) (h : Coincide m₁ e₁ m₂ e₂)

include h₁ h₂

theorem one : Coincide m₁ .one m₂ .one :=
  ⟨h₁.tabled.contains_one, h₂.tabled.contains_one, fun ρ => by rw [h₁.tabled.value_one, h₂.tabled.value_one]⟩

theorem zero : Coincide m₁ .zero m₂ .zero :=
  ⟨h₁.tabled.contains_zero, h₂.tabled.contains_zero, fun ρ => by rw [h₁.tabled.value_zero, h₂.tabled.value_zero]⟩

include h

/-- Functions that are told apart in one manager are told apart in the other. -/
theorem eq_iff (h' : Coincide m₁ f₁ m₂ f₂) : e₁ = f₁ ↔ e₂ = f₂ := by
  constructor
  · rintro rfl
    exact h₂.tabled.eq_of_value_eq h.right h'.right fun ρ => (h.value ρ).symm.trans (h'.value ρ)
  · rintro rfl
    exact h₁.tabled.eq_of_value_eq h.left h'.left fun ρ => (h.value ρ).trans (h'.value ρ).symm

theorem eq_one_iff : e₁ = .one ↔ e₂ = .one :=
  h.eq_iff h₁ h₂ (one h₁ h₂)

theorem eq_zero_iff : e₁ = .zero ↔ e₂ = .zero :=
  h.eq_iff h₁ h₂ (zero h₁ h₂)

theorem index_eq_one_iff : e₁.index = 1 ↔ e₂.index = 1 := by
  rw [Edge.index_eq_one_iff, Edge.index_eq_one_iff, h.eq_one_iff h₁ h₂, h.eq_zero_iff h₁ h₂]

theorem negated_eq : e₁.negated = e₂.negated := by
  have htrue := h.value fun _ => true
  rw [h₁.tabled.value_true h.left, h₂.tabled.value_true h.right] at htrue
  simpa using htrue

/-- The nodes of the edges have the same function too. -/
theorem regular : Coincide m₁ (.ofNode e₁.index false) m₂ (.ofNode e₂.index false) where
  left := by simpa [Contains] using h.left
  right := by simpa [Contains] using h.right
  value ρ := by
    have hvalue := h.value ρ
    rw [Manager.value, Manager.value, h.negated_eq h₁ h₂] at hvalue
    simpa [Manager.value] using hvalue

theorem index_eq_iff (h' : Coincide m₁ f₁ m₂ f₂) : e₁.index = f₁.index ↔ e₂.index = f₂.index := by
  have hregular := (h.regular h₁ h₂).eq_iff h₁ h₂ (h'.regular h₁ h₂)
  simpa [Edge.ext_iff] using hregular

/-! ### Nodes -/

/-- What one node decides, the function depends on, and all such variables come from the other node on. -/
private theorem var_le (hone : e₁.index ≠ 1) (hn₁ : m₁.node e₁.index = .ok n₁) (hn₂ : m₂.node e₂.index = .ok n₂) :
    n₂.var ≤ n₁.var := by
  have hone₂ := mt (h.index_eq_one_iff h₁ h₂).mpr hone
  have hdec₁ := decides_of_node h₁ hn₁ hone
  have hdec₂ := decides_of_node h₂ hn₂ hone₂
  have hdep := (h.regular h₁ h₂).dependsOn_iff.mp (hdec₁.dependsOn_var h₁)
  have hlt := hdep.lt_of_under h₂ hdec₂.root
  omega

theorem var_eq (hone : e₁.index ≠ 1) (hn₁ : m₁.node e₁.index = .ok n₁) (hn₂ : m₂.node e₂.index = .ok n₂) :
    n₁.var = n₂.var :=
  Nat.le_antisymm (h.symm.var_le h₂ h₁ (mt (h.index_eq_one_iff h₁ h₂).mpr hone) hn₂ hn₁)
    (h.var_le h₁ h₂ hone hn₁ hn₂)

theorem child (hone : e₁.index ≠ 1) (hn₁ : m₁.node e₁.index = .ok n₁) (hn₂ : m₂.node e₂.index = .ok n₂) (b : Bool) :
    Coincide m₁ (n₁.child b) m₂ (n₂.child b) := by
  have hone₂ := mt (h.index_eq_one_iff h₁ h₂).mpr hone
  have hc₁ := (decides_of_node h₁ hn₁ hone).contains h₁
  have hc₂ := (decides_of_node h₂ hn₂ hone₂).contains h₂
  refine ⟨contains_child hc₁.1 hc₁.2 b, contains_child hc₂.1 hc₂.2 b, fun ρ => ?_⟩
  have hvalue := h.value (Function.update ρ n₁.var b)
  rw [h₁.tabled.value_update hone hn₁, h.var_eq h₁ h₂ hone hn₁ hn₂, h₂.tabled.value_update hone₂ hn₂,
    h.negated_eq h₁ h₂] at hvalue
  simpa using hvalue

end Valid

end Coincide

/-- Quantifying over the same variables leads to the same function. -/
theorem Coincide.projects {r₁ r₂ : Edge} {V₁ V₂ : Nat → Prop} (h : Coincide m₁ e₁ m₂ e₂) (hr₁ : m₁.Projects V₁ e₁ r₁)
    (hr₂ : m₂.Projects V₂ e₂ r₂) (hV : ∀ v, V₁ v ↔ V₂ v) : Coincide m₁ r₁ m₂ r₂ := by
  refine ⟨hr₁.contains, hr₂.contains, fun ρ => ?_⟩
  rw [Bool.eq_iff_iff, hr₁.value, hr₂.value]
  exact exists_congr fun ρ' => by simp only [hV, h.value]

end Invariance.Diagram.Manager
