import Invariance.Proofs.Formula.Predicates
import Invariance.Proofs.Formula.Rebuilding

/-!
Unfolding keeps kinds. Whatever a formula is made of, what it unfolds to is over symbols and has the same kinds, so
that a solver refuses an unfolded formula exactly if the formula is not of the kind of truth values.
-/

namespace Invariance.Formula

variable {e f : Formula} {k : Kind} {c : Clock} {n : Nat}

/-! ### Kinds and children -/

theorem SameHead.symm (h : e.SameHead f) : f.SameHead e := by
  cases h <;> constructor

theorem forall_mem_of_forall₂ {α β : Type} {R : α → β → Prop} {P : α → Prop} {Q : β → Prop} {l : List α} {m : List β}
    (h : List.Forall₂ R l m) (hR : ∀ a b, R a b → P a → Q b) (hl : ∀ a ∈ l, P a) : ∀ b ∈ m, Q b := by
  induction h with
  | nil => simp
  | @cons a b l m hab _ ih =>
      rw [List.forall_mem_cons] at hl ⊢
      exact ⟨hR a b hab hl.1, ih hl.2⟩

/-- A formula whose operands have all kinds that those of another one have has its kind too. -/
theorem HasKind.of_children (hk : e.HasKind k) (hhead : e.SameHead f)
    (h : List.Forall₂ (fun a b => ∀ k, a.HasKind k → b.HasKind k) e.children f.children) : f.HasKind k := by
  cases hk with
  | bool | int | var | sym =>
      cases hhead
      constructor
  | and hall =>
      cases hhead
      exact .and (forall_mem_of_forall₂ h (fun _ _ hab => hab .bool) hall)
  | or hall =>
      cases hhead
      exact .or (forall_mem_of_forall₂ h (fun _ _ hab => hab .bool) hall)
  | prime ha | not ha | neg ha =>
      cases hhead
      obtain _ | ⟨h₁, -⟩ := h
      constructor
      exact h₁ _ ha
  | bit ha hi =>
      cases hhead
      obtain _ | ⟨h₁, -⟩ := h
      exact .bit (h₁ _ ha) hi
  | imply ha hb | add ha hb | sub ha hb | lt ha hb | le ha hb =>
      cases hhead
      obtain _ | ⟨h₁, _ | ⟨h₂, -⟩⟩ := h
      constructor
      · exact h₁ _ ha
      · exact h₂ _ hb
  | eqBool ha hb =>
      cases hhead
      obtain _ | ⟨h₁, _ | ⟨h₂, -⟩⟩ := h
      exact .eqBool (h₁ _ ha) (h₂ _ hb)
  | eqInt ha hb =>
      cases hhead
      obtain _ | ⟨h₁, _ | ⟨h₂, -⟩⟩ := h
      exact .eqInt (h₁ _ ha) (h₂ _ hb)
  | iteBool hc ha hb =>
      cases hhead
      obtain _ | ⟨h₁, _ | ⟨h₂, _ | ⟨h₃, -⟩⟩⟩ := h
      exact .iteBool (h₁ _ hc) (h₂ _ ha) (h₃ _ hb)
  | iteInt hc ha hb =>
      cases hhead
      obtain _ | ⟨h₁, _ | ⟨h₂, _ | ⟨h₃, -⟩⟩⟩ := h
      exact .iteInt (h₁ _ hc) (h₂ _ ha) (h₃ _ hb)

theorem sameHead_mapChildren (F : Formula → Formula) : e.SameHead (e.mapChildren F) := by
  cases e <;> constructor

/-- The kinds of a formula are settled by those of its children. -/
theorem hasKind_mapChildren {F : Formula → Formula} (h : ∀ d ∈ e.children, ∀ k, (F d).HasKind k ↔ d.HasKind k) :
    (e.mapChildren F).HasKind k ↔ e.HasKind k := by
  constructor
  · intro hk
    refine hk.of_children (sameHead_mapChildren F).symm ?_
    rw [children_mapChildren, List.forall₂_map_left_iff, List.forall₂_same]
    exact fun d hd k => (h d hd k).mp
  · intro hk
    refine hk.of_children (sameHead_mapChildren F) ?_
    rw [children_mapChildren, List.forall₂_map_right_iff, List.forall₂_same]
    exact fun d hd k => (h d hd k).mpr

/-! ### Unfolding -/

/-- An operator is unfolded child by child. -/
theorem exists_mapChildren_of_unfoldFrom (hop : e.isOperator) (h : unfoldFrom c n e = .ok f) :
    ∃ F, f = e.mapChildren F ∧ ∀ d ∈ e.children, unfoldFrom c n d = .ok (F d) := by
  rw [unfoldFrom_operator hop] at h
  have hchild : ∀ d, ∃ g, d ∈ e.children → unfoldFrom c n d = .ok g := by
    intro d
    by_cases hd : d ∈ e.children
    · exact (exists_of_mapChildrenM_eq_ok h d hd).imp fun _ hg _ => hg
    · exact ⟨d, fun hmem => absurd hmem hd⟩
  choose F hF using hchild
  rw [mapChildrenM_eq_ok hF] at h
  exact ⟨F, (Except.ok.inj h).symm, hF⟩

theorem timed_of_unfoldFrom (h : unfoldFrom c n e = .ok f) : f.Timed := by
  induction e using inductTimes generalizing n f with
  | var x =>
      obtain ⟨m, -, h⟩ := bind_eq_ok.mp h
      cases h
      constructor <;> simp [subformulas, PrimeFree]
  | prime e ih => exact ih h
  | sym s =>
      cases h
      constructor <;> simp [subformulas, PrimeFree]
  | operator e hop ih =>
      obtain ⟨F, rfl, hF⟩ := exists_mapChildren_of_unfoldFrom hop h
      apply timed_of_children (isOperator_mapChildren hop)
      rw [children_mapChildren, List.forall_mem_map]
      exact fun d hd => ih d hd (hF d hd)

theorem hasKind_of_unfoldFrom (h : unfoldFrom c n e = .ok f) : f.HasKind k ↔ e.HasKind k := by
  induction e using inductTimes generalizing n f k with
  | var x =>
      obtain ⟨m, -, h⟩ := bind_eq_ok.mp h
      cases h
      constructor
      · rintro ⟨⟩
        exact .var x
      · rintro ⟨⟩
        exact .sym ⟨x, m⟩
  | prime e ih =>
      rw [ih h]
      constructor
      · exact .prime
      · intro hk
        cases hk with
        | prime hk => exact hk
  | sym s =>
      cases h
      rfl
  | operator e hop ih =>
      obtain ⟨F, rfl, hF⟩ := exists_mapChildren_of_unfoldFrom hop h
      exact hasKind_mapChildren fun d hd _ => ih d hd (hF d hd)

/-! ### What a solver accepts -/

theorem hasKind_mkNot : e.mkNot.HasKind .bool ↔ e.HasKind .bool := by
  constructor
  · intro h
    cases e with
    | bool b => exact .bool b
    | not e => exact .not h
    | _ =>
        cases h with
        | not h => exact h
  · exact HasKind.mkNot

theorem predicate_iff (h : e.Timed) : (e.Predicate fun _ => True) ↔ e.HasKind .bool :=
  ⟨fun hp => hp.bool, fun hk => ⟨hk, h, fun _ _ => trivial⟩⟩

/-- An unfolded formula is a predicate exactly if the formula is of the kind of truth values. -/
theorem predicate_of_unfold (h : e.unfold c = .ok f) : (f.Predicate fun _ => True) ↔ e.HasKind .bool :=
  (predicate_iff (timed_of_unfoldFrom h)).trans (hasKind_of_unfoldFrom h)

theorem predicate_mkNot_of_unfold (h : e.unfold c = .ok f) : (f.mkNot.Predicate fun _ => True) ↔ e.HasKind .bool := by
  constructor
  · exact fun hp => (hasKind_of_unfoldFrom h).mp (hasKind_mkNot.mp hp.bool)
  · exact fun hk => ((predicate_of_unfold h).mpr hk).mkNot

end Invariance.Formula
