import Invariance.Diagram.Quantifier
import Invariance.Proofs.Diagram.Choice
import Invariance.Proofs.Diagram.Support

/-!
Quantification. The outcome is true where a change of the given variables makes the function true; it is found node
by node, and what is true of each half of a decision is joined, or decided upon.
-/

namespace Invariance.Diagram

open Manager

variable {m m' : Manager} {ρ ρ' : Nat → Bool} {e r f low high : Edge} {v d : Nat} {V : Nat → Prop}

namespace Manager

/-- Some change of the variables in `V` makes the function true. -/
def Possible (m : Manager) (V : Nat → Prop) (ρ : Nat → Bool) (e : Edge) : Prop :=
  ∃ ρ' : Nat → Bool, (∀ w, ¬ V w → ρ' w = ρ w) ∧ m.value ρ' e = true

/-- The edge `r` is the outcome of quantifying over `V` in `e`. -/
structure Projects (m : Manager) (V : Nat → Prop) (e r : Edge) : Prop where
  source : m.Contains e
  contains : m.Contains r
  value : ∀ ρ, m.value ρ r = true ↔ m.Possible V ρ e

theorem Grows.possible (hm : m.Valid) (h : m.Grows m') (he : m.Contains e) :
    m'.Possible V ρ e ↔ m.Possible V ρ e :=
  exists_congr fun ρ' => and_congr_right fun _ => by rw [h.value hm he]

theorem Projects.grows (hm : m.Valid) (h : m.Projects V e r) (hg : m.Grows m') : m'.Projects V e r := by
  refine ⟨hg.contains h.source, hg.contains h.contains, fun ρ => ?_⟩
  rw [hg.value hm h.contains, h.value, hg.possible hm h.source]

/-- The outcome may be found in a larger manager. -/
theorem Grows.projects {a : (Nat → Bool) → Bool} (hm : m.Valid) (h : m.Grows m') (he : m.Contains e)
    (hr : m'.Denotes r a) (ha : ∀ ρ, a ρ = true ↔ m.Possible V ρ e) : m'.Projects V e r :=
  ⟨h.contains he, hr.contains, fun ρ => by rw [hr.value, ha, h.possible hm he]⟩

/-- Nothing changes where the function does not depend on the variables in `V`. -/
theorem projects_of_independent (hm : m.Valid) (he : m.Contains e) (hV : ∀ w, V w → ¬ m.DependsOn e w) :
    m.Projects V e e := by
  refine ⟨he, he, fun ρ => ⟨fun h => ⟨ρ, fun _ _ => rfl, h⟩, ?_⟩⟩
  rintro ⟨ρ', hρ', hvalue⟩
  rw [← hvalue]
  exact value_eq_of_agree hm he fun w hw => (hρ' w fun h => hV w h hw).symm

theorem projects_self (hm : m.Valid) (he : m.Under d e) (hV : ∀ w, V w → w ≤ d) : m.Projects V e e :=
  projects_of_independent hm (hm.tabled.contains_of_under he) fun w hw hdep =>
    absurd (hdep.lt_of_under hm he) (Nat.not_lt.mpr (hV w hw))

/-- There is one outcome. -/
theorem Projects.eq (hm : m.Valid) (h : m.Projects V e r) (h' : m.Projects V e f) : r = f :=
  hm.tabled.eq_of_value_eq h.contains h'.contains fun ρ => by rw [Bool.eq_iff_iff, h.value, h'.value]

/-- What is possible in a function of variables below `v` does not depend on the variables up to `v`. -/
theorem possible_congr (hm : m.Valid) (he : m.Under v e) (hρ : ∀ w, v < w → ρ w = ρ' w) :
    m.Possible V ρ e → m.Possible V ρ' e := by
  rintro ⟨τ, hτ, hvalue⟩
  refine ⟨fun w => if w ≤ v then ρ' w else τ w, fun w hw => ?_, ?_⟩
  · by_cases hle : w ≤ v
    · exact if_pos hle
    · refine (if_neg hle).trans ?_
      rw [hτ w hw, hρ w (by omega)]
  · rw [← hvalue]
    exact hm.tabled.value_congr he fun w hw => if_neg (by omega)

theorem Projects.under (hm : m.Valid) (h : m.Projects V e r) (he : m.Under v e) : m.Under v r :=
  hm.tabled.under_of_independent h.contains fun ρ ρ' hρ => by
    rw [Bool.eq_iff_iff, h.value, h.value]
    exact ⟨possible_congr hm he hρ, possible_congr hm he fun w hw => (hρ w hw).symm⟩

/-- The outcome depends on what the function depends on, but for what was quantified. -/
theorem Projects.dependsOn (h : m.Projects V e r) (hr : m.DependsOn r v) : ¬ V v ∧ m.DependsOn e v := by
  obtain ⟨ρ, hρ⟩ := hr
  have hne : ¬ (m.Possible V (Function.update ρ v false) e ↔ m.Possible V (Function.update ρ v true) e) := by
    rwa [← h.value, ← h.value, ← Bool.eq_iff_iff]
  constructor
  · intro hv
    refine hne (exists_congr fun τ => and_congr_left fun _ => forall₂_congr fun w hw => ?_)
    have hwv : w ≠ v := by
      rintro rfl
      exact hw hv
    rw [Function.update_of_ne hwv, Function.update_of_ne hwv]
  · by_contra hnot
    -- a witness for one truth value of the variable is one for the other, after the same change
    have htransfer : ∀ b c, m.Possible V (Function.update ρ v b) e → m.Possible V (Function.update ρ v c) e := by
      rintro b c ⟨τ, hτ, hvalue⟩
      refine ⟨Function.update τ v c, fun w hw => ?_, ?_⟩
      · by_cases hwv : w = v
        · rw [hwv, Function.update_self, Function.update_self]
        · rw [Function.update_of_ne hwv, Function.update_of_ne hwv, hτ w hw, Function.update_of_ne hwv]
      · rw [value_update hnot, hvalue]
    exact hne ⟨htransfer _ _, htransfer _ _⟩

/-- A variable in `V` may be chosen either way. -/
theorem Decides.possible_of_mem (hm : m.Valid) (h : m.Decides e v low high) (hv : V v) :
    m.Possible V ρ e ↔ m.Possible V ρ low ∨ m.Possible V ρ high := by
  constructor
  · rintro ⟨τ, hτ, hvalue⟩
    rw [h.value] at hvalue
    split at hvalue
    · exact .inr ⟨τ, hτ, hvalue⟩
    · exact .inl ⟨τ, hτ, hvalue⟩
  · have hset : ∀ b f, m.Under v f → m.Possible V ρ f → (∀ τ, τ v = b → m.value τ e = m.value τ f) →
        m.Possible V ρ e := by
      rintro b f hf ⟨τ, hτ, hvalue⟩ hb
      refine ⟨Function.update τ v b, fun w hw => ?_, ?_⟩
      · rw [Function.update_of_ne (by rintro rfl; exact hw hv), hτ w hw]
      · rw [hb _ (Function.update_self v b τ), ← hvalue]
        exact hm.tabled.value_congr hf fun w hw => Function.update_of_ne (by omega) _ _
    rintro (hlow | hhigh)
    · exact hset false low h.under.1 hlow fun τ hτ => by simp [h.value, hτ]
    · exact hset true high h.under.2 hhigh fun τ hτ => by simp [h.value, hτ]

theorem Decides.possible_of_not_mem (h : m.Decides e v low high) (hv : ¬ V v) :
    m.Possible V ρ e ↔ if ρ v then m.Possible V ρ high else m.Possible V ρ low := by
  have hsame : ∀ τ : Nat → Bool, (∀ w, ¬ V w → τ w = ρ w) → m.value τ e = if ρ v then m.value τ high else m.value τ low :=
    fun τ hτ => by rw [h.value, hτ v hv]
  cases hρ : ρ v with
  | true =>
      simp only [if_true]
      exact exists_congr fun τ => and_congr_right fun hτ => by simp [hsame τ hτ, hρ]
  | false =>
      simp only [Bool.false_eq_true, if_false]
      exact exists_congr fun τ => and_congr_right fun hτ => by simp [hsame τ hτ, hρ]

end Manager

namespace Build

/-- The outcomes found so far. -/
def Found (m : Manager) (V : Nat → Prop) (done : Std.TreeMap Edge Edge) : Prop :=
  ∀ e r, done[e]? = some r → m.Projects V e r

variable {vars : SortedSet Nat} {done : Std.TreeMap Edge Edge}

theorem Found.grows (hm : m.Valid) (h : Found m V done) (hg : m.Grows m') : Found m' V done :=
  fun e r hr => (h e r hr).grows hm hg

theorem Found.insert (h : Found m V done) (hr : m.Projects V e r) : Found m V (done.insert e r) :=
  forall_getElem?_insert h hr

/-- What is possible with either value of the variable is joined, or decided upon where the variable stays. -/
private theorem meets_join {α : Type} {g : Edge → Build α} {Q : α → Manager → Prop} {rl rh : Edge} (hm : m.Valid)
    (hdec : m.Decides e v low high) (hl : m.Projects (· ∈ vars.elements) low rl)
    (hh : m.Projects (· ∈ vars.elements) high rh)
    (hg : ∀ r m', m.Grows m' → m'.Projects (· ∈ vars.elements) e r → Meets (g r) m' Q fun _ _ => False) :
    Meets (if vars.contains v then or rl rh >>= g else mkNode v rl rh >>= g) m Q fun _ _ => False := by
  have he : m.Contains e := hm.tabled.contains_of_under hdec.root
  by_cases hv : v ∈ vars.elements
  · rw [if_pos (SortedSet.contains_iff.mpr hv)]
    refine (meets_or hm hl.contains.denotes hh.contains.denotes).bind fun r m' hr => ?_
    refine hg r m' hr.1 (hr.1.projects hm he hr.2 fun ρ => ?_)
    rw [Bool.or_eq_true, hl.value, hh.value, hdec.possible_of_mem hm hv]
  · rw [if_neg (mt SortedSet.contains_iff.mp hv)]
    refine (meets_mkNode hm hdec.pos (hl.under hm hdec.under.1) (hh.under hm hdec.under.2)).bind fun r m' hr => ?_
    refine hg r m' hr.1 (hr.1.projects hm he hr.2 fun ρ => ?_)
    rw [hdec.possible_of_not_mem hv]
    cases ρ v with
    | true => exact hh.value ρ
    | false => exact hl.value ρ

theorem meets_existsWithin (k : Nat) (hm : m.Valid) (he : m.Contains e) (hk : e.index < k)
    (hdone : Found m (· ∈ vars.elements) done) (hvars : ∀ w ∈ vars.elements, w ≤ d) :
    Meets (existsWithin vars d k done e) m
      (fun o m' => m.Grows m' ∧ m'.Projects (· ∈ vars.elements) e o.1 ∧ Found m' (· ∈ vars.elements) o.2)
      fun _ _ => False := by
  induction k generalizing m e done with
  | zero => exact absurd hk (Nat.not_lt_zero _)
  | succ k ih =>
      rw [existsWithin]
      by_cases hone : e.index = 1
      · rw [if_pos (Edge.isConst_iff.mpr hone)]
        exact ⟨hm.grows, projects_self hm (.inl hone) hvars, hdone⟩
      · obtain ⟨v, low, high, hdec, -⟩ := exists_decides hm he hone
        have hc := hdec.contains hm
        rw [if_neg (mt Edge.isConst_iff.mp hone)]
        simp only [meets_bind]
        rw [meets_ask hdec.var_eq]
        by_cases hdeep : d < v
        · rw [if_pos hdeep]
          exact ⟨hm.grows, projects_self hm hdec.root fun w hw => by have := hvars w hw; omega, hdone⟩
        · rw [if_neg hdeep]
          cases hfound : done[e]? with
          | some r => exact ⟨hm.grows, hdone e r hfound, hdone⟩
          | none =>
              simp only [meets_bind]
              rw [meets_ask hdec.low_eq]
              refine (ih hm hc.1 (by have := hdec.index.1; omega) hdone).imp ?_
              rintro ⟨rl, done₁⟩ m₁ ⟨hg₁, hrl, hdone₁⟩
              rw [meets_ask (hg₁.keeps.high_eq hdec.high_eq)]
              refine (ih hg₁.valid (hg₁.contains hc.2) (by have := hdec.index.2; omega) hdone₁).imp ?_
              rintro ⟨rh, done₂⟩ m₂ ⟨hg₂, hrh, hdone₂⟩
              have hg := hg₁.trans hg₂
              refine meets_join hg₂.valid (hdec.grows hm hg) (hrl.grows hg₁.valid hg₂) hrh fun r m₃ hg₃ hr => ?_
              exact ⟨hg.trans hg₃, hr, (hdone₂.grows hg₂.valid hg₃).insert hr⟩

/-- Quantification over some variables. -/
theorem meets_project (hm : m.Valid) (he : m.Contains e) :
    Meets (project e vars) m (fun r m' => m.Grows m' ∧ m'.Projects (· ∈ vars.elements) e r) fun _ _ => False := by
  rw [project]
  cases hlast : vars.elements.getLast? with
  | none =>
      rw [List.getLast?_eq_none_iff] at hlast
      rw [hlast]
      exact ⟨hm.grows, projects_self hm (hm.tabled.under_zero_of_contains he) fun w hw => by simp at hw⟩
  | some deepest =>
      simp only [meets_bind]
      refine (meets_existsWithin _ hm he (Nat.lt_succ_self _) ?_ fun w hw => SortedSet.le_of_getLast? hlast hw).imp ?_
      · intro k r hk
        simp at hk
      · rintro ⟨r, done⟩ m₁ ⟨hg, hr, -⟩
        exact ⟨hg, hr⟩

/-- Quantification is exact: the outcome is true where some change of the given variables makes the function true, and
it depends on nothing else than the function did. A function that none of the variables matters to is its own
outcome. -/
theorem exists_run_project (hm : m.Valid) (he : m.Contains e) (vars : SortedSet Nat) :
    ∃ r m', (project e vars).run.run m = (.ok r, m') ∧ m.Grows m' ∧ m'.Contains r ∧
      (∀ ρ, m'.value ρ r = true ↔
        ∃ ρ' : Nat → Bool, (∀ v, v ∉ vars.elements → ρ' v = ρ v) ∧ m.value ρ' e = true) ∧
      ∃ before after, m.support e = .ok before ∧ m'.support r = .ok after ∧
        (∀ v ∈ after.elements, v ∉ vars.elements ∧ v ∈ before.elements) ∧
        ((∀ v ∈ vars.elements, v ∉ before.elements) → r = e) := by
  obtain ⟨r, m', hrun, hg, hr⟩ := Meets.exists_ok (x := project e vars) (meets_project hm he)
  obtain ⟨before, hbefore, hmem⟩ := exists_support hm he
  obtain ⟨after, hafter, hmem'⟩ := exists_support hg.valid hr.contains
  refine ⟨r, m', hrun, hg, hr.contains, fun ρ => ?_, before, after, hbefore, hafter, fun v hv => ?_, fun hnone => ?_⟩
  · rw [hr.value, hg.possible hm he]
    rfl
  · obtain ⟨hvars, hdep⟩ := hr.dependsOn ((hmem' v).mp hv)
    exact ⟨hvars, (hmem v).mpr ((hg.dependsOn hm he).mp hdep)⟩
  · refine hr.eq hg.valid (projects_of_independent hg.valid hr.source fun v hv hdep => ?_)
    exact hnone v hv ((hmem v).mpr ((hg.dependsOn hm he).mp hdep))

/-- Of the conjunction of two variables, the first one is left when the second one is quantified. -/
theorem exists_run_project_conjunction : ∃ m₀ m e r m', Manager.ofBits 3 = .ok m₀ ∧
    (do and (← mkVar 1) (← mkVar 2) : Build Edge).run.run m₀ = (.ok e, m) ∧
    (project e (.ofList [2])).run.run m = (.ok r, m') ∧ ∀ ρ, m'.value ρ r = ρ 1 := by
  have hm₀ : Manager.ofBits 3 = .ok _ := rfl
  have hmade := meets_ofVars (Manager.valid_ofBits hm₀) Nat.one_pos Nat.two_pos fun m x y hg hx hy =>
    (meets_and hg.valid hx hy).imp fun e m' he => And.intro he.1.valid he.2
  obtain ⟨e, m, hrun, hm, he⟩ := hmade.exists_ok
  obtain ⟨r, m', hproject, -, -, hvalue, -⟩ := exists_run_project hm he.contains (.ofList [2])
  refine ⟨_, m, e, r, m', hm₀, hrun, hproject, fun ρ => ?_⟩
  have hvars : ∀ v, v ∈ (SortedSet.ofList [2]).elements ↔ v = 2 := by simp [SortedSet.mem_elements_ofList]
  rw [Bool.eq_iff_iff, hvalue]
  constructor
  · rintro ⟨ρ', hρ', htrue⟩
    rw [he.value, Bool.and_eq_true, hρ' 1 (by rw [hvars]; decide)] at htrue
    exact htrue.1
  · intro htrue
    refine ⟨Function.update ρ 2 true, fun v hv => Function.update_of_ne (mt (hvars v).mpr hv) _ _, ?_⟩
    rw [he.value, Function.update_self, Function.update_of_ne (by decide), htrue]
    rfl

end Build

end Invariance.Diagram
