import Invariance.Diagram.Support
import Invariance.Proofs.Diagram.Nodes
import Invariance.Proofs.SortedMaps
import Std.Data.HashSet.Lemmas

/-!
What a function depends on. These are the variables decided at and below its edge, each of which makes a difference,
since no node is superfluous. The nodes collected are closed under children, which is why none is missed.
-/

namespace Invariance.Diagram.Manager

variable {m : Manager} {ρ : Nat → Bool} {e f low high : Edge} {n : Node} {i j v w : Nat}
variable {done done' : Std.HashSet Nat}

/-! ### Dependence -/

/-- Somewhere, the variable makes a difference to the function. -/
def DependsOn (m : Manager) (e : Edge) (v : Nat) : Prop :=
  ∃ ρ, m.value (Function.update ρ v false) e ≠ m.value (Function.update ρ v true) e

theorem value_update (h : ¬ m.DependsOn e v) (ρ : Nat → Bool) (b : Bool) :
    m.value (Function.update ρ v b) e = m.value ρ e := by
  have hsame : m.value (Function.update ρ v false) e = m.value (Function.update ρ v true) e := by
    by_contra hne
    exact h ⟨ρ, hne⟩
  have hall : ∀ c, m.value (Function.update ρ v b) e = m.value (Function.update ρ v c) e := by
    intro c
    cases b <;> cases c <;> simp only [hsame]
  rw [hall (ρ v), Function.update_eq_self]

theorem Grows.dependsOn {m' : Manager} (hm : m.Valid) (h : m.Grows m') (he : m.Contains e) :
    m'.DependsOn e v ↔ m.DependsOn e v :=
  exists_congr fun ρ => by rw [h.value hm he, h.value hm he]

/-- The function of a node, not negated. -/
abbrev DependsAt (m : Manager) (i v : Nat) : Prop :=
  m.DependsOn (.ofNode i false) v

theorem dependsOn_iff_dependsAt : m.DependsOn e v ↔ m.DependsAt e.index v := by
  refine exists_congr fun ρ => ?_
  simp only [value, Edge.index_ofNode, Edge.negated_ofNode, Bool.false_xor, ne_eq]
  cases e.negated <;> simp

theorem not_dependsAt_one (hm : m.Valid) : ¬ m.DependsAt 1 v := by
  rintro ⟨ρ, h⟩
  exact h (by rw [show Edge.ofNode 1 false = .one from rfl, hm.tabled.value_one, hm.tabled.value_one])

theorem DependsOn.lt_of_under (hm : m.Valid) (h : m.DependsOn e v) (he : m.Under w e) : w < v := by
  by_contra hle
  obtain ⟨ρ, hρ⟩ := h
  exact hρ (hm.tabled.value_congr he fun u hu => by
    rw [Function.update_of_ne (by omega), Function.update_of_ne (by omega)])

/-- What one of the two functions depends on makes a difference to the whole, where the decision is for it. -/
private theorem dependsOn_of_branch {b : Bool} (hm : m.Valid) (hf : m.Under v f)
    (hvalue : ∀ ρ : Nat → Bool, ρ v = b → m.value ρ e = m.value ρ f) (hw : m.DependsOn f w) : m.DependsOn e w := by
  have hlt := hw.lt_of_under hm hf
  obtain ⟨ρ, hρ⟩ := hw
  refine ⟨Function.update ρ v b, ?_⟩
  have hset : ∀ c, m.value (Function.update (Function.update ρ v b) w c) e = m.value (Function.update ρ w c) f := by
    intro c
    rw [hvalue _ (by rw [Function.update_of_ne (by omega), Function.update_self])]
    refine hm.tabled.value_congr hf fun u hu => ?_
    by_cases huw : u = w
    · rw [huw, Function.update_self, Function.update_self]
    · rw [Function.update_of_ne huw, Function.update_of_ne huw, Function.update_of_ne (by omega)]
  rwa [hset, hset]

section Decides

variable (hm : m.Valid) (h : m.Decides e v low high)

include hm h

theorem Decides.dependsOn_var : m.DependsOn e v :=
  h.exists_value_ne hm

theorem Decides.dependsOn_of_low (hw : m.DependsOn low w) : m.DependsOn e w :=
  dependsOn_of_branch (b := false) hm h.under.1 (fun ρ hρ => by simp [h.value, hρ]) hw

theorem Decides.dependsOn_of_high (hw : m.DependsOn high w) : m.DependsOn e w :=
  dependsOn_of_branch (b := true) hm h.under.2 (fun ρ hρ => by simp [h.value, hρ]) hw

omit hm in
theorem Decides.dependsOn_cases (hw : m.DependsOn e w) : w = v ∨ m.DependsOn low w ∨ m.DependsOn high w := by
  by_cases heq : w = v
  · exact .inl heq
  · obtain ⟨ρ, hρ⟩ := hw
    simp only [h.value, Function.update_of_ne (Ne.symm heq)] at hρ
    split at hρ
    · exact .inr (.inr ⟨ρ, hρ⟩)
    · exact .inr (.inl ⟨ρ, hρ⟩)

end Decides

/-- Only what a function depends on matters to it. -/
theorem value_eq_of_agree {ρ ρ' : Nat → Bool} (hm : m.Valid) (he : m.Contains e)
    (hρ : ∀ v, m.DependsOn e v → ρ v = ρ' v) : m.value ρ e = m.value ρ' e := by
  induction hk : e.index using Nat.strong_induction_on generalizing e with
  | _ k ih =>
      by_cases hone : e.index = 1
      · rcases Edge.eq_one_or_eq_zero hone with rfl | rfl <;> simp [hm.tabled.value_one, hm.tabled.value_zero]
      · obtain ⟨v, low, high, hdec, -⟩ := exists_decides hm he hone
        have hc := hdec.contains hm
        have hlow := ih _ (hk ▸ hdec.index.1) hc.1 (fun w hw => hρ w (hdec.dependsOn_of_low hm hw)) rfl
        have hhigh := ih _ (hk ▸ hdec.index.2) hc.2 (fun w hw => hρ w (hdec.dependsOn_of_high hm hw)) rfl
        rw [hdec.value, hdec.value, hρ v (hdec.dependsOn_var hm), hlow, hhigh]

/-! ### Collecting nodes -/

/-- With a node, its children are collected too. -/
def Closed (m : Manager) (done : Std.HashSet Nat) : Prop :=
  ∀ i n, i ∈ done → i ≠ 1 → m.node i = .ok n → n.low.index ∈ done ∧ n.high.index ∈ done

/-- The nodes collected lie at or below the node `i`: what they depend on, that node does. -/
structure Collected (m : Manager) (done : Std.HashSet Nat) (i : Nat) (done' : Std.HashSet Nat) : Prop where
  closed : m.Closed done'
  mono : ∀ j ∈ done, j ∈ done'
  mem : i ∈ done'
  below : ∀ j ∈ done', j ∈ done ∨ (0 < j ∧ j ≤ m.size) ∧ ∀ w, m.DependsAt j w → m.DependsAt i w

theorem closed_empty : m.Closed ∅ :=
  fun _ _ hi => absurd hi Std.HashSet.not_mem_empty

theorem Closed.insert (h : m.Closed done) (hi : i ≠ 1 → ∀ n, m.node i = .ok n → n.low.index ∈ done ∧ n.high.index ∈ done) :
    m.Closed (done.insert i) := by
  intro j n hj hone hn
  simp only [Std.HashSet.mem_insert, beq_iff_eq] at hj ⊢
  by_cases heq : i = j
  · subst heq
    exact (hi hone n hn).imp .inr .inr
  · exact (h j n (hj.resolve_left heq) hone hn).imp .inr .inr

/-- A node comes after its children. -/
private theorem Collected.insert {done₁ done₂ : Std.HashSet Nat} (h₁ : m.Collected done n.low.index done₁)
    (h₂ : m.Collected done₁ n.high.index done₂) (hi : 0 < i ∧ i ≤ m.size) (hn : m.node i = .ok n)
    (hlow : ∀ w, m.DependsAt n.low.index w → m.DependsAt i w)
    (hhigh : ∀ w, m.DependsAt n.high.index w → m.DependsAt i w) : m.Collected done i (done₂.insert i) where
  closed := h₂.closed.insert fun _ n' hn' => by
    cases hn.symm.trans hn'
    exact ⟨h₂.mono _ h₁.mem, h₂.mem⟩
  mono j hj := Std.HashSet.mem_insert.mpr (.inr (h₂.mono j (h₁.mono j hj)))
  mem := Std.HashSet.mem_insert_self
  below j hj := by
    rcases Std.HashSet.mem_insert.mp hj with heq | hj
    · cases beq_iff_eq.mp heq
      exact .inr ⟨hi, fun _ => id⟩
    · rcases h₂.below j hj with hj | ⟨hcon, hbelow⟩
      · rcases h₁.below j hj with hj | ⟨hcon, hbelow⟩
        · exact .inl hj
        · exact .inr ⟨hcon, fun w hw => hlow w (hbelow w hw)⟩
      · exact .inr ⟨hcon, fun w hw => hhigh w (hbelow w hw)⟩

theorem exists_collectWithin (hm : m.Valid) (k : Nat) (hi : 0 < i ∧ i ≤ m.size) (hk : i < k) (hclosed : m.Closed done) :
    ∃ done', m.collectWithin k done i = .ok done' ∧ m.Collected done i done' := by
  induction k generalizing i done with
  | zero => exact absurd hk (Nat.not_lt_zero _)
  | succ k ih =>
      rw [collectWithin, Edge.index_one]
      by_cases hmem : i ∈ done
      · rw [if_pos (Std.HashSet.contains_iff_mem.mpr hmem)]
        exact ⟨done, rfl, hclosed, fun _ => id, hmem, fun _ => .inl⟩
      · rw [if_neg (mt Std.HashSet.contains_iff_mem.mp hmem)]
        by_cases hone : i = 1
        · subst hone
          refine ⟨done.insert 1, rfl, hclosed.insert fun h => absurd rfl h, ?_, Std.HashSet.mem_insert_self, ?_⟩
          · exact fun j hj => Std.HashSet.mem_insert.mpr (.inr hj)
          · intro j hj
            rcases Std.HashSet.mem_insert.mp hj with heq | hj
            · cases beq_iff_eq.mp heq
              exact .inr ⟨hi, fun _ => id⟩
            · exact .inl hj
        · rw [if_neg hone]
          have hcon : m.Contains (.ofNode i false) := by simpa [Contains] using hi
          obtain ⟨v, low, high, hdec, n, hn, -, hl, hh⟩ := exists_decides hm hcon (by simpa using hone)
          have hc := hdec.contains hm
          have hlt := hdec.index
          rw [Edge.index_ofNode] at hn hlt
          rw [Contains, Contains, ← hl, ← hh] at hc
          obtain ⟨done₁, hrun₁, hdone₁⟩ := ih hc.1 (by omega) hclosed
          obtain ⟨done₂, hrun₂, hdone₂⟩ := ih hc.2 (by omega) hdone₁.closed
          refine ⟨done₂.insert i, ?_, ?_⟩
          · rw [hn]
            simp only [bind, Except.bind, hrun₁, hrun₂]
            rfl
          · refine hdone₁.insert hdone₂ hi hn (fun w hw => ?_) fun w hw => ?_
            · exact hdec.dependsOn_of_low hm (dependsOn_iff_dependsAt.mpr (hl ▸ hw))
            · exact hdec.dependsOn_of_high hm (dependsOn_iff_dependsAt.mpr (hh ▸ hw))

/-- In a closed set of nodes, all variables on which they depend are decided. -/
theorem Closed.exists_var (hm : m.Valid) (h : m.Closed done) (he : m.Contains e) (hmem : e.index ∈ done)
    (hw : m.DependsOn e w) : ∃ j n, j ∈ done ∧ j ≠ 1 ∧ m.node j = .ok n ∧ n.var = w := by
  induction hk : e.index using Nat.strong_induction_on generalizing e with
  | _ k ih =>
      by_cases hone : e.index = 1
      · rw [dependsOn_iff_dependsAt, hone] at hw
        exact absurd hw (not_dependsAt_one hm)
      · obtain ⟨v, low, high, hdec, n, hn, hv, hl, hh⟩ := exists_decides hm he hone
        have hc := hdec.contains hm
        have hchildren := h _ n hmem hone hn
        rcases hdec.dependsOn_cases hw with rfl | hlow | hhigh
        · exact ⟨_, n, hmem, hone, hn, hv⟩
        · exact ih _ (hk ▸ hdec.index.1) hc.1 (hl ▸ hchildren.1) hlow rfl
        · exact ih _ (hk ▸ hdec.index.2) hc.2 (hh ▸ hchildren.2) hhigh rfl

/-- Some node decides a variable on which a function depends. -/
theorem DependsOn.exists_node (hm : m.Valid) (he : m.Contains e) (h : m.DependsOn e w) :
    ∃ i n, m.node i = .ok n ∧ n.var = w := by
  obtain ⟨done, -, hdone⟩ := exists_collectWithin hm (e.index + 1) he (Nat.lt_succ_self _) closed_empty
  obtain ⟨i, n, -, -, hn, hv⟩ := hdone.closed.exists_var hm he hdone.mem h
  exact ⟨i, n, hn, hv⟩

/-! ### Support -/

private theorem exists_mapM {ε α β : Type} {f : α → Except ε β} {l : List α} (h : ∀ a ∈ l, ∃ b, f a = .ok b) :
    ∃ bs, l.mapM f = .ok bs ∧ ∀ b, b ∈ bs ↔ ∃ a ∈ l, f a = .ok b := by
  induction l with
  | nil => exact ⟨[], rfl, by simp⟩
  | cons a l ih =>
      obtain ⟨b, hb⟩ := h a List.mem_cons_self
      obtain ⟨bs, hbs, hmem⟩ := ih fun c hc => h c (List.mem_cons_of_mem _ hc)
      refine ⟨b :: bs, ?_, fun c => ?_⟩
      · rw [List.mapM_cons, hb, hbs]
        rfl
      · simp [hmem, hb, eq_comm]

/-- The variables decided by the nodes collected. -/
def varsOf (m : Manager) (done : Std.HashSet Nat) : Except Fault (SortedSet Nat) := do
  let inner := done.toList.filter (· ≠ Edge.one.index)
  let vars ← inner.mapM fun i => return (← m.node i).var
  return .ofList (Std.HashSet.ofList vars).toList

theorem support_eq : m.support e = m.reachable e >>= m.varsOf :=
  rfl

theorem exists_varsOf (h : ∀ i ∈ done, 0 < i ∧ i ≤ m.size) :
    ∃ vars, m.varsOf done = .ok vars ∧ ∀ w, w ∈ vars.elements ↔ ∃ i n, i ∈ done ∧ i ≠ 1 ∧ m.node i = .ok n ∧ n.var = w := by
  have hvar : ∀ i ∈ done.toList.filter (· ≠ Edge.one.index), ∃ n, m.node i = .ok n ∧ i ∈ done ∧ i ≠ 1 := by
    intro i hi
    rw [List.mem_filter, Std.HashSet.mem_toList, decide_eq_true_iff] at hi
    obtain ⟨n, hn⟩ := Contains.exists_node (m := m) (e := .ofNode i false) (by simpa [Contains] using h i hi.1)
    exact ⟨n, by simpa using hn, hi⟩
  obtain ⟨vars, hvars, hmem⟩ := exists_mapM (f := fun i => return (← m.node i).var) fun i hi => by
    obtain ⟨n, hn, -⟩ := hvar i hi
    exact ⟨n.var, by rw [hn]; rfl⟩
  refine ⟨.ofList (Std.HashSet.ofList vars).toList, ?_, fun w => ?_⟩
  · rw [varsOf]
    simp only [bind, Except.bind] at hvars ⊢
    rw [hvars]
    rfl
  · rw [SortedSet.mem_elements_ofList, Std.HashSet.mem_toList, Std.HashSet.mem_ofList, List.contains_iff_mem, hmem]
    constructor
    · rintro ⟨i, hi, hw⟩
      obtain ⟨n, hn, hi, hone⟩ := hvar i hi
      rw [hn] at hw
      cases hw
      exact ⟨i, n, hi, hone, hn, rfl⟩
    · rintro ⟨i, n, hi, hone, hn, rfl⟩
      refine ⟨i, ?_, by rw [hn]; rfl⟩
      rw [List.mem_filter, Std.HashSet.mem_toList, decide_eq_true_iff]
      exact ⟨hi, hone⟩

/-- The support of a function is what it depends on. -/
theorem exists_support (hm : m.Valid) (he : m.Contains e) :
    ∃ vars, m.support e = .ok vars ∧ ∀ w, w ∈ vars.elements ↔ m.DependsOn e w := by
  obtain ⟨done, hrun, hdone⟩ := exists_collectWithin hm (e.index + 1) he (Nat.lt_succ_self _) closed_empty
  have hbelow : ∀ i ∈ done, (0 < i ∧ i ≤ m.size) ∧ ∀ w, m.DependsAt i w → m.DependsAt e.index w :=
    fun i hi => (hdone.below i hi).resolve_left Std.HashSet.not_mem_empty
  obtain ⟨vars, hvars, hmem⟩ := exists_varsOf fun i hi => (hbelow i hi).1
  refine ⟨vars, ?_, fun w => (hmem w).trans ⟨?_, fun hw => hdone.closed.exists_var hm he hdone.mem hw⟩⟩
  · rw [support_eq, reachable, hrun]
    exact hvars
  · rintro ⟨i, n, hi, hone, hn, rfl⟩
    exact dependsOn_iff_dependsAt.mpr ((hbelow i hi).2 _ ((decides_of_node hm hn hone).dependsOn_var hm))

end Invariance.Diagram.Manager
