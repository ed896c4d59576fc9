import Invariance.Proofs.Diagram.Splits

/-!
The choice between two functions by a third. Its standard form has the same value but for a negation, and its two
halves below the topmost variable are smaller choices, whose outcomes a new node joins. The connectives are instances.
-/

namespace Invariance.Diagram

open Manager Slots

variable {m m' : Manager} {ρ : Nat → Bool} {c : Choice} {e f g h r : Edge} {n : Node} {u v : Nat}

/-! ### Standard forms -/

namespace Choice

/-- The truth value of what a form settles, or leaves to be split. -/
def Form.value (m : Manager) (ρ : Nat → Bool) : Form → Bool
  | .settled e => m.value ρ e
  | .split flip d => flip ^^ m.choiceValue ρ d

theorem value_standard (hc : m.Includes c) : c.standard.value m ρ = m.choiceValue ρ c := by
  have hnegate : ∀ {d : Choice}, m.Includes d →
      Form.value m ρ (if d.yes.negated then .split true ⟨d.test, d.yes.not, d.no.not⟩ else .split false d) =
        m.choiceValue ρ d := by
    intro d hd
    split
    · simp only [Form.value, choiceValue, value_not hd.yes, value_not hd.no]
      split <;> simp
    · simp [Form.value]
  unfold standard
  split
  · -- the test is negated, so that the outcomes trade places
    refine (hnegate ⟨contains_not.mpr hc.test, hc.no, hc.yes⟩).trans ?_
    simp only [choiceValue, value_not hc.test]
    cases m.value ρ c.test <;> rfl
  · exact hnegate hc

/-- An outcome may be replaced by a constant if it is the test or its complement. -/
private theorem value_outcome {test x y : Edge} {b : Bool} (htest : m.Contains test) (hx : m.value ρ x = b)
    (hy : m.value ρ y = !b) (hb : m.value ρ test = b) :
    m.value ρ (if e = test then x else if e = test.not then y else e) = m.value ρ e := by
  split
  · next h => rw [hx, h, hb]
  · split
    · next h => rw [hy, h, value_not htest, hb]
    · rfl

theorem value_specialize (hm : m.Valid) (hc : m.Includes c) :
    m.choiceValue ρ c.specialize = m.choiceValue ρ c := by
  have hone : m.value ρ .one = true := hm.tabled.value_one
  have hzero : m.value ρ .zero = false := hm.tabled.value_zero
  change (if m.value ρ c.test = true then m.value ρ c.specialize.yes else m.value ρ c.specialize.no) = _
  unfold choiceValue
  cases htest : m.value ρ c.test with
  | true => exact value_outcome hc.test hone hzero htest
  | false => exact value_outcome hc.test hzero hone htest

theorem value_reduce (hm : m.Valid) (hc : m.Includes c) : c.reduce.value m ρ = m.choiceValue ρ c := by
  have hs := (includes_specialize hm.tabled.contains_one hc).1
  have hvalue : m.choiceValue ρ c.specialize = m.choiceValue ρ c := value_specialize hm hc
  have hone : m.value ρ .one = true := hm.tabled.value_one
  have hzero : m.value ρ .zero = false := hm.tabled.value_zero
  unfold reduce
  split
  · next h => simp [Form.value, choiceValue, h, hone]
  · split
    · next h => simp [Form.value, choiceValue, h, hzero]
    · rw [← hvalue]
      dsimp only
      generalize c.specialize = d at hs
      split
      · next h => simp [Form.value, choiceValue, h]
      · split
        · next h => simp [Form.value, choiceValue, h.1, h.2, hone, hzero]
        · split
          · next h =>
              rw [Form.value, value_not hs.test]
              simp only [choiceValue, h.1, h.2, hone, hzero]
              cases m.value ρ d.test <;> rfl
          · exact value_standard hs

end Choice

/-! ### Halves of a choice -/

namespace Manager

/-- The two functions that a variable at the top decides between. -/
theorem Valid.cofactors (hm : m.Valid) (he : m.Under u e) (hsplit : m.cofactors (u + 1) e = .ok (f, g)) :
    (m.Under (u + 1) f ∧ m.Under (u + 1) g) ∧
      ∀ ρ, m.value ρ e = if ρ (u + 1) then m.value ρ g else m.value ρ f := by
  unfold Manager.cofactors at hsplit
  by_cases hone : e.index = 1
  · rw [if_pos (Edge.isConst_iff.mpr hone)] at hsplit
    cases hsplit
    exact ⟨⟨.inl hone, .inl hone⟩, fun ρ => by split <;> rfl⟩
  · obtain ⟨n, hn, hlt⟩ := he.resolve_left hone
    have hp := hm.tabled.proper _ n (by have := (contains_of_node hn).1; omega) hn
    rw [if_neg (mt Edge.isConst_iff.mp hone), hn] at hsplit
    change (if n.var = u + 1 then Except.ok (n.low.flipIf e.negated, n.high.flipIf e.negated) else .ok (e, e)) = _
      at hsplit
    by_cases hvar : n.var = u + 1
    · rw [if_pos hvar] at hsplit
      cases hsplit
      refine ⟨⟨under_flipIf.mpr (hvar ▸ hp.low.1), under_flipIf.mpr (hvar ▸ hp.high.1)⟩, fun ρ => ?_⟩
      rw [hm.tabled.value_of_node hone hn, value_flipIf (hm.tabled.contains_of_under hp.low.1),
        value_flipIf (hm.tabled.contains_of_under hp.high.1), hvar]
      split <;> rfl
    · rw [if_neg hvar] at hsplit
      cases hsplit
      have hunder : m.Under (u + 1) e := .inr ⟨n, hn, by omega⟩
      exact ⟨⟨hunder, hunder⟩, fun ρ => by split <;> rfl⟩

/-- The halves of a choice do not depend on the variable that splits it, nor on smaller ones. -/
theorem Splits.choiceValue_congr {c₀ c₁ d : Choice} {ρ' : Nat → Bool} (h : m.Splits c u c₀ c₁) (hm : m.Valid)
    (hd : d = c₀ ∨ d = c₁) (hρ : ∀ w, u + 1 < w → ρ w = ρ' w) : m.choiceValue ρ d = m.choiceValue ρ' d := by
  have hcongr : ∀ {e}, m.Under (u + 1) e → m.value ρ e = m.value ρ' e := fun he => hm.tabled.value_congr he hρ
  have hf := (hm.cofactors h.under.1 h.cofactors_eq.1).1
  have hg := (hm.cofactors h.under.2.1 h.cofactors_eq.2.1).1
  have hh := (hm.cofactors h.under.2.2 h.cofactors_eq.2.2).1
  rcases hd with rfl | rfl
  · simp only [choiceValue, hcongr hf.1, hcongr hg.1, hcongr hh.1]
  · simp only [choiceValue, hcongr hf.2, hcongr hg.2, hcongr hh.2]

theorem Splits.choiceValue_eq {c₀ c₁ : Choice} (h : m.Splits c u c₀ c₁) (hm : m.Valid) :
    m.choiceValue ρ c = if ρ (u + 1) then m.choiceValue ρ c₁ else m.choiceValue ρ c₀ := by
  simp only [choiceValue, (hm.cofactors h.under.1 h.cofactors_eq.1).2, (hm.cofactors h.under.2.1 h.cofactors_eq.2.1).2,
    (hm.cofactors h.under.2.2 h.cofactors_eq.2.2).2]
  cases ρ (u + 1) <;> rfl

end Manager

/-! ### The memo -/

namespace Build

variable {t : Interning Node} {x y : Memo Choice Edge}

/-- Validity is a matter of the table and of what the memo holds. -/
private theorem valid_of_slots (hm : Valid ⟨t, x⟩)
    (hslots : ∀ c r, .taken c r ∈ y.slots → .taken c r ∈ x.slots ∨
      Includes ⟨t, x⟩ c ∧ Denotes ⟨t, x⟩ r fun ρ => choiceValue ⟨t, x⟩ ρ c) : Grows ⟨t, x⟩ ⟨t, y⟩ := by
  have hkeeps : Keeps ⟨t, x⟩ ⟨t, y⟩ := fun _ _ => id
  obtain ⟨ht, hc⟩ := hm
  have ht' : Tabled ⟨t, y⟩ := ⟨ht.linked, ht.terminal, ht.findable, fun i n hi hn => hkeeps.proper (ht.proper i n hi hn),
    ht.unique⟩
  refine ⟨⟨ht', fun c r hmem => ?_⟩, hkeeps⟩
  obtain ⟨hin, hr⟩ := (hslots c r hmem).elim (hc c r) id
  have hvalue : ∀ {ρ e}, Contains ⟨t, x⟩ e → Manager.value ⟨t, y⟩ ρ e = Manager.value ⟨t, x⟩ ρ e :=
    fun he => hkeeps.value ht ht' he
  refine ⟨⟨hin.test, hin.yes, hin.no⟩, hr.contains, fun ρ => ?_⟩
  rw [hvalue hr.contains, hr.value, choiceValue, choiceValue, hvalue hin.test, hvalue hin.yes, hvalue hin.no]

theorem meets_remembered (hm : m.Valid) :
    Meets (remembered c) m
      (fun o m' => m.Grows m' ∧ ∀ r, o = some r → m'.Denotes r fun ρ => m.choiceValue ρ c) fun _ _ => False := by
  obtain ⟨t, x⟩ := m
  have hgrows : Grows ⟨t, x⟩ ⟨t, (x.find c).2⟩ := valid_of_slots hm fun d r h => .inl (Memo.slots_find (m := x) (k := c) ▸ h)
  refine ⟨hgrows, fun r hr => hgrows.denotes hm ?_⟩
  exact (hm.choices c r (Memo.mem_slots_of_peek (Memo.find_fst.symm.trans hr))).2

theorem meets_remember (hm : m.Valid) (hc : m.Includes c) (hr : m.Denotes r fun ρ => m.choiceValue ρ c) :
    Meets (remember c r) m (fun _ m' => m.Grows m') fun _ _ => False := by
  obtain ⟨t, x⟩ := m
  refine valid_of_slots hm fun d v hmem => ?_
  rcases Memo.mem_slots_insert hmem with hold | ⟨rfl, rfl⟩
  · exact .inl hold
  · exact .inr ⟨hc, hr⟩

/-! ### Choices and connectives -/

/-- A choice is computed from its two halves, the induction being on the bound for the depth. -/
theorem meets_chooseWithin (k : Nat) (hm : m.Valid) (hc : m.Includes c) (hk : c.depth < k) :
    Meets (chooseWithin k c) m (fun r m' => m.Grows m' ∧ m'.Denotes r fun ρ => m.choiceValue ρ c)
      fun _ _ => False := by
  induction k generalizing m c with
  | zero => exact absurd hk (Nat.not_lt_zero _)
  | succ k ih =>
      rw [chooseWithin]
      have hform := Choice.within_reduce hm.tabled.contains_one hc
      have hvalue : ∀ ρ, c.reduce.value m ρ = m.choiceValue ρ c := fun _ => Choice.value_reduce hm hc
      cases hred : c.reduce with
      | settled e =>
          rw [hred] at hform hvalue
          exact ⟨hm.grows, hform, hvalue⟩
      | split flip d =>
          rw [hred] at hform hvalue
          obtain ⟨hd, htest, hdepth⟩ := hform
          refine (meets_remembered (c := d) hm).bind ?_
          rintro (_ | r) m₁ ⟨hg₁, hr⟩
          · have hd₁ := hg₁.includes hd
            obtain ⟨u, c₀, c₁, hs⟩ := hg₁.valid.tabled.stored.exists_splits hd₁ htest
            obtain ⟨hc₀, hc₁⟩ := hs.includes
            simp only [meets_bind]
            rw [meets_ask hs.split_eq]
            refine (ih hg₁.valid hc₀ (by have := hs.depth.1; omega)).imp ?_
            rintro low m₂ ⟨hg₂, hlow⟩
            refine (ih hg₂.valid (hg₂.includes hc₁) (by have := hs.depth.2; omega)).imp ?_
            rintro high m₃ ⟨hg₃, hhigh⟩
            have hlow₃ := hg₃.denotes hg₂.valid hlow
            have hhigh₃ := hhigh.congr fun ρ => hg₂.choiceValue hg₁.valid hc₁
            have hunder : ∀ {e d}, m₃.Denotes e (fun ρ => m₁.choiceValue ρ d) → d = c₀ ∨ d = c₁ →
                m₃.Under (u + 1) e := fun he hdc =>
              hg₃.valid.tabled.under_of_independent he.contains fun ρ ρ' hρ => by
                rw [he.value, he.value, hs.choiceValue_congr hg₁.valid hdc hρ]
            refine (meets_mkNode hg₃.valid u.succ_pos (hunder hlow₃ (.inl rfl)) (hunder hhigh₃ (.inr rfl))).imp ?_
            rintro r m₄ ⟨hg₄, hr⟩
            have hg : m₁.Grows m₄ := (hg₂.trans hg₃).trans hg₄
            have hr' : m₄.Denotes r fun ρ => m₁.choiceValue ρ d := hr.congr fun ρ => by
              rw [hs.choiceValue_eq hg₁.valid, hlow₃.value, hhigh₃.value]
            refine (meets_remember hg₄.valid (hg.includes hd₁)
              (hr'.congr fun ρ => (hg.choiceValue hg₁.valid hd₁).symm)).imp ?_
            intro _ m₅ hg₅
            refine ⟨hg₁.trans (hg.trans hg₅), (hg₅.denotes hg₄.valid hr').flipIf.congr fun ρ => ?_⟩
            rw [← hvalue, Choice.Form.value, hg₁.choiceValue hm hd]
          · exact ⟨hg₁, (hr r rfl).flipIf.congr hvalue⟩

variable {a b d : (Nat → Bool) → Bool}

theorem meets_ite (hm : m.Valid) (hf : m.Denotes f a) (hg : m.Denotes g b) (hh : m.Denotes h d) :
    Meets (ite f g h) m (fun r m' => m.Grows m' ∧ m'.Denotes r fun ρ => if a ρ then b ρ else d ρ)
      fun _ _ => False := by
  have hc : m.Includes ⟨f, g, h⟩ := ⟨hf.contains, hg.contains, hh.contains⟩
  refine (meets_chooseWithin _ hm hc (Nat.lt_succ_self _)).imp ?_
  rintro r m' ⟨hgrows, hr⟩
  exact ⟨hgrows, hr.congr fun ρ => by simp only [choiceValue, hf.value, hg.value, hh.value]⟩

theorem meets_and (hm : m.Valid) (hf : m.Denotes f a) (hg : m.Denotes g b) :
    Meets (and f g) m (fun r m' => m.Grows m' ∧ m'.Denotes r fun ρ => a ρ && b ρ) fun _ _ => False := by
  refine (meets_ite hm hf hg hm.denotes_zero).imp fun r m' hr => ⟨hr.1, hr.2.congr fun ρ => ?_⟩
  cases a ρ <;> rfl

theorem meets_or (hm : m.Valid) (hf : m.Denotes f a) (hg : m.Denotes g b) :
    Meets (or f g) m (fun r m' => m.Grows m' ∧ m'.Denotes r fun ρ => a ρ || b ρ) fun _ _ => False := by
  refine (meets_ite hm hf hm.denotes_one hg).imp fun r m' hr => ⟨hr.1, hr.2.congr fun ρ => ?_⟩
  cases a ρ <;> rfl

theorem meets_xor (hm : m.Valid) (hf : m.Denotes f a) (hg : m.Denotes g b) :
    Meets (xor f g) m (fun r m' => m.Grows m' ∧ m'.Denotes r fun ρ => a ρ ^^ b ρ) fun _ _ => False := by
  refine (meets_ite hm hf hg.not hg).imp fun r m' hr => ⟨hr.1, hr.2.congr fun ρ => ?_⟩
  cases a ρ <;> simp

theorem meets_eq (hm : m.Valid) (hf : m.Denotes f a) (hg : m.Denotes g b) :
    Meets (eq f g) m (fun r m' => m.Grows m' ∧ m'.Denotes r fun ρ => a ρ == b ρ) fun _ _ => False := by
  refine (meets_ite hm hf hg hg.not).imp fun r m' hr => ⟨hr.1, hr.2.congr fun ρ => ?_⟩
  cases a ρ <;> simp

theorem meets_imply (hm : m.Valid) (hf : m.Denotes f a) (hg : m.Denotes g b) :
    Meets (imply f g) m (fun r m' => m.Grows m' ∧ m'.Denotes r fun ρ => !a ρ || b ρ) fun _ _ => False := by
  refine (meets_ite hm hf hg hm.denotes_one).imp fun r m' hr => ⟨hr.1, hr.2.congr fun ρ => ?_⟩
  cases a ρ <;> rfl

/-- A conjunction of functions that are made one after the other. -/
theorem meets_andFrom {bs : List (Build Edge)} {fs : List ((Nat → Bool) → Bool)} (h₀ : m'.Grows m) (he : m.Denotes e a)
    (hbs : List.Forall₂ (fun b d => ∀ m, m'.Grows m →
      Meets b m (fun r m₁ => m.Grows m₁ ∧ m₁.Denotes r d) fun _ _ => False) bs fs) :
    Meets (andFrom e bs) m (fun r m₁ => m.Grows m₁ ∧ m₁.Denotes r fun ρ => a ρ && fs.all fun d => d ρ)
      fun _ _ => False := by
  induction hbs generalizing m e a with
  | nil => exact ⟨h₀.valid.grows, he.congr fun ρ => by simp⟩
  | @cons b d bs fs hb hbs ih =>
      rw [andFrom]
      refine (hb m h₀).bind ?_
      rintro f m₁ ⟨hg₁, hf⟩
      refine (meets_and hg₁.valid (hg₁.denotes h₀.valid he) hf).bind ?_
      rintro r m₂ ⟨hg₂, hr⟩
      have hg := hg₁.trans hg₂
      by_cases hzero : r = .zero
      · rw [if_pos hzero]
        have hall := (hr.eq_zero_iff hg₂.valid).mp hzero
        refine ⟨hg, hr.congr fun ρ => ?_⟩
        have := hall ρ
        simp only [List.all_cons]
        cases ha : a ρ <;> cases hd : d ρ <;> simp_all
      · rw [if_neg hzero]
        refine (ih (h₀.trans hg) hr).imp ?_
        rintro r' m₃ ⟨hg₃, hr'⟩
        exact ⟨hg.trans hg₃, hr'.congr fun ρ => by simp [Bool.and_assoc]⟩

theorem meets_andMany {es : List Edge} (hm : m.Valid) (hes : ∀ e ∈ es, m.Contains e) :
    Meets (andMany es) m (fun r m' => m.Grows m' ∧ m'.Denotes r fun ρ => es.all fun e => m.value ρ e)
      fun _ _ => False := by
  have hpure : List.Forall₂ (fun b d => ∀ m', m.Grows m' → Meets b m' (fun r m₁ => m'.Grows m₁ ∧ m₁.Denotes r d)
      fun _ _ => False) (es.map (pure : Edge → Build Edge)) (es.map fun e ρ => m.value ρ e) := by
    rw [List.forall₂_map_left_iff, List.forall₂_map_right_iff, List.forall₂_same]
    exact fun e he m' hg => ⟨hg.valid.grows, hg.denotes hm (hes e he).denotes⟩
  refine (meets_andFrom hm.grows hm.denotes_one hpure).imp fun r m' hr => ⟨hr.1, hr.2.congr fun ρ => ?_⟩
  simp [List.all_map, Function.comp_def]

/-! ### What is put together from single operations -/

/-- A property of work on the manager that single operations have, and that work put together from such has, too. -/
structure Compositional (P : {α : Type} → Build α → Prop) : Prop where
  pure : ∀ {α : Type} {a : α}, P (pure a)
  throw : ∀ {α : Type} {f : Fault}, P (throw f : Build α)
  bind : ∀ {α β : Type} {x : Build α} {f : α → Build β}, P x → (∀ a, P (f a)) → P (x >>= f)
  intern : ∀ n : Node, n.var ≠ 0 → P (intern n)
  split : ∀ c : Choice, P (ask (·.split c))
  remembered : ∀ c : Choice, P (remembered c)
  remember : ∀ (c : Choice) (r : Edge), P (remember c r)

namespace Compositional

variable {P : {α : Type} → Build α → Prop} (hP : Compositional P)

include hP

theorem mkNode (v : Nat) (low high : Edge) : P (mkNode v low high) := by
  by_cases hv : v = 0
  · subst hv
    have hthrow : Build.mkNode 0 low high = MonadExcept.throw .zeroVariable := rfl
    rw [hthrow]
    exact hP.throw
  · rw [Build.mkNode, if_neg hv]
    by_cases heq : low = high
    · rw [if_pos heq]
      exact hP.pure
    · simp only [heq, ite_false]
      by_cases hneg : high.negated = true
      · rw [if_pos hneg]
        exact hP.bind (hP.intern _ hv) fun _ => hP.pure
      · rw [if_neg hneg]
        exact hP.intern _ hv

/-- By induction on the number of splits, the work on both halves having the property. -/
theorem chooseWithin (k : Nat) (c : Choice) : P (chooseWithin k c) := by
  induction k generalizing c with
  | zero => exact hP.throw
  | succ k ih =>
      rw [Build.chooseWithin]
      split
      · exact hP.pure
      · apply hP.bind (hP.remembered _)
        intro found
        cases found with
        | some r => exact hP.pure
        | none =>
            apply hP.bind (hP.split _)
            intro halves
            obtain ⟨v, c₀, c₁⟩ := halves
            apply hP.bind (ih c₀)
            intro low
            apply hP.bind (ih c₁)
            intro high
            apply hP.bind (hP.mkNode v low high)
            intro r
            exact hP.bind (hP.remember _ r) fun _ => hP.pure

theorem ite (f g e : Edge) : P (ite f g e) :=
  hP.chooseWithin _ _

theorem and (f g : Edge) : P (and f g) :=
  hP.ite f g .zero

theorem or (f g : Edge) : P (or f g) :=
  hP.ite f .one g

theorem andFrom {bs : List (Build Edge)} (hbs : ∀ b ∈ bs, P b) (acc : Edge) : P (andFrom acc bs) := by
  induction bs generalizing acc with
  | nil => exact hP.pure
  | cons b bs ih =>
      obtain ⟨hb, hbs⟩ := List.forall_mem_cons.mp hbs
      apply hP.bind hb
      intro e
      apply hP.bind (hP.and acc e)
      intro r
      split
      · exact hP.pure
      · exact ih hbs r

theorem andMany (es : List Edge) : P (andMany es) := by
  apply hP.andFrom
  intro b hb
  obtain ⟨e, -, rfl⟩ := List.mem_map.mp hb
  exact hP.pure

end Compositional

end Build

end Invariance.Diagram
