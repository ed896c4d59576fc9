import Invariance.Proofs.Diagram.Operations
import Invariance.Proofs.Diagram.Replay

/-!
Managers that hold the same nodes, whatever their memos hold and however their tables are sized. The same work leads
them to the same edges and to the same nodes again: where one of them remembers a choice, the other finds all its nodes.
Variables may come in any order.
-/

namespace Invariance.Diagram

open Slots

variable {m₁ m₂ m₁' m₂' : Manager} {c : Choice} {n : Node} {e f g r low high : Edge} {k v : Nat}

namespace Manager

/-- Sound managers with the same nodes under the same numbers. -/
structure Twins (m₁ m₂ : Manager) : Prop where
  left : m₁.Sound
  right : m₂.Sound
  values_eq : m₂.nodes.values = m₁.nodes.values

/-- What work on a manager and on its twin leads to: twins that keep the nodes, and an edge to one of theirs. -/
structure Made (m : Manager) (r : Edge) (m₁ m₂ : Manager) : Prop where
  twins : Twins m₁ m₂
  keeps : m.Keeps m₁
  contains : m₁.Contains r

namespace Twins

variable (h : Twins m₁ m₂)

include h

theorem node_eq (i : Nat) : m₂.node i = m₁.node i := by
  cases i with
  | zero => rfl
  | succ i => rw [node, node, Interning.get, Interning.get, h.values_eq]

theorem size_eq : m₂.size = m₁.size :=
  congrArg Array.size h.values_eq

theorem keeps : m₁.Keeps m₂ := by
  intro i n hn
  rwa [h.node_eq]

theorem rests (h₁ : m₁.Rests m₁') (h₂ : m₂.Rests m₂') : Twins m₁' m₂' :=
  ⟨h₁.sound, h₂.sound, by rw [h₁.nodes_eq, h₂.nodes_eq, h.values_eq]⟩

end Twins

theorem Made.imp {m m' : Manager} (h : Made m' r m₁ m₂) (hk : m.Keeps m') : Made m r m₁ m₂ :=
  ⟨h.twins, fun i n hn => h.keeps i n (hk i n hn), h.contains⟩

theorem Twins.made (h : Twins m₁ m₂) (he : m₁.Contains e) : Made m₁ e m₁ m₂ :=
  ⟨h, fun _ _ => id, he⟩

/-- What is remembered stays right when a node is added. -/
theorem Sound.append {m : Manager} {last : Nat} (hm : m.Sound) (hlast : m.nodes.Ends n last) (hvar : 0 < n.var)
    (hchild : ∀ b, m.Contains (n.child b)) (hnew : ∀ i, m.node i ≠ .ok n) :
    Sound ⟨m.nodes.append n last, m.choices⟩ ∧ m.Keeps ⟨m.nodes.append n last, m.choices⟩ := by
  have hkeeps : m.Keeps ⟨m.nodes.append n last, m.choices⟩ :=
    fun i k hk => Interning.get_append_of_get (t := m.nodes) hk
  exact ⟨⟨hm.stored.append hlast hvar hchild hnew, fun c r hmem => hkeeps.settles (hm.recalls c r hmem)⟩, hkeeps⟩

end Manager

/-! ### Nodes and choices -/

namespace Build

open Manager

/-- Both answer a question in the same way. -/
private theorem concur_asked {α β : Type} {question : Manager → Except Fault α} {a : α} {work : α → Build β}
    {Q : β → Manager → Manager → Prop} (h₁ : question m₁ = .ok a) (h₂ : question m₂ = .ok a)
    (h : Concur (work a) m₁ m₂ Q) : Concur (ask question >>= work) m₁ m₂ Q := by
  apply (((meets_ask h₁).mpr ⟨rfl, rfl⟩).concur ((meets_ask h₂).mpr ⟨rfl, rfl⟩)).bind
  rintro _ _ _ ⟨rfl, rfl, rfl⟩
  exact h

/-- Both tables have the node under the same number, or give it the same one. -/
private theorem concur_intern (h : Twins m₁ m₂) (hvar : 0 < n.var) (hchild : ∀ b, m₁.Contains (n.child b)) :
    Concur (intern n) m₁ m₂ fun r m₁' m₂' =>
      (Twins m₁' m₂' ∧ m₁.Keeps m₁') ∧ ∃ i, r = .ofNode i false ∧ m₁'.node i = .ok n := by
  have hrun₁ : (intern n).run.run m₁ = _ := run_intern
  have hrun₂ : (intern n).run.run m₂ = _ := run_intern
  rcases h.left.stored.put_cases hvar with ⟨i, hput₁, hi⟩ | ⟨last₁, hput₁, hends₁, hnew₁⟩ <;>
    rcases h.right.stored.put_cases hvar with ⟨j, hput₂, hj⟩ | ⟨last₂, hput₂, hends₂, hnew₂⟩ <;>
    rw [hput₁] at hrun₁ <;> rw [hput₂] at hrun₂
  · obtain rfl : j = i := h.left.stored.unique j i n (by rwa [← h.node_eq]) hi
    exact ⟨_, _, _, hrun₁, hrun₂, ⟨h, fun _ _ => id⟩, j, rfl, hi⟩
  · exact absurd (by rwa [h.node_eq]) (hnew₂ i)
  · exact absurd (by rwa [← h.node_eq]) (hnew₁ j)
  · rw [h.size_eq] at hrun₂
    obtain ⟨hsound₁, hkeeps⟩ := h.left.append hends₁ hvar hchild hnew₁
    obtain ⟨hsound₂, -⟩ := h.right.append hends₂ hvar (fun b => h.keeps.contains (hchild b)) hnew₂
    refine ⟨_, _, _, hrun₁, hrun₂, ⟨⟨hsound₁, hsound₂, ?_⟩, hkeeps⟩, m₁.size + 1, rfl, Interning.get_append_new⟩
    rw [Interning.values_append, Interning.values_append, h.values_eq]

theorem concur_mkNode (h : Twins m₁ m₂) (hv : 0 < v) (hlow : m₁.Contains low) (hhigh : m₁.Contains high) :
    Concur (mkNode v low high) m₁ m₂ fun r m₁' m₂' => Made m₁ r m₁' m₂' ∧ m₁'.Joins v low high r := by
  rw [mkNode, if_neg hv.ne']
  by_cases heq : low = high
  · rw [if_pos heq]
    exact concur_pure ⟨h.made hlow, .same heq⟩
  · simp only [if_neg heq]
    cases hneg : high.negated with
    | true =>
        simp only [if_true]
        have hchild := contains_child (n := ⟨v, low.not, high.not⟩) (contains_not.mpr hlow) (contains_not.mpr hhigh)
        apply (concur_intern h hv hchild).bind
        rintro _ m₁' m₂' ⟨⟨htwins, hkeeps⟩, i, rfl, hi⟩
        exact concur_pure ⟨⟨htwins, hkeeps, contains_not.mpr (contains_ofNode hi)⟩, .flipped i heq hneg hi⟩
    | false =>
        simp only [Bool.false_eq_true, if_false]
        apply (concur_intern (n := ⟨v, low, high⟩) h hv (contains_child hlow hhigh)).imp
        rintro _ m₁' m₂' ⟨⟨htwins, hkeeps⟩, i, rfl, hi⟩
        exact ⟨⟨htwins, hkeeps, contains_ofNode hi⟩, .plain i heq hneg hi⟩

/-- A choice whose outcome is in the table already. -/
private theorem concur_chooseWithin_of_settles (h : Twins m₁ m₂) (hc : m₁.Includes c) (hk : c.depth < k)
    (hr : m₁.Settles c.reduce r) :
    Concur (chooseWithin k c) m₁ m₂ fun a m₁' m₂' => Made m₁ a m₁' m₂' ∧ m₁'.Settles c.reduce a := by
  have hwithin := Choice.within_reduce h.left.stored.contains_one hc
  apply ((meets_chooseWithin_of_settles k h.left hc hk hr).concur
    (meets_chooseWithin_of_settles k h.right (h.keeps.includes hc) hk (h.keeps.settles hr))).imp
  rintro _ m₁' m₂' ⟨rfl, h₁, h₂⟩
  exact ⟨⟨h.rests h₁ h₂, h₁.keeps, h₁.keeps.contains (h.left.stored.contains_of_settles hwithin hr)⟩,
    h₁.keeps.settles hr⟩

/-- Neither memo has an answer that is not in the table. -/
private theorem concur_remembered (h : Twins m₁ m₂) (hnew : ∀ r, ¬ m₁.Settles (.split false c) r) :
    Concur (remembered c) m₁ m₂ fun o m₁' m₂' => o = none ∧ m₁.Rests m₁' ∧ m₂.Rests m₂' := by
  have hkeeps : m₂.Keeps m₁ := fun i n hn => by rwa [← h.node_eq]
  refine Meets.concur ((meets_remembered_of_sound h.left).imp ?_) ((meets_remembered_of_sound h.right).imp ?_)
  · rintro o m ⟨hrests, ho⟩
    exact ⟨Option.eq_none_iff_forall_ne_some.mpr fun r hr => hnew r (ho r hr), hrests⟩
  · rintro o m ⟨hrests, ho⟩
    exact ⟨Option.eq_none_iff_forall_ne_some.mpr fun r hr => hnew r (hkeeps.settles (ho r hr)), hrests⟩

private theorem concur_remember (h : Twins m₁ m₂) (hr : m₁.Settles (.split false c) r) :
    Concur (remember c r) m₁ m₂ fun _ m₁' m₂' => m₁.Rests m₁' ∧ m₂.Rests m₂' :=
  (Meets.concur (r := ()) ((meets_remember_of_settles h.left hr).imp fun _ _ h₁ => ⟨rfl, h₁⟩)
    ((meets_remember_of_settles h.right (h.keeps.settles hr)).imp fun _ _ h₂ => ⟨rfl, h₂⟩)).imp fun _ _ _ => And.right

/-- A choice is found by both, or made by both from its two halves; the induction is on the bound for the depth. -/
theorem concur_chooseWithin (k : Nat) (h : Twins m₁ m₂) (hc : m₁.Includes c) (hk : c.depth < k) :
    Concur (chooseWithin k c) m₁ m₂ fun r m₁' m₂' => Made m₁ r m₁' m₂' ∧ m₁'.Settles c.reduce r := by
  induction k generalizing m₁ m₂ c with
  | zero => exact absurd hk (Nat.not_lt_zero _)
  | succ k ih =>
      by_cases hknown : ∃ r, m₁.Settles c.reduce r
      · obtain ⟨r, hr⟩ := hknown
        exact concur_chooseWithin_of_settles h hc hk hr
      · have hwithin := Choice.within_reduce h.left.stored.contains_one hc
        rw [chooseWithin]
        generalize c.reduce = F at hknown hwithin
        cases F with
        | settled e => exact absurd ⟨e, .settled e⟩ hknown
        | split flip d =>
            obtain ⟨hd, htest, hdepth⟩ := hwithin
            have hnew : ∀ r, ¬ m₁.Settles (.split false d) r := fun r hr => hknown ⟨_, hr.flip flip⟩
            apply (concur_remembered h hnew).bind
            rintro _ n₁ n₂ ⟨rfl, h₁, h₂⟩
            have hn := h.rests h₁ h₂
            obtain ⟨u, c₀, c₁, hsplits⟩ := hn.left.stored.exists_splits (h₁.keeps.includes hd) htest
            obtain ⟨hc₀, hc₁⟩ := hsplits.includes
            apply concur_asked hsplits.split_eq (hn.keeps.split_eq hsplits.split_eq)
            apply (ih hn hc₀ (by have := hsplits.depth.1; omega)).bind
            rintro low p₁ p₂ ⟨hp, hlow⟩
            apply (ih hp.twins (hp.keeps.includes hc₁) (by have := hsplits.depth.2; omega)).bind
            rintro high q₁ q₂ ⟨hq, hhigh⟩
            apply (concur_mkNode hq.twins u.succ_pos (hq.keeps.contains hp.contains) hq.contains).bind
            rintro r s₁ s₂ ⟨hs, hjoin⟩
            have hkeeps := (hp.keeps.trans hq.keeps).trans hs.keeps
            have hd' : s₁.Settles (.split false d) r :=
              .split false d (hkeeps.split_eq hsplits.split_eq) ((hq.keeps.trans hs.keeps).settles hlow)
                (hs.keeps.settles hhigh) hjoin
            apply (concur_remember hs.twins hd').bind
            rintro _ t₁ t₂ ⟨ht₁, ht₂⟩
            refine concur_pure ⟨⟨hs.twins.rests ht₁ ht₂, (h₁.keeps.trans hkeeps).trans ht₁.keeps, ?_⟩, ?_⟩
            · exact contains_flipIf.mpr (ht₁.keeps.contains hs.contains)
            · exact (ht₁.keeps.settles hd').flip flip

/-! ### Connectives, literals and quantification -/

section Operations

variable (h : Twins m₁ m₂)

include h

theorem concur_ite {d : Edge} (he : m₁.Contains e) (hf : m₁.Contains f) (hd : m₁.Contains d) :
    Concur (ite e f d) m₁ m₂ (Made m₁) :=
  (concur_chooseWithin _ h ⟨he, hf, hd⟩ (Nat.lt_succ_self _)).imp fun _ _ _ => And.left

theorem concur_and (hf : m₁.Contains f) (hg : m₁.Contains g) : Concur (and f g) m₁ m₂ (Made m₁) :=
  concur_ite h hf hg h.left.stored.contains_one

theorem concur_or (hf : m₁.Contains f) (hg : m₁.Contains g) : Concur (or f g) m₁ m₂ (Made m₁) :=
  concur_ite h hf h.left.stored.contains_one hg

theorem concur_xor (hf : m₁.Contains f) (hg : m₁.Contains g) : Concur (xor f g) m₁ m₂ (Made m₁) :=
  concur_ite h hf (contains_not.mpr hg) hg

theorem concur_eq (hf : m₁.Contains f) (hg : m₁.Contains g) : Concur (eq f g) m₁ m₂ (Made m₁) :=
  concur_ite h hf hg (contains_not.mpr hg)

theorem concur_imply (hf : m₁.Contains f) (hg : m₁.Contains g) : Concur (imply f g) m₁ m₂ (Made m₁) :=
  concur_ite h hf hg h.left.stored.contains_one

theorem concur_mkVar (hv : 0 < v) : Concur (mkVar v) m₁ m₂ (Made m₁) :=
  have hzero : m₁.Contains .zero := h.left.stored.contains_one
  (concur_mkNode h hv hzero h.left.stored.contains_one).imp fun _ _ _ => And.left

private theorem concur_andFrom {fs : List Edge} (he : m₁.Contains e) (hfs : ∀ f ∈ fs, m₁.Contains f) :
    Concur (andFrom e (fs.map pure)) m₁ m₂ (Made m₁) := by
  induction fs generalizing m₁ m₂ e with
  | nil => exact concur_pure (h.made he)
  | cons f fs ih =>
      obtain ⟨hf, hfs⟩ := List.forall_mem_cons.mp hfs
      rw [List.map_cons, andFrom, pure_bind]
      apply (concur_and h he hf).bind
      intro r n₁ n₂ hr
      by_cases hzero : r = .zero
      · rw [if_pos hzero]
        exact concur_pure hr
      · rw [if_neg hzero]
        apply (ih hr.twins hr.contains fun f hf => hr.keeps.contains (hfs f hf)).imp
        exact fun _ _ _ hs => hs.imp hr.keeps

theorem concur_andMany {fs : List Edge} (hfs : ∀ f ∈ fs, m₁.Contains f) :
    Concur (andMany fs) m₁ m₂ (Made m₁) :=
  concur_andFrom h h.left.stored.contains_one hfs

private theorem concur_stackLiteral {l : Int} (hl : l ≠ 0) (he : m₁.Contains e) :
    Concur (stackLiteral e l) m₁ m₂ (Made m₁) := by
  have hzero : m₁.Contains .zero := h.left.stored.contains_one
  have hpos : 0 < l.natAbs := Int.natAbs_pos.mpr hl
  rw [stackLiteral, if_neg hl]
  split
  · exact (concur_mkNode h hpos hzero he).imp fun _ _ _ => And.left
  · exact (concur_mkNode h hpos he hzero).imp fun _ _ _ => And.left

private theorem concur_stackLiterals {ls : List Int} (hls : ∀ l ∈ ls, l ≠ 0) (he : m₁.Contains e) :
    Concur (ls.foldlM stackLiteral e) m₁ m₂ (Made m₁) := by
  induction ls generalizing m₁ m₂ e with
  | nil => exact concur_pure (h.made he)
  | cons l ls ih =>
      obtain ⟨hl, hls⟩ := List.forall_mem_cons.mp hls
      rw [List.foldlM_cons]
      apply (concur_stackLiteral h hl he).bind
      intro r n₁ n₂ hr
      apply (ih hr.twins hls hr.contains).imp
      exact fun _ _ _ hs => hs.imp hr.keeps

theorem concur_cube {ls : List Int} (hls : ∀ l ∈ ls, l ≠ 0) : Concur (cube ls) m₁ m₂ (Made m₁) := by
  have hdeepest : ∀ l ∈ deepestFirst ls, l ≠ 0 := fun l hl => hls l ((deepestFirst_perm ls).mem_iff.mp hl)
  rw [cube_eq]
  exact concur_stackLiterals h hdeepest h.left.stored.contains_one

/-- All outcomes found so far are in the table. -/
private def Holds (m : Manager) (done : Std.TreeMap Edge Edge) : Prop :=
  ∀ (e r : Edge), done[e]? = some r → m.Contains r

omit h in
private theorem Holds.keeps {m m' : Manager} {done : Std.TreeMap Edge Edge} (hdone : Holds m done) (hk : m.Keeps m') :
    Holds m' done :=
  fun e r hr => hk.contains (hdone e r hr)

omit h in
private theorem Holds.insert {m : Manager} {done : Std.TreeMap Edge Edge} (hdone : Holds m done) (hr : m.Contains r) :
    Holds m (done.insert e r) :=
  forall_getElem?_insert hdone hr

/-- Quantification looks at the nodes that both have; the induction is on the bound for the decisions. -/
private theorem concur_existsWithin {vars : SortedSet Nat} {d : Nat} {done : Std.TreeMap Edge Edge} (k : Nat)
    (he : m₁.Contains e) (hk : e.index < k) (hdone : Holds m₁ done) :
    Concur (existsWithin vars d k done e) m₁ m₂ fun o m₁' m₂' => Made m₁ o.1 m₁' m₂' ∧ Holds m₁' o.2 := by
  induction k generalizing m₁ m₂ e done with
  | zero => exact absurd hk (Nat.not_lt_zero _)
  | succ k ih =>
      rw [existsWithin]
      by_cases hone : e.index = 1
      · rw [if_pos (Edge.isConst_iff.mpr hone)]
        exact concur_pure ⟨h.made he, hdone⟩
      · obtain ⟨n, hn, hpos, hchild⟩ := h.left.stored.exists_root he hone
        have hvar := var_of_node hn
        have hlow := low_of_node hn
        have hhigh := high_of_node hn
        rw [if_neg (mt Edge.isConst_iff.mp hone)]
        apply concur_asked hvar (h.keeps.var_eq hvar)
        by_cases hdeep : d < n.var
        · rw [if_pos hdeep]
          exact concur_pure ⟨h.made he, hdone⟩
        · rw [if_neg hdeep]
          cases hfound : done[e]? with
          | some r => exact concur_pure ⟨h.made (hdone e r hfound), hdone⟩
          | none =>
              apply concur_asked hlow (h.keeps.low_eq hlow)
              obtain ⟨hcl, hil⟩ := hchild false
              obtain ⟨hch, hih⟩ := hchild true
              apply (ih h (contains_flipIf.mpr hcl) (by rw [Edge.index_flipIf]; omega) hdone).bind
              rintro ⟨rl, done₁⟩ n₁ n₂ ⟨hrl, hdone₁⟩
              have hhigh₁ := hrl.keeps.high_eq hhigh
              apply concur_asked hhigh₁ (hrl.twins.keeps.high_eq hhigh₁)
              apply (ih hrl.twins (hrl.keeps.contains (contains_flipIf.mpr hch)) (by rw [Edge.index_flipIf]; omega)
                hdone₁).bind
              rintro ⟨rh, done₂⟩ p₁ p₂ ⟨hrh, hdone₂⟩
              have hcontains := hrh.keeps.contains hrl.contains
              have hkeeps := hrl.keeps.trans hrh.keeps
              have hlast : ∀ r q₁ q₂, Made p₁ r q₁ q₂ → Made m₁ r q₁ q₂ ∧ Holds q₁ (done₂.insert e r) :=
                fun r q₁ q₂ hr => ⟨hr.imp hkeeps, (hdone₂.keeps hr.keeps).insert hr.contains⟩
              dsimp only
              by_cases hv : vars.contains n.var = true
              · rw [if_pos hv]
                apply (concur_or hrh.twins hcontains hrh.contains).bind
                exact fun r q₁ q₂ hr => concur_pure (hlast r q₁ q₂ hr)
              · rw [if_neg hv]
                apply (concur_mkNode hrh.twins hpos hcontains hrh.contains).bind
                exact fun r q₁ q₂ hr => concur_pure (hlast r q₁ q₂ hr.1)

theorem concur_project {vars : SortedSet Nat} (he : m₁.Contains e) : Concur (project e vars) m₁ m₂ (Made m₁) := by
  rw [project]
  cases vars.elements.getLast? with
  | none => exact concur_pure (h.made he)
  | some deepest =>
      apply (concur_existsWithin h _ he (Nat.lt_succ_self _) fun k r hk => by simp at hk).bind
      exact fun o n₁ n₂ ho => concur_pure ho.1

end Operations

end Build

/-! ### Programs -/

open Manager

/-- The edges that a program has made, their complements and the constants. -/
def Among (made : List Edge) (e : Edge) : Prop :=
  e = .one ∨ e = .zero ∨ ∃ r ∈ made, e = r ∨ e = r.not

namespace Operation

/-- The operation is made of known edges, and of variables and literals other than 0 in any order. -/
def On (known : Edge → Prop) : Operation → Prop
  | mkVar v => 0 < v
  | mkNode v low high => 0 < v ∧ known low ∧ known high
  | cube literals => ∀ l ∈ literals, l ≠ 0
  | ite f g h => known f ∧ known g ∧ known h
  | and f g | or f g | xor f g | eq f g | imply f g => known f ∧ known g
  | andMany fs => ∀ f ∈ fs, known f
  | project f _ => known f
  | encode _ _ => False

variable {op : Operation}

private theorem concur_built {work : Build Edge} (h : Concur work m₁ m₂ (Made m₁)) :
    ∃ r m₁' m₂', built work m₁ = (some r, m₁') ∧ built work m₂ = (some r, m₂') ∧ Made m₁ r m₁' m₂' := by
  obtain ⟨r, m₁', m₂', hrun₁, hrun₂, hr⟩ := h
  refine ⟨r, m₁', m₂', ?_, ?_, hr⟩
  · rw [built, hrun₁]
    rfl
  · rw [built, hrun₂]
    rfl

/-- An operation leads twins to the same edge and to twins again. -/
theorem twins_perform (h : Twins m₁ m₂) (hop : op.On m₁.Contains) :
    ∃ r m₁' m₂', op.perform m₁ = (some r, m₁') ∧ op.perform m₂ = (some r, m₂') ∧ Made m₁ r m₁' m₂' := by
  cases op with
  | mkVar v => exact concur_built (Build.concur_mkVar h hop)
  | mkNode v low high =>
      exact concur_built ((Build.concur_mkNode h hop.1 hop.2.1 hop.2.2).imp fun _ _ _ => And.left)
  | cube literals => exact concur_built (Build.concur_cube h hop)
  | ite e f g => exact concur_built (Build.concur_ite h hop.1 hop.2.1 hop.2.2)
  | and f g => exact concur_built (Build.concur_and h hop.1 hop.2)
  | or f g => exact concur_built (Build.concur_or h hop.1 hop.2)
  | xor f g => exact concur_built (Build.concur_xor h hop.1 hop.2)
  | eq f g => exact concur_built (Build.concur_eq h hop.1 hop.2)
  | imply f g => exact concur_built (Build.concur_imply h hop.1 hop.2)
  | andMany fs => exact concur_built (Build.concur_andMany h hop)
  | project f vars => exact concur_built (Build.concur_project h hop)
  | encode symbols f => exact hop.elim

theorem On.mono {known known' : Edge → Prop} (h : op.On known) (hk : ∀ e, known e → known' e) : op.On known' := by
  cases op with
  | mkVar | cube => exact h
  | mkNode => exact ⟨h.1, hk _ h.2.1, hk _ h.2.2⟩
  | ite => exact ⟨hk _ h.1, hk _ h.2.1, hk _ h.2.2⟩
  | and | or | xor | eq | imply => exact ⟨hk _ h.1, hk _ h.2⟩
  | andMany => exact fun f hf => hk f (h f hf)
  | project => exact hk _ h
  | encode => exact h.elim

end Operation

namespace Manager

/-- Performs operations one after the other, each chosen by the edges that those before it have made. Nothing is
performed after an operation that is refused. -/
def execute (m : Manager) (made : List Edge) : List (List Edge → Operation) → Option (List Edge) × Manager
  | [] => (some made, m)
  | next :: rest =>
    match (next made).perform m with
    | (some r, m) => execute m (made ++ [r]) rest
    | (none, m) => (none, m)

/-- All operations of the program are on constants and edges made before, and on no variable 0. -/
def Plain (program : List (List Edge → Operation)) : Prop :=
  ∀ next ∈ program, ∀ made, (next made).On (Among made)

theorem twins_execute {program : List (List Edge → Operation)} {made : List Edge} (h : Twins m₁ m₂)
    (hprogram : Plain program) (hmade : ∀ r ∈ made, m₁.Contains r) :
    ∃ made' m₁' m₂', m₁.execute made program = (some made', m₁') ∧ m₂.execute made program = (some made', m₂') ∧
      Twins m₁' m₂' := by
  induction program generalizing m₁ m₂ made with
  | nil => exact ⟨made, m₁, m₂, rfl, rfl, h⟩
  | cons next rest ih =>
      obtain ⟨hnext, hrest⟩ := List.forall_mem_cons.mp hprogram
      have hknown : ∀ e, Among made e → m₁.Contains e := by
        rintro e (rfl | rfl | ⟨r, hr, rfl | rfl⟩)
        · exact h.left.stored.contains_one
        · exact h.left.stored.contains_one
        · exact hmade _ hr
        · exact contains_not.mpr (hmade r hr)
      obtain ⟨r, n₁, n₂, hperform₁, hperform₂, hr⟩ := Operation.twins_perform h ((hnext made).mono hknown)
      have hmade' : ∀ e ∈ made ++ [r], n₁.Contains e := by
        intro e he
        rcases List.mem_append.mp he with hold | hnew
        · exact hr.keeps.contains (hmade e hold)
        · rw [List.mem_singleton.mp hnew]
          exact hr.contains
      obtain ⟨made', m₁', m₂', hrun₁, hrun₂, htwins⟩ := ih hr.twins hrest hmade'
      refine ⟨made', m₁', m₂', ?_, ?_, htwins⟩
      · rw [execute, hperform₁]
        exact hrun₁
      · rw [execute, hperform₂]
        exact hrun₂

/-- A manager with the terminal alone, and nothing in its memo. -/
structure Fresh (m : Manager) : Prop where
  stored : m.Stored
  values_eq : m.nodes.values = #[.terminal]
  forgets : ∀ c r, .taken c r ∉ m.choices.slots

theorem Fresh.twins (h₁ : m₁.Fresh) (h₂ : m₂.Fresh) : Twins m₁ m₂ where
  left := ⟨h₁.stored, fun c r hmem => absurd hmem (h₁.forgets c r)⟩
  right := ⟨h₂.stored, fun c r hmem => absurd hmem (h₂.forgets c r)⟩
  values_eq := h₂.values_eq.trans h₁.values_eq.symm

theorem exists_ofBits {bits : Nat} (h : bits ≤ 31) : ∃ m, ofBits bits = .ok m ∧ m.Fresh := by
  obtain ⟨t, ht⟩ : ∃ t, Interning.ofBits (α := Node) bits = .ok t := ⟨_, if_pos h⟩
  obtain ⟨x, hx⟩ : ∃ x, Memo.ofBits (κ := Choice) (ν := Edge) (min bits 16) = .ok x := ⟨_, if_pos (by omega)⟩
  obtain ⟨hstored, hvalues⟩ := stored_new (x := x) ht
  refine ⟨⟨(t.add .terminal).2, x⟩, ?_, hstored, hvalues, fun _ _ => Memo.slots_ofBits hx⟩
  rw [ofBits, ht, hx]
  rfl

theorem exists_withMemo_forgetful {bits : Nat} (h : bits ≤ 31) : ∃ m, withMemo bits .forgetful = .ok m ∧ m.Fresh := by
  obtain ⟨t, ht⟩ : ∃ t, Interning.ofBits (α := Node) bits = .ok t := ⟨_, if_pos h⟩
  obtain ⟨hstored, hvalues⟩ := stored_new (x := .forgetful) ht
  refine ⟨⟨(t.add .terminal).2, .forgetful⟩, ?_, hstored, hvalues, fun _ _ => by simp [Memo.forgetful]⟩
  rw [withMemo, ht]
  rfl

/-- Neither the memo nor the sizes show. A program makes the same edges on managers of any two sizes and on one that
remembers nothing, and they hold the same nodes under the same numbers when it ends. -/
theorem execute_agrees {b₁ b₂ b₃ : Nat} (h₁ : b₁ ≤ 31) (h₂ : b₂ ≤ 31) (h₃ : b₃ ≤ 31)
    {program : List (List Edge → Operation)} (hprogram : Plain program) :
    ∃ m₁ m₂ m₃, ofBits b₁ = .ok m₁ ∧ ofBits b₂ = .ok m₂ ∧ withMemo b₃ .forgetful = .ok m₃ ∧
      ∃ made m₁' m₂' m₃', m₁.execute [] program = (some made, m₁') ∧ m₂.execute [] program = (some made, m₂') ∧
        m₃.execute [] program = (some made, m₃') ∧ (m₂'.size = m₁'.size ∧ m₃'.size = m₁'.size) ∧
        ∀ i, m₂'.node i = m₁'.node i ∧ m₃'.node i = m₁'.node i := by
  obtain ⟨m₁, hm₁, hf₁⟩ := exists_ofBits h₁
  obtain ⟨m₂, hm₂, hf₂⟩ := exists_ofBits h₂
  obtain ⟨m₃, hm₃, hf₃⟩ := exists_withMemo_forgetful h₃
  have hnone : ∀ r ∈ [], m₁.Contains r := by simp
  obtain ⟨made, m₁', m₂', hrun₁, hrun₂, htwins⟩ := twins_execute (hf₁.twins hf₂) hprogram hnone
  obtain ⟨made', m₁'', m₃', hrun₁', hrun₃, htwins'⟩ := twins_execute (hf₁.twins hf₃) hprogram hnone
  cases hrun₁.symm.trans hrun₁'
  exact ⟨m₁, m₂, m₃, hm₁, hm₂, hm₃, made, m₁', m₂', m₃', hrun₁, hrun₂, hrun₃, ⟨htwins.size_eq, htwins'.size_eq⟩,
    fun i => ⟨htwins.node_eq i, htwins'.node_eq i⟩⟩

/-- A decision on the variable 2 above one on 1, a cube with a literal twice, a choice and a quantification. -/
def upsideDown : List (List Edge → Operation) :=
  [fun _ => .mkVar 1,
    fun made => .mkNode 2 .zero (made.getD 0 .one),
    fun _ => .cube [3, -1, 3],
    fun made => .ite (made.getD 0 .one) (made.getD 1 .one) (made.getD 2 .one).not,
    fun made => .project (made.getD 3 .one) (.ofList [1])]

theorem execute_upsideDown_agrees :
    ∃ m₁ m₂ m₃, ofBits 0 = .ok m₁ ∧ ofBits 20 = .ok m₂ ∧ withMemo 3 .forgetful = .ok m₃ ∧
      ∃ made m₁' m₂' m₃', m₁.execute [] upsideDown = (some made, m₁') ∧ m₂.execute [] upsideDown = (some made, m₂') ∧
        m₃.execute [] upsideDown = (some made, m₃') ∧ (m₂'.size = m₁'.size ∧ m₃'.size = m₁'.size) ∧
        ∀ i, m₂'.node i = m₁'.node i ∧ m₃'.node i = m₁'.node i := by
  have hget : ∀ made i, Among made (made.getD i .one) ∧ Among made (made.getD i .one).not := by
    intro made i
    rw [List.getD_eq_getElem?_getD]
    cases hi : made[i]? with
    | none => exact ⟨.inl rfl, .inr (.inl rfl)⟩
    | some r =>
        have hmem := List.mem_of_getElem? hi
        exact ⟨.inr (.inr ⟨r, hmem, .inl rfl⟩), .inr (.inr ⟨r, hmem, .inr rfl⟩)⟩
  have hplain : Plain upsideDown := by
    intro next hnext made
    simp only [upsideDown, List.mem_cons, List.not_mem_nil, or_false] at hnext
    rcases hnext with rfl | rfl | rfl | rfl | rfl
    · exact Nat.one_pos
    · exact ⟨Nat.two_pos, .inr (.inl rfl), (hget made 0).1⟩
    · exact (by decide : ∀ l ∈ [3, -1, 3], l ≠ (0 : Int))
    · exact ⟨(hget made 0).1, (hget made 1).1, (hget made 2).2⟩
    · exact (hget made 3).1
  exact execute_agrees (by decide) (by decide) (by decide) hplain

end Manager

end Invariance.Diagram
