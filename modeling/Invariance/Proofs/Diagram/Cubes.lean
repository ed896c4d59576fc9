import Invariance.Proofs.Diagram.Operations

/-!
Stacks of literals and conjunctions of literals. Literals on different variables stack up to their conjunction, in
whatever order they are given. A second literal on a variable is put on top of a node for that variable: the stack gets
a node that is out of order, of which a manager with unique functions has none, and everything on top of it is new, too.
-/

namespace Invariance.Diagram

open Slots

variable {m m' m₁ : Manager} {e r : Edge} {a : (Nat → Bool) → Bool} {k l : Int} {ls ks : List Int} {n : Node} {v : Nat}

namespace Manager

/-! ### Tables with a node more -/

/-- The edge leads to a node for `v` between functions at these nodes. The node was there before, or is new. -/
structure Tops (m : Manager) (v low high : Nat) (m' : Manager) (r : Edge) (n : Node) : Prop where
  var_eq : n.var = v
  low_eq : n.low.index = low
  high_eq : n.high.index = high
  node : m'.node r.index = .ok n
  origin : m.node r.index = .ok n ∨ r.index = m.size + 1

/-- A node is put on top of two functions, wherever their variables stand in the order. -/
theorem Stored.meets_intern (h : m.Stored) (hn : 0 < n.var) (hchild : ∀ b, m.Contains (n.child b)) :
    Meets (Build.intern n) m (fun r m' => m'.Stored ∧ m.Keeps m' ∧ m.Tops n.var n.low.index n.high.index m' r n)
      fun _ _ => False := by
  have hrun : (Build.intern n).run.run m = _ := Build.run_intern
  rcases h.put_cases hn with ⟨i, hput, hget⟩ | ⟨last, hput, hends, hnew⟩
  · rw [hput] at hrun
    have hget' : m.node (Edge.ofNode i false).index = .ok n := by rwa [Edge.index_ofNode]
    exact meets_of_run_ok hrun ⟨h, fun _ _ => id, rfl, rfl, rfl, hget', .inl hget'⟩
  · rw [hput] at hrun
    refine meets_of_run_ok hrun ⟨h.append hends hn hchild hnew, fun _ _ => Interning.get_append_of_get, rfl, rfl, rfl, ?_, ?_⟩
    · rw [Edge.index_ofNode]
      exact Interning.get_append_new
    · exact .inr (Edge.index_ofNode _ _)

theorem Stored.meets_mkNode {low high : Edge} (h : m.Stored) (hv : 0 < v) (hlow : m.Contains low)
    (hhigh : m.Contains high) (hne : low ≠ high) :
    Meets (Build.mkNode v low high) m
      (fun r m' => m'.Stored ∧ m.Keeps m' ∧ ∃ n, m.Tops v low.index high.index m' r n) fun _ _ => False := by
  rw [Build.mkNode, if_neg hv.ne']
  simp only [hne, ite_false]
  by_cases hneg : high.negated = true
  · rw [if_pos hneg]
    have hchild := contains_child (n := ⟨v, low.not, high.not⟩) (contains_not.mpr hlow) (contains_not.mpr hhigh)
    apply (h.meets_intern hv hchild).bind
    rintro r m' ⟨hstored, hkeeps, htops⟩
    refine ⟨hstored, hkeeps, ⟨v, low.not, high.not⟩, rfl, Edge.index_not, Edge.index_not, ?_, ?_⟩
    · rw [Edge.index_not]
      exact htops.node
    · rw [Edge.index_not]
      exact htops.origin
  · rw [if_neg hneg]
    have hchild := contains_child (n := ⟨v, low, high⟩) hlow hhigh
    exact (h.meets_intern hv hchild).imp fun r m' hr => ⟨hr.1, hr.2.1, _, hr.2.2⟩

/-- A literal is put on top of a function that is not constant false. -/
theorem Stored.meets_stackLiteral (h : m.Stored) (hl : l ≠ 0) (he : m.Contains e) (hzero : e ≠ .zero) :
    Meets (Build.stackLiteral e l) m (fun r m' => m'.Stored ∧ m.Keeps m' ∧
      ∃ n b, n.var = l.natAbs ∧ (n.child b).index = e.index ∧ m'.node r.index = .ok n ∧
        (m.node r.index = .ok n ∨ r.index = m.size + 1)) fun _ _ => False := by
  have hpos : 0 < l.natAbs := Int.natAbs_pos.mpr hl
  have hfalse : m.Contains .zero := ⟨Nat.one_pos, h.contains_one.2⟩
  rw [Build.stackLiteral, if_neg hl]
  split
  · apply (h.meets_mkNode hpos hfalse he hzero.symm).imp
    rintro r m' ⟨hstored, hkeeps, n, htops⟩
    exact ⟨hstored, hkeeps, n, true, htops.var_eq, htops.high_eq, htops.node, htops.origin⟩
  · apply (h.meets_mkNode hpos he hfalse hzero).imp
    rintro r m' ⟨hstored, hkeeps, n, htops⟩
    exact ⟨hstored, hkeeps, n, false, htops.var_eq, htops.low_eq, htops.node, htops.origin⟩

/-! ### Stacks out of order -/

/-- Each node leads to the terminal, or to nodes for larger variables. -/
def Ordered (m : Manager) : Prop :=
  ∀ i n, 1 < i → m.node i = .ok n → ∀ b, m.Under n.var (n.child b)

theorem Tabled.ordered (hm : m.Tabled) : m.Ordered :=
  fun i n hi hn b => ((hm.proper i n hi hn).child b).1

/-- A node stands above one whose variable is not larger. -/
theorem not_ordered {i : Nat} {b : Bool} {t : Node} (hi : 1 < i) (hn : m.node i = .ok n) (hone : (n.child b).index ≠ 1)
    (ht : m.node (n.child b).index = .ok t) (hle : t.var ≤ n.var) : ¬ m.Ordered := by
  intro h
  obtain ⟨t', ht', hlt⟩ := (h i n hi hn b).resolve_left hone
  cases ht.symm.trans ht'
  omega

/-- Order is not restored by more nodes. -/
theorem Keeps.not_ordered (h : m.Keeps m') (hm : m.Stored) (hnot : ¬ m.Ordered) : ¬ m'.Ordered := by
  refine fun hordered => hnot fun i n hi hn b => ?_
  rcases hordered i n hi (h i n hn) b with hone | ⟨t, ht, hlt⟩
  · exact .inl hone
  · have hchild := (hm.older i n hi hn).2 b
    have hsize := (contains_ofNode hn).2
    rw [Edge.index_ofNode] at hsize
    obtain ⟨t', ht'⟩ := Contains.exists_node (m := m) (e := n.child b) ⟨hchild.1, by omega⟩
    cases ht.symm.trans (h _ _ ht')
    exact .inr ⟨t, ht', hlt⟩

/-- The manager lost its order after it was `m₁`, and the edge leads to a new node. -/
structure Spoiled (m₁ m : Manager) (e : Edge) : Prop where
  stored : m.Stored
  keeps : m₁.Keeps m
  contains : m.Contains e
  fresh : m₁.size < e.index
  disordered : ¬ m.Ordered

theorem Keeps.size_le (h : m.Keeps m') : m.size ≤ m'.size := by
  by_contra hlt
  obtain ⟨n, hn⟩ := Contains.exists_node (m := m) (e := .ofNode m.size false) ⟨by simp; omega, by simp⟩
  have := (contains_of_node (h _ n hn)).2
  rw [Edge.index_ofNode] at this
  omega

/-- What is put on top of new nodes is new. -/
theorem Spoiled.meets_stackLiteral (h₁ : m₁.Stored) (h : Spoiled m₁ m e) (hl : l ≠ 0) :
    Meets (Build.stackLiteral e l) m (fun r m' => Spoiled m₁ m' r) fun _ _ => False := by
  have hone : 1 ≤ m₁.size := h₁.contains_one.2
  have hzero := Edge.ne_zero_of_index (hone.trans_lt h.fresh).ne'
  apply (h.stored.meets_stackLiteral hl h.contains hzero).imp
  rintro r m' ⟨hstored, hkeeps, n, b, hvar, hchild, hn, horigin⟩
  refine ⟨hstored, h.keeps.trans hkeeps, contains_of_node hn, ?_, hkeeps.not_ordered h.stored h.disordered⟩
  by_contra hle
  -- A node of the old manager has children there.
  obtain ⟨n', hn'⟩ := Contains.exists_node (m := m₁) (e := r) ⟨(contains_of_node hn).1, by omega⟩
  cases hn.symm.trans (hkeeps _ _ (h.keeps _ _ hn'))
  have hpos : 0 < n.var := hvar ▸ Int.natAbs_pos.mpr hl
  have hr := h₁.ne_one hpos hn'
  have holder := ((h₁.older r.index n (by have := (contains_of_node hn).1; omega) hn').2 b).2
  have hfresh := h.fresh
  omega

theorem Spoiled.meets_stack (h₁ : m₁.Stored) (h : Spoiled m₁ m e) (hne : ∀ l ∈ ls, l ≠ 0) :
    Meets (ls.foldlM Build.stackLiteral e) m (fun r m' => Spoiled m₁ m' r) fun _ _ => False := by
  induction ls generalizing m e with
  | nil => exact h
  | cons l ls ih =>
      obtain ⟨hl, hne⟩ := List.forall_mem_cons.mp hne
      rw [List.foldlM_cons]
      exact (h.meets_stackLiteral h₁ hl).bind fun r m' hr => ih hr hne

/-- A second literal on the variable of the root is put out of order. -/
theorem Valid.meets_stackLiteral_spoiled (hm : m.Valid) (hg : m₁.Grows m) (hl : l ≠ 0) (hone : e.index ≠ 1)
    (hk : m.node e.index = .ok n) (hvar : n.var = l.natAbs) :
    Meets (Build.stackLiteral e l) m (fun r m' => Spoiled m₁ m' r) fun _ _ => False := by
  have hzero := Edge.ne_zero_of_index hone
  apply (hm.tabled.stored.meets_stackLiteral hl (contains_of_node hk) hzero).imp
  rintro r m' ⟨hstored, hkeeps, t, b, htvar, hchild, ht, horigin⟩
  have hr : 1 < r.index := by
    have hne := hstored.ne_one (htvar ▸ Int.natAbs_pos.mpr hl) ht
    have hpos := (contains_of_node ht).1
    omega
  have hdisordered : ∀ {m'' : Manager}, m''.node r.index = .ok t → m.Keeps m'' → ¬ m''.Ordered := by
    intro m'' ht hkeeps
    exact not_ordered hr ht (hchild ▸ hone) (by rw [hchild]; exact hkeeps _ _ hk) (by omega)
  refine ⟨hstored, hg.keeps.trans hkeeps, contains_of_node ht, ?_, hdisordered ht hkeeps⟩
  rcases horigin with hold | hnew
  · exact absurd hm.tabled.ordered (hdisordered hold fun _ _ => id)
  · have := hg.keeps.size_le
    omega

/-- A list of literals from the deepest one up is stacked out of order if two of them are on one variable. -/
theorem Valid.meets_stack_spoiled (hm : m.Valid) (hg : m₁.Grows m) (h₁ : m₁.Stored)
    (hls : (k :: ls).Pairwise fun k l => l.natAbs ≤ k.natAbs)
    (hrepeated : ¬ (k :: ls).Pairwise fun k l => l.natAbs < k.natAbs) (hne : ∀ l ∈ ls, l ≠ 0) (hone : e.index ≠ 1)
    (hn : m.node e.index = .ok n) (hvar : n.var = k.natAbs) :
    Meets (ls.foldlM Build.stackLiteral e) m (fun r m' => Spoiled m₁ m' r) fun _ _ => False := by
  induction ls generalizing m e k n with
  | nil => exact absurd (List.pairwise_singleton _ _) hrepeated
  | cons l ls ih =>
      obtain ⟨hkls, hls⟩ := List.pairwise_cons.mp hls
      obtain ⟨hl, hne⟩ := List.forall_mem_cons.mp hne
      rw [List.foldlM_cons]
      rcases (hkls l List.mem_cons_self).lt_or_eq with hlt | heq
      · have hunder : m.Under l.natAbs e := .inr ⟨n, hn, by omega⟩
        have hzero := Edge.ne_zero_of_index hone
        have hstep := (Build.meets_stackLiteral hm hl (contains_of_node hn).denotes hunder).and
          (hm.tabled.stored.meets_stackLiteral hl (contains_of_node hn) hzero)
        apply (hstep.mono (fun _ _ => id) fun _ _ h => h.1).bind
        rintro r m' ⟨⟨hg', hr, -⟩, -, -, t, b, htvar, -, ht, -⟩
        refine ih hg'.valid (hg.trans hg') hls (fun hstrict => hrepeated ?_) hne ?_ ht htvar
        · refine List.pairwise_cons.mpr ⟨fun j hj => ?_, hstrict⟩
          rcases List.mem_cons.mp hj with rfl | hj
          · exact hlt
          · exact ((List.pairwise_cons.mp hls).1 j hj).trans_lt hlt
        · exact hg'.valid.tabled.stored.ne_one (htvar ▸ Int.natAbs_pos.mpr hl) ht
      · apply (hm.meets_stackLiteral_spoiled hg hl hone hn (by omega)).bind
        exact fun r m' hr => hr.meets_stack h₁ hne

end Manager

/-! ### Conjunctions -/

namespace Build

open Manager

/-- A literal as a function. -/
def literal (l : Int) : Build Edge := do
  return (← mkVar l.natAbs).flipIf (l < 0)

/-- The conjunction of the literals, put together from their functions. -/
def conjunction (ls : List Int) : Build Edge := do
  andMany (← ls.mapM literal)

theorem meets_literal (hm : m.Valid) (hl : l ≠ 0) :
    Meets (literal l) m (fun r m' => m.Grows m' ∧ m'.Denotes r fun ρ => ρ l.natAbs == decide (0 < l)) fun _ _ => False := by
  apply (meets_mkVar hm (Int.natAbs_pos.mpr hl)).bind
  rintro r m' ⟨hgrows, hr⟩
  refine ⟨hgrows, hr.flipIf.congr fun ρ => ?_⟩
  rcases lt_or_gt_of_ne hl with hneg | hpos
  · simp [hneg, hneg.not_gt]
  · simp [hpos, hpos.not_gt]

theorem meets_literals (hm : m.Valid) (hne : ∀ l ∈ ls, l ≠ 0) :
    Meets (ls.mapM literal) m
      (fun rs m' => m.Grows m' ∧ List.Forall₂ (fun l r => m'.Denotes r fun ρ => ρ l.natAbs == decide (0 < l)) ls rs)
      fun _ _ => False := by
  induction ls generalizing m with
  | nil => exact ⟨hm.grows, .nil⟩
  | cons l ls ih =>
      obtain ⟨hl, hne⟩ := List.forall_mem_cons.mp hne
      rw [List.mapM_cons]
      apply (meets_literal hm hl).bind
      rintro r m' ⟨hg, hr⟩
      apply (ih hg.valid hne).bind
      rintro rs m'' ⟨hg', hrs⟩
      exact ⟨hg.trans hg', .cons (hg'.denotes hg.valid hr) hrs⟩

theorem meets_conjunction (hm : m.Valid) (hne : ∀ l ∈ ls, l ≠ 0) :
    Meets (conjunction ls) m
      (fun r m' => m.Grows m' ∧ m'.Denotes r fun ρ => ls.all fun l => ρ l.natAbs == decide (0 < l))
      fun _ _ => False := by
  apply (meets_literals hm hne).bind
  rintro rs m' ⟨hg, hrs⟩
  have hcontains : ∀ r ∈ rs, m'.Contains r := by
    clear hne
    induction hrs with
    | nil => exact fun _ hr => nomatch hr
    | cons hr _ ih => exact List.forall_mem_cons.mpr ⟨hr.contains, ih⟩
  apply (meets_andMany hg.valid hcontains).imp
  rintro r m'' ⟨hg', hr⟩
  refine ⟨hg.trans hg', hr.congr fun ρ => ?_⟩
  clear hne hcontains hr
  induction hrs with
  | nil => rfl
  | cons hr _ ih => rw [List.all_cons, List.all_cons, hr.value, ih]

/-- With two literals on one variable, the stack is out of order. -/
theorem meets_cube_spoiled (hm : m.Valid) (hne : ∀ l ∈ ls, l ≠ 0) (hrepeated : ¬ (ls.map Int.natAbs).Nodup) :
    Meets (cube ls) m (fun r m' => Spoiled m m' r) fun _ _ => False := by
  have hperm := deepestFirst_perm ls
  have hstrict : ¬ (deepestFirst ls).Pairwise fun k l => l.natAbs < k.natAbs := by
    intro h
    refine hrepeated ((hperm.map _).nodup_iff.mp (List.pairwise_map.mpr (h.imp fun hlt => ?_)))
    exact hlt.ne'
  have hne' : ∀ l ∈ deepestFirst ls, l ≠ 0 := fun l hl => hne l (hperm.mem_iff.mp hl)
  have hle := pairwise_le_deepestFirst ls
  rw [cube_eq]
  generalize deepestFirst ls = ds at hstrict hne' hle
  cases ds with
  | nil => exact absurd .nil hstrict
  | cons k ds =>
      obtain ⟨hk, hne'⟩ := List.forall_mem_cons.mp hne'
      rw [List.foldlM_cons]
      have hstep := (meets_stackLiteral hm hk hm.denotes_one under_one).and
        (hm.tabled.stored.meets_stackLiteral hk hm.tabled.contains_one (by decide))
      apply (hstep.mono (fun _ _ => id) fun _ _ h => h.1).bind
      rintro r m' ⟨⟨hg, -, -⟩, -, -, n, b, hvar, -, hn, -⟩
      refine hg.valid.meets_stack_spoiled hg hm.tabled.stored hle hstrict hne' ?_ hn hvar
      exact hg.valid.tabled.stored.ne_one (hvar ▸ Int.natAbs_pos.mpr hk) hn

/-- Lists of the same literals on different variables are stacked in the same order. -/
theorem cube_eq_of_perm (hls : (ls.map Int.natAbs).Nodup) (hperm : ks.Perm ls) : cube ks = cube ls := by
  have hks : (ks.map Int.natAbs).Nodup := (hperm.map _).nodup_iff.mpr hls
  rw [cube_eq, cube_eq, (((deepestFirst_perm ks).trans hperm).trans (deepestFirst_perm ls).symm).eq_of_pairwise
    (fun _ _ _ _ h h' => absurd h (by omega)) (pairwise_deepestFirst hks) (pairwise_deepestFirst hls)]

/-- A stack of literals is their conjunction, and leaves the manager canonical, exactly if all are on different variables.
The order of such literals does not matter. -/
theorem cube_eq_conjunction_iff (hm : m.Valid) (hne : ∀ l ∈ ls, l ≠ 0) :
    ∃ y m₁ r m₂, (conjunction ls).run.run m = (.ok y, m₁) ∧ m₁.Canonical ∧ (cube ls).run.run m₁ = (.ok r, m₂) ∧
      (∀ ρ, m₁.value ρ y = ls.all fun l => ρ l.natAbs == decide (0 < l)) ∧
      (r = y ↔ (ls.map Int.natAbs).Nodup) ∧ (m₂.Canonical ↔ (ls.map Int.natAbs).Nodup) ∧
      ((ls.map Int.natAbs).Nodup → ∀ ks, ks.Perm ls → (cube ks).run.run m₁ = (.ok y, m₂)) := by
  obtain ⟨y, m₁, hy, hg, hyd⟩ := (meets_conjunction hm hne).exists_ok
  by_cases hls : (ls.map Int.natAbs).Nodup
  · obtain ⟨r, m₂, hr, hg', hrd⟩ := (meets_cube hg.valid hne hls).exists_ok
    obtain rfl : r = y := hrd.eq hg'.valid (hg'.denotes hg.valid hyd)
    refine ⟨r, m₁, r, m₂, hy, hg.valid.canonical, hr, hyd.value, iff_of_true rfl hls, iff_of_true hg'.valid.canonical hls,
      fun _ ks hks => ?_⟩
    rw [cube_eq_of_perm hls hks, hr]
  · obtain ⟨r, m₂, hr, hspoiled⟩ := (meets_cube_spoiled hg.valid hne hls).exists_ok
    refine ⟨y, m₁, r, m₂, hy, hg.valid.canonical, hr, hyd.value, iff_of_false ?_ hls, iff_of_false ?_ hls,
      fun h => absurd h hls⟩
    · rintro rfl
      have hfresh := hspoiled.fresh
      have hle := hyd.contains.2
      omega
    · exact fun hcanonical => hspoiled.disordered fun i n hi hn b => (hcanonical.ordered i n hi hn b).2

/-- Two literals, stacked in either order. -/
theorem cube_eq_conjunction_two : ∃ m y m₁ m₂, ofBits 3 = .ok m ∧ (conjunction [-2, 1]).run.run m = (.ok y, m₁) ∧
    (cube [-2, 1]).run.run m₁ = (.ok y, m₂) ∧ (cube [1, -2]).run.run m₁ = (.ok y, m₂) ∧ m₂.Canonical := by
  have hm : ofBits 3 = .ok _ := rfl
  have hne : ∀ l ∈ ([-2, 1] : List Int), l ≠ 0 := by decide
  obtain ⟨y, m₁, r, m₂, hy, -, hr, -, heq, hcanonical, hperm⟩ := cube_eq_conjunction_iff (valid_ofBits hm) hne
  have hnodup : ([-2, 1].map Int.natAbs).Nodup := by decide
  exact ⟨_, y, m₁, m₂, hm, hy, heq.mpr hnodup ▸ hr, hperm hnodup [1, -2] (.swap _ _ _), hcanonical.mpr hnodup⟩

/-- Two literals on one variable are not their conjunction: a variable taken twice is not the variable, and with its
complement it is not constant false. -/
theorem cube_ne_conjunction_repeated : ∃ m, ofBits 3 = .ok m ∧
    Meets (do return (← conjunction [1, 1], ← cube [1, 1])) m (fun p _ => p.1 ≠ p.2) (fun _ _ => False) ∧
    Meets (do return (← conjunction [1, -1], ← cube [1, -1])) m (fun p _ => p.1 = .zero ∧ p.2 ≠ .zero) fun _ _ => False :=
  ⟨_, rfl, by decide +kernel, by decide +kernel⟩

end Build

end Invariance.Diagram
