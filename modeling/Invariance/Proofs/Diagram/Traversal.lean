import Invariance.Proofs.Diagram.Operations
import Invariance.Proofs.Diagram.Support

/-!
The nodes below an edge, visited from a stack of those still to visit. A node is marked when it is met and its children
are put on the stack, so that each step either takes one from the stack for good or marks a new node. What is marked in
the end is the smallest set that is closed under children, which is also what the descent collects, and the variables
found there are those the function depends on.
-/

namespace Invariance.Diagram.Manager

variable {m m' : Manager} {e e' : Edge} {n : Node} {i k v : Nat}
variable {stack : List Nat} {done done' seen : Std.HashSet Nat} {start : Nat → Prop}

/-- Takes nodes from a stack until it is empty, with at most the given number of steps. -/
def walkWithin (m : Manager) : Nat → List Nat → Std.HashSet Nat → Except Fault (Std.HashSet Nat)
  | 0, _, _ => throw .exhausted
  | _ + 1, [], seen => return seen
  | k + 1, i :: stack, seen => do
    if seen.contains i || i == Edge.one.index then m.walkWithin k stack (seen.insert i)
    else
      let node ← m.node i
      m.walkWithin k (node.high.index :: node.low.index :: stack) (seen.insert i)

/-- The nodes at and below an edge, as they are found from a stack. -/
def walk (m : Manager) (e : Edge) : Except Fault (Std.HashSet Nat) :=
  m.walkWithin (2 * m.size + 2) [e.index] ∅

/-! ### Smallest closed sets -/

/-- The smallest closed set of nodes with those of the start. -/
structure Spans (m : Manager) (start : Nat → Prop) (done : Std.HashSet Nat) : Prop where
  closed : m.Closed done
  mem : ∀ i, start i → i ∈ done
  least : ∀ s : Std.HashSet Nat, m.Closed s → (∀ i, start i → i ∈ s) → ∀ i ∈ done, i ∈ s

theorem Spans.mem_iff (h : m.Spans start done) (h' : m.Spans start done') : i ∈ done ↔ i ∈ done' :=
  ⟨h.least done' h'.closed h'.mem i, h'.least done h.closed h.mem i⟩

/-- Another start leads to the same set, if it is found there and leads to the first one. -/
theorem Spans.of_start {start' : Nat → Prop} (h : m.Spans start done) (hmem : ∀ i, start' i → start i)
    (hleast : ∀ s : Std.HashSet Nat, m.Closed s → (∀ i, start' i → i ∈ s) → ∀ i, start i → i ∈ s) :
    m.Spans start' done where
  closed := h.closed
  mem i hi := h.mem i (hmem i hi)
  least s hs hstart := h.least s hs (hleast s hs hstart)

/-- The descent leaves no closed set that has what it starts from. -/
theorem mem_of_collectWithin {s : Std.HashSet Nat} (hs : m.Closed s) (hi : i ∈ s) (hdone : ∀ j ∈ done, j ∈ s)
    (hrun : m.collectWithin k done i = .ok done') : ∀ j ∈ done', j ∈ s := by
  induction k generalizing i done done' with
  | zero => cases hrun
  | succ k ih =>
      have hinsert : ∀ {d : Std.HashSet Nat}, (∀ j ∈ d, j ∈ s) → ∀ j ∈ d.insert i, j ∈ s := by
        intro d hd j hj
        rcases Std.HashSet.mem_insert.mp hj with heq | hj
        · exact beq_iff_eq.mp heq ▸ hi
        · exact hd j hj
      rw [collectWithin] at hrun
      split at hrun
      · cases hrun
        exact hdone
      · split at hrun
        · cases hrun
          exact hinsert hdone
        · next hone =>
            cases hn : m.node i with
            | error => simp [hn, bind, Except.bind] at hrun
            | ok n =>
                have hchildren := hs i n hi (by simpa using hone) hn
                cases h₁ : m.collectWithin k done n.low.index with
                | error => simp [hn, h₁, bind, Except.bind] at hrun
                | ok done₁ =>
                    cases h₂ : m.collectWithin k done₁ n.high.index with
                    | error => simp [hn, h₁, h₂, bind, Except.bind] at hrun
                    | ok done₂ =>
                        simp only [hn, h₁, h₂, bind, Except.bind, pure, Except.pure, Except.ok.injEq] at hrun
                        subst hrun
                        exact hinsert (ih hchildren.2 (ih hchildren.1 hdone h₁) h₂)

theorem exists_reachable (hm : m.Valid) (he : m.Contains e) :
    ∃ done, m.reachable e = .ok done ∧ m.Spans (· = e.index) done ∧ ∀ i ∈ done, 0 < i ∧ i ≤ m.size := by
  obtain ⟨done, hrun, hdone⟩ := exists_collectWithin hm (e.index + 1) he (Nat.lt_succ_self _) closed_empty
  refine ⟨done, hrun, ⟨hdone.closed, ?_, ?_⟩, ?_⟩
  · rintro _ rfl
    exact hdone.mem
  · intro s hs hstart
    exact mem_of_collectWithin hs (hstart _ rfl) (fun _ hj => absurd hj Std.HashSet.not_mem_empty) hrun
  · exact fun i hi => ((hdone.below i hi).resolve_left Std.HashSet.not_mem_empty).1

/-! ### The stack -/

/-- The children of what is marked are marked, or on the stack. -/
structure Pending (m : Manager) (stack : List Nat) (seen : Std.HashSet Nat) : Prop where
  within : ∀ i, i ∈ stack ∨ i ∈ seen → 0 < i ∧ i ≤ m.size
  children : ∀ i n, i ∈ seen → i ≠ 1 → m.node i = .ok n → ∀ b, (n.child b).index ∈ stack ∨ (n.child b).index ∈ seen

namespace Pending

/-- Nothing more can be marked than there are nodes. -/
theorem size_le (h : m.Pending stack seen) : seen.size ≤ m.size := by
  have hnodup : seen.toList.Nodup := by
    refine Std.HashSet.distinct_toList.imp ?_
    intro a b hne heq
    simp [heq] at hne
  have hsub : seen.toList ⊆ List.range' 1 m.size := by
    intro i hi
    have := h.within i (.inr (Std.HashSet.mem_toList.mp hi))
    exact List.mem_range'_1.mpr (by omega)
  rw [← Std.HashSet.length_toList]
  exact (List.subperm_of_subset hnodup hsub).length_le.trans (by simp)

/-- A node that was met before, or the terminal, is taken from the stack. -/
theorem skip (h : m.Pending (i :: stack) seen) (hi : i ∈ seen ∨ i = 1) : m.Pending stack (seen.insert i) where
  within j hj := by
    refine h.within j ?_
    simp only [Std.HashSet.mem_insert, List.mem_cons, beq_iff_eq] at hj ⊢
    grind
  children j n hj hone hn b := by
    have hseen : j ∈ seen := by
      rcases Std.HashSet.mem_insert.mp hj with heq | hj
      · cases beq_iff_eq.mp heq
        exact hi.resolve_right hone
      · exact hj
    rcases h.children j n hseen hone hn b with hmem | hmem
    · rcases List.mem_cons.mp hmem with heq | hmem
      · exact .inr (Std.HashSet.mem_insert.mpr (.inl (by simp [heq])))
      · exact .inl hmem
    · exact .inr (Std.HashSet.mem_insert.mpr (.inr hmem))

/-- A new node is marked, and its children are put on the stack. -/
theorem visit (hm : m.Valid) (h : m.Pending (i :: stack) seen) (hn : m.node i = .ok n) (hone : i ≠ 1) :
    m.Pending (n.high.index :: n.low.index :: stack) (seen.insert i) where
  within j hj := by
    have hc := (decides_of_node hm hn hone).contains hm
    rcases hj with hj | hj
    · rcases List.mem_cons.mp hj with rfl | hj
      · exact hc.2
      · rcases List.mem_cons.mp hj with rfl | hj
        · exact hc.1
        · exact h.within j (.inl (List.mem_cons_of_mem i hj))
    · rcases Std.HashSet.mem_insert.mp hj with heq | hj
      · exact h.within j (.inl (beq_iff_eq.mp heq ▸ List.mem_cons_self))
      · exact h.within j (.inr hj)
  children j n' hj hone' hn' b := by
    rcases Std.HashSet.mem_insert.mp hj with heq | hj
    · cases beq_iff_eq.mp heq
      cases hn.symm.trans hn'
      left
      cases b <;> simp [Node.child]
    · rcases h.children j n' hj hone' hn' b with hmem | hmem
      · rcases List.mem_cons.mp hmem with heq | hmem
        · exact .inr (Std.HashSet.mem_insert.mpr (.inl (by simp [heq])))
        · exact .inl (List.mem_cons_of_mem _ (List.mem_cons_of_mem _ hmem))
      · exact .inr (Std.HashSet.mem_insert.mpr (.inr hmem))

end Pending

/-- A step takes a node from the stack that needs no visit, or marks a new one for the two it puts there. -/
theorem exists_walkWithin (hm : m.Valid) (k : Nat) (hk : stack.length + 2 * (m.size - seen.size) < k)
    (h : m.Pending stack seen) :
    ∃ done, m.walkWithin k stack seen = .ok done ∧ m.Spans (fun i => i ∈ stack ∨ i ∈ seen) done := by
  induction k generalizing stack seen with
  | zero => exact absurd hk (Nat.not_lt_zero _)
  | succ k ih =>
      cases stack with
      | nil =>
          refine ⟨seen, rfl, fun i n hi hone hn => ?_, fun i hi => hi.resolve_left List.not_mem_nil, ?_⟩
          · have hchild : ∀ b, (n.child b).index ∈ seen :=
              fun b => (h.children i n hi hone hn b).resolve_left List.not_mem_nil
            exact ⟨hchild false, hchild true⟩
          · exact fun s _ hs i hi => hs i (.inr hi)
      | cons i stack =>
          rw [List.length_cons] at hk
          have hsize : (seen.insert i).size = if i ∈ seen then seen.size else seen.size + 1 := Std.HashSet.size_insert
          have htest : (seen.contains i || i == Edge.one.index) = true ↔ i ∈ seen ∨ i = 1 := by
            rw [Bool.or_eq_true, Std.HashSet.contains_iff_mem, beq_iff_eq, Edge.index_one]
          by_cases hskip : i ∈ seen ∨ i = 1
          · obtain ⟨done, hrun, hspans⟩ := ih (by split at hsize <;> omega) (h.skip hskip)
            rw [walkWithin, if_pos (htest.mpr hskip), hrun]
            refine ⟨done, rfl, hspans.of_start (fun j hj => ?_) fun s _ hs j hj => hs j ?_⟩
            · simp only [Std.HashSet.mem_insert, List.mem_cons, beq_iff_eq] at hj ⊢
              grind
            · simp only [Std.HashSet.mem_insert, List.mem_cons, beq_iff_eq] at hj ⊢
              grind
          · obtain ⟨hnew, hone⟩ := not_or.mp hskip
            have hwithin := h.within i (.inl List.mem_cons_self)
            obtain ⟨n, hn⟩ := Contains.exists_node (m := m) (e := .ofNode i false) (by simpa [Contains] using hwithin)
            rw [Edge.index_ofNode] at hn
            have hpending := h.visit hm hn hone
            have hle := hpending.size_le
            rw [if_neg hnew] at hsize
            obtain ⟨done, hrun, hspans⟩ := ih (by simp only [List.length_cons]; omega) hpending
            rw [walkWithin, if_neg (mt htest.mp hskip), hn]
            refine ⟨done, hrun, hspans.of_start (fun j hj => ?_) fun s hclosed hs j hj => ?_⟩
            · simp only [Std.HashSet.mem_insert, List.mem_cons, beq_iff_eq] at hj ⊢
              grind
            · have hchildren := hclosed i n (hs i (.inl List.mem_cons_self)) hone hn
              simp only [Std.HashSet.mem_insert, List.mem_cons, beq_iff_eq] at hj hs
              grind

theorem exists_walk (hm : m.Valid) (he : m.Contains e) :
    ∃ done, m.walk e = .ok done ∧ m.Spans (· = e.index) done := by
  have hpending : m.Pending [e.index] ∅ :=
    ⟨fun i hi => by
      obtain rfl : i = e.index := by simpa using hi
      exact he, fun _ _ hi => absurd hi Std.HashSet.not_mem_empty⟩
  obtain ⟨done, hrun, hspans⟩ := exists_walkWithin hm (2 * m.size + 2) (by simp; omega) hpending
  have hstart : ∀ i, (i ∈ [e.index] ∨ i ∈ (∅ : Std.HashSet Nat)) ↔ i = e.index := by simp
  simp only [hstart] at hspans
  exact ⟨done, hrun, hspans⟩

/-! ### Dependence -/

/-- A variable matters where turning it over changes the value. -/
theorem dependsOn_iff_flip : m.DependsOn e v ↔
    ∃ ρ : Nat → Bool, m.value (Function.update ρ v (!ρ v)) e ≠ m.value ρ e := by
  constructor
  · rintro ⟨ρ, hρ⟩
    refine ⟨Function.update ρ v true, ?_⟩
    rwa [Function.update_self, Function.update_idem]
  · rintro ⟨ρ, hρ⟩
    by_contra hno
    rw [value_update hno] at hρ
    exact hρ rfl

/-- Equal dependence means equal support. -/
theorem support_eq_of_dependsOn {vars : SortedSet Nat} (hm' : m'.Valid) (he' : m'.Contains e')
    (hvars : ∀ v, v ∈ vars.elements ↔ m'.DependsOn e' v) : m'.support e' = .ok vars := by
  obtain ⟨vars', hrun, hvars'⟩ := exists_support hm' he'
  rw [hrun, SortedSet.ext_elements fun v => (hvars' v).trans (hvars v).symm]

/-- The support is what turning a variable over can change. It is the same for every edge of the function, whatever the
manager, and for its complement, and it is found at the nodes that a stack leads to. -/
theorem support_is_dependence (hm : m.Valid) (he : m.Contains e) :
    ∃ vars, m.support e = .ok vars ∧
      (∀ v, v ∈ vars.elements ↔ ∃ ρ : Nat → Bool, m.value (Function.update ρ v (!ρ v)) e ≠ m.value ρ e) ∧
      (∀ m' e', Valid m' → m'.Contains e' → (∀ ρ, m'.value ρ e' = m.value ρ e) → m'.support e' = .ok vars) ∧
      m.support e.not = .ok vars ∧
      ∃ seen, m.walk e = .ok seen ∧ m.varsOf seen = .ok vars := by
  obtain ⟨vars, hrun, hvars⟩ := exists_support hm he
  refine ⟨vars, hrun, fun v => (hvars v).trans dependsOn_iff_flip, ?_, ?_, ?_⟩
  · intro m' e' hm' he' hsame
    refine support_eq_of_dependsOn hm' he' fun v => (hvars v).trans ?_
    simp only [DependsOn, hsame]
  · refine support_eq_of_dependsOn hm (contains_not.mpr he) fun v => (hvars v).trans ?_
    rw [dependsOn_iff_dependsAt, dependsOn_iff_dependsAt (e := e.not), Edge.index_not]
  · obtain ⟨done, hreachable, hdone, hwithin⟩ := exists_reachable hm he
    obtain ⟨seen, hwalk, hseen⟩ := exists_walk hm he
    refine ⟨seen, hwalk, ?_⟩
    obtain ⟨vars', hvars', hmem'⟩ := exists_varsOf fun i hi => hwithin i ((hseen.mem_iff hdone).mp hi)
    obtain ⟨vars'', hvars'', hmem''⟩ := exists_varsOf hwithin
    have hsupport : m.support e = .ok vars'' := by
      rw [support_eq, hreachable]
      exact hvars''
    obtain rfl : vars'' = vars := Except.ok.inj (hsupport.symm.trans hrun)
    rw [hvars']
    refine congrArg _ (SortedSet.ext_elements fun v => ?_)
    rw [hmem', hmem'']
    simp only [hseen.mem_iff hdone]

/-- A conjunction depends on its two variables, and so does its complement. -/
theorem support_is_dependence_conjunction : ∃ m₀ m e vars, ofBits 3 = .ok m₀ ∧
    (do Build.and (← Build.mkVar 1) (← Build.mkVar 2) : Build Edge).run.run m₀ = (.ok e, m) ∧
    m.support e = .ok vars ∧ m.support e.not = .ok vars ∧ ∀ v, v ∈ vars.elements ↔ v = 1 ∨ v = 2 := by
  have hm₀ : ofBits 3 = .ok _ := rfl
  have hmade := Build.meets_ofVars (valid_ofBits hm₀) Nat.one_pos Nat.two_pos fun m x y hg hx hy =>
    (Build.meets_and hg.valid hx hy).imp fun e m' he => And.intro he.1.valid he.2
  obtain ⟨e, m, hrun, hm, he⟩ := hmade.exists_ok
  obtain ⟨vars, hsupport, hvars, -, hnot, -⟩ := support_is_dependence hm he.contains
  refine ⟨_, m, e, vars, hm₀, hrun, hsupport, hnot, fun v => (hvars v).trans ?_⟩
  simp only [he.value]
  constructor
  · rintro ⟨ρ, hρ⟩
    by_contra hno
    obtain ⟨h₁, h₂⟩ := not_or.mp hno
    rw [Function.update_of_ne (Ne.symm h₁), Function.update_of_ne (Ne.symm h₂)] at hρ
    exact hρ rfl
  · rintro (rfl | rfl)
    · exact ⟨fun _ => true, by simp⟩
    · exact ⟨fun _ => true, by simp⟩

end Invariance.Diagram.Manager
