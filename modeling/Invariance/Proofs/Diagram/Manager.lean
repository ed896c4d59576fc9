import Invariance.Diagram.Choice
import Invariance.Proofs.Slots.Interning

/-!
Valid managers. Nodes lead to older nodes with larger variables, no two nodes are the same, and the value of an edge
under an assignment of truth values is found by following it down. Managers only grow, and edges keep their values.
-/

namespace Invariance.Diagram

open Slots

/-! ### Edges -/

namespace Edge

variable {e : Edge} {b : Bool}

@[simp] theorem index_one : one.index = 1 :=
  index_ofNode 1 false

@[simp] theorem negated_one : one.negated = false :=
  negated_ofNode 1 false

@[simp] theorem index_zero : zero.index = 1 :=
  index_ofNode 1 true

@[simp] theorem negated_zero : zero.negated = true :=
  negated_ofNode 1 true

@[simp] theorem index_not : e.not.index = e.index := by
  unfold Edge.not
  split
  · rfl
  · exact index_ofNode _ _

theorem negated_not (h : 0 < e.index) : e.not.negated = !e.negated := by
  rw [Edge.not, if_neg h.ne', negated_ofNode]

@[simp] theorem index_flipIf : (e.flipIf b).index = e.index := by
  cases b <;> simp [flipIf]

theorem eq_one_or_eq_zero (h : e.index = 1) : e = one ∨ e = zero := by
  cases hn : e.negated with
  | false => exact .inl (ext_iff.mpr ⟨by simpa using h, by simpa using hn⟩)
  | true => exact .inr (ext_iff.mpr ⟨by simpa using h, by simpa using hn⟩)

theorem index_eq_one_iff : e.index = 1 ↔ e = one ∨ e = zero := by
  refine ⟨eq_one_or_eq_zero, ?_⟩
  rintro (rfl | rfl)
  · exact index_one
  · exact index_zero

theorem index_ne_one (hone : e ≠ one) (hzero : e ≠ zero) : e.index ≠ 1 :=
  mt index_eq_one_iff.mp (not_or.mpr ⟨hone, hzero⟩)

theorem ne_zero_of_index (h : e.index ≠ 1) : e ≠ zero :=
  (not_or.mp (mt index_eq_one_iff.mpr h)).2

theorem isConst_iff : e.isConst = true ↔ e.index = 1 :=
  beq_iff_eq

theorem not_not (h : 0 < e.index) : e.not.not = e := by
  rw [ext_iff, negated_not (by simpa using h), negated_not h]
  simp

/-- An edge is that of its node, with its sign. -/
theorem flipIf_negated (h : 0 < e.index) : (ofNode e.index false).flipIf e.negated = e := by
  cases hn : e.negated with
  | false => exact ext_iff.mpr (by simpa [flipIf] using hn.symm)
  | true =>
      rw [flipIf, if_pos rfl, ext_iff, negated_not (by simpa using h)]
      simp [hn]

end Edge

/-- The function below a node, where its variable has the truth value `b`. -/
def Node.child (n : Node) (b : Bool) : Edge :=
  if b then n.high else n.low

/-! ### Values -/

namespace Manager

variable {m m' : Manager} {ρ : Nat → Bool} {e f : Edge} {n : Node} {i v w : Nat}

/-- The truth value of the function of a node, where the children are older nodes. -/
def nodeValue (m : Manager) (ρ : Nat → Bool) (i : Nat) : Bool :=
  match m.node i with
  | .error _ => true
  | .ok n =>
    if _ : n.low.index < i ∧ n.high.index < i then
      if ρ n.var then n.high.negated ^^ nodeValue m ρ n.high.index else n.low.negated ^^ nodeValue m ρ n.low.index
    else true
termination_by i

/-- The truth value of a function under an assignment to the decision variables. -/
def value (m : Manager) (ρ : Nat → Bool) (e : Edge) : Bool :=
  e.negated ^^ m.nodeValue ρ e.index

/-- The edge leads to a node. -/
def Contains (m : Manager) (e : Edge) : Prop :=
  0 < e.index ∧ e.index ≤ m.size

/-- The edge leads to the terminal, or to a node that decides a variable larger than `v`. -/
def Under (m : Manager) (v : Nat) (e : Edge) : Prop :=
  e.index = 1 ∨ ∃ n, m.node e.index = .ok n ∧ v < n.var

/-- A node with this number is reduced, and decides a smaller variable than its children, which are older. -/
structure Proper (m : Manager) (i : Nat) (n : Node) : Prop where
  var_pos : 0 < n.var
  ne : n.low ≠ n.high
  regular : n.high.negated = false
  low : m.Under n.var n.low ∧ n.low.index < i
  high : m.Under n.var n.high ∧ n.high.index < i

/-- The node table of a manager: the terminal comes first, and then come proper nodes, each of them once. -/
structure Tabled (m : Manager) : Prop where
  linked : m.nodes.Linked
  terminal : m.node 1 = .ok .terminal
  findable : ∀ i, 1 < i → i ≤ m.size → m.nodes.Findable i
  proper : ∀ i n, 1 < i → m.node i = .ok n → m.Proper i n
  unique : ∀ i j n, m.node i = .ok n → m.node j = .ok n → i = j

theorem contains_of_node (h : m.node e.index = .ok n) : m.Contains e :=
  ⟨(Interning.get_eq_ok_iff.mp h).1, Interning.le_size_of_get h⟩

theorem contains_ofNode (h : m.node i = .ok n) : m.Contains (.ofNode i false) :=
  contains_of_node (by rwa [Edge.index_ofNode])

theorem contains_child (hlow : m.Contains n.low) (hhigh : m.Contains n.high) (b : Bool) : m.Contains (n.child b) := by
  cases b with
  | false => exact hlow
  | true => exact hhigh

theorem Contains.exists_node (h : m.Contains e) : ∃ n, m.node e.index = .ok n :=
  Interning.exists_get h.1 h.2

theorem var_of_node (h : m.node e.index = .ok n) : m.var e = .ok n.var := by
  rw [var, h]
  rfl

theorem low_of_node (h : m.node e.index = .ok n) : m.low e = .ok (n.low.flipIf e.negated) := by
  rw [low, h]
  rfl

theorem high_of_node (h : m.node e.index = .ok n) : m.high e = .ok (n.high.flipIf e.negated) := by
  rw [high, h]
  rfl

@[simp] theorem contains_not : m.Contains e.not ↔ m.Contains e := by
  rw [Contains, Edge.index_not, Contains]

@[simp] theorem contains_flipIf {b : Bool} : m.Contains (e.flipIf b) ↔ m.Contains e := by
  rw [Contains, Edge.index_flipIf, Contains]

@[simp] theorem under_not : m.Under v e.not ↔ m.Under v e := by
  rw [Under, Edge.index_not, Under]

@[simp] theorem under_flipIf {b : Bool} : m.Under v (e.flipIf b) ↔ m.Under v e := by
  rw [Under, Edge.index_flipIf, Under]

theorem value_not (h : m.Contains e) : m.value ρ e.not = !m.value ρ e := by
  rw [value, value, Edge.index_not, Edge.negated_not h.1, Bool.not_xor]

theorem value_flipIf {b : Bool} (h : m.Contains e) : m.value ρ (e.flipIf b) = (b ^^ m.value ρ e) := by
  cases b with
  | false => simp [Edge.flipIf]
  | true => simp [Edge.flipIf, value_not h]

theorem Under.mono (h : m.Under v e) (hw : w ≤ v) : m.Under w e :=
  h.imp_right fun ⟨n, hn, hv⟩ => ⟨n, hn, by omega⟩

theorem under_one : m.Under v .one :=
  .inl rfl

theorem under_zero : m.Under v .zero :=
  .inl rfl

theorem Proper.child (h : m.Proper i n) (b : Bool) : m.Under n.var (n.child b) ∧ (n.child b).index < i := by
  cases b with
  | false => exact h.low
  | true => exact h.high

namespace Tabled

variable (h : m.Tabled)

include h

theorem size_pos : 0 < m.size :=
  Interning.le_size_of_get h.terminal

theorem contains_one : m.Contains .one :=
  ⟨Nat.one_pos, h.size_pos⟩

theorem contains_zero : m.Contains .zero :=
  ⟨Nat.one_pos, h.size_pos⟩

theorem contains_of_under (he : m.Under v e) : m.Contains e := by
  rcases he with heq | ⟨n, hn, -⟩
  · exact ⟨by omega, by have := h.size_pos; omega⟩
  · exact contains_of_node hn

/-- All variables are positive. -/
theorem under_zero_of_contains (he : m.Contains e) : m.Under 0 e := by
  by_cases hone : e.index = 1
  · exact .inl hone
  · obtain ⟨n, hn⟩ := he.exists_node
    exact .inr ⟨n, hn, (h.proper _ n (by have := he.1; omega) hn).var_pos⟩

theorem nodeValue_one : m.nodeValue ρ 1 = true := by
  have hzero : m.nodeValue ρ 0 = true := by
    rw [nodeValue]
    rfl
  rw [nodeValue, h.terminal]
  simp [Node.terminal, hzero]

@[simp] theorem value_one : m.value ρ .one = true := by
  rw [value, Edge.index_one, Edge.negated_one, h.nodeValue_one]
  rfl

@[simp] theorem value_zero : m.value ρ .zero = false := by
  rw [value, Edge.index_zero, Edge.negated_zero, h.nodeValue_one]
  rfl

/-- A decision takes the value of one child or the other. -/
theorem value_of_node (hi : e.index ≠ 1) (hn : m.node e.index = .ok n) :
    m.value ρ e = (e.negated ^^ if ρ n.var then m.value ρ n.high else m.value ρ n.low) := by
  have hp := h.proper _ n (by have := (contains_of_node hn).1; omega) hn
  rw [value, nodeValue, hn]
  simp only [hp.low.2, hp.high.2, and_self, dite_true, value]

/-- The root of a contained edge: the terminal, or a proper node. -/
theorem cases_root (he : m.Contains e) :
    (e = .one ∨ e = .zero) ∨ ∃ n, e.index ≠ 1 ∧ m.node e.index = .ok n ∧ m.Proper e.index n := by
  by_cases hone : e.index = 1
  · exact .inl (Edge.eq_one_or_eq_zero hone)
  · obtain ⟨n, hn⟩ := he.exists_node
    exact .inr ⟨n, hone, hn, h.proper _ n (by have := he.1; omega) hn⟩

/-- Induction over the nodes below an edge. -/
theorem induction {P : (e : Edge) → m.Contains e → Prop} (const : ∀ e he, e = .one ∨ e = .zero → P e he)
    (node : ∀ e he n, e.index ≠ 1 → m.node e.index = .ok n → m.Proper e.index n →
      (∀ hl, P n.low hl) → (∀ hh, P n.high hh) → P e he)
    (e : Edge) (he : m.Contains e) : P e he := by
  induction hk : e.index using Nat.strong_induction_on generalizing e with
  | _ k ih =>
      rcases h.cases_root he with hconst | ⟨n, hone, hn, hp⟩
      · exact const e he hconst
      · exact node e he n hone hn hp (fun hl => ih _ (hk ▸ hp.low.2) _ hl rfl)
          fun hh => ih _ (hk ▸ hp.high.2) _ hh rfl

/-- The value depends on the variables at and below the root only. -/
theorem value_congr {ρ ρ' : Nat → Bool} (he : m.Under v e) (hρ : ∀ w, v < w → ρ w = ρ' w) :
    m.value ρ e = m.value ρ' e := by
  have hcon := h.contains_of_under he
  induction e, hcon using h.induction generalizing v with
  | const e _ hconst => rcases hconst with rfl | rfl <;> simp only [h.value_one, h.value_zero]
  | node e _ n hone hn hp ihl ihh =>
      obtain ⟨n', hn', hlt⟩ := he.resolve_left hone
      cases hn.symm.trans hn'
      have hl := ihl (h.contains_of_under hp.low.1) hp.low.1 fun w hw => hρ w (by omega)
      have hh := ihh (h.contains_of_under hp.high.1) hp.high.1 fun w hw => hρ w (by omega)
      rw [h.value_of_node hone hn, h.value_of_node hone hn, hρ _ hlt, hl, hh]

/-- Where all variables are true, so are the functions of all nodes. -/
theorem value_true (he : m.Contains e) : m.value (fun _ => true) e = !e.negated := by
  induction e, he using h.induction with
  | const e _ hconst => rcases hconst with rfl | rfl <;> simp [h.value_one, h.value_zero]
  | node e _ n hone hn hp _ ihh =>
      rw [h.value_of_node hone hn, if_pos rfl, ihh (h.contains_of_under hp.high.1), hp.regular]
      simp

/-! ### Canonicity -/

/-- What the children decide, once the variable of the root is fixed. -/
theorem value_update (hi : e.index ≠ 1) (hn : m.node e.index = .ok n) (b : Bool) :
    m.value (Function.update ρ n.var b) e = (e.negated ^^ m.value ρ (n.child b)) := by
  have hp := h.proper _ n (by have := (contains_of_node hn).1; omega) hn
  have hcongr : m.value (Function.update ρ n.var b) (n.child b) = m.value ρ (n.child b) :=
    h.value_congr (hp.child b).1 fun w hw => Function.update_of_ne (by omega) _ _
  rw [h.value_of_node hi hn, Function.update_self, ← hcongr]
  cases b <;> rfl

/-- The children of a node have different functions, if functions below it have one edge each. A function that does
not depend on its variable is therefore another one. -/
private theorem value_ne_of_under (hi : e.index ≠ 1) (hn : m.node e.index = .ok n) (hf : m.Under n.var f)
    (hcanonical : ∀ e' f', m.Contains e' → m.Contains f' → e'.index < e.index → f'.index < e.index →
      (∀ ρ, m.value ρ e' = m.value ρ f') → e' = f') : ¬ ∀ ρ, m.value ρ e = m.value ρ f := by
  intro hvalue
  have hp := h.proper _ n (by have := (contains_of_node hn).1; omega) hn
  have hchild : ∀ ρ b, (e.negated ^^ m.value ρ (n.child b)) = m.value ρ f := fun ρ b => by
    rw [← h.value_update hi hn b, hvalue]
    exact h.value_congr hf fun w hw => Function.update_of_ne (by omega) _ _
  refine hp.ne (hcanonical _ _ (h.contains_of_under hp.low.1) (h.contains_of_under hp.high.1) hp.low.2 hp.high.2 ?_)
  intro ρ
  have := (hchild ρ false).trans (hchild ρ true).symm
  simpa [Node.child] using this

private theorem eq_of_value_eq_below (k : Nat) : ∀ e f, m.Contains e → m.Contains f → e.index < k → f.index < k →
    (∀ ρ, m.value ρ e = m.value ρ f) → e = f := by
  induction k with
  | zero => exact fun _ _ _ _ hlt => absurd hlt (Nat.not_lt_zero _)
  | succ k ih =>
      intro e f he hf hek hfk hvalue
      have hcanonical : ∀ {i : Nat}, i < k + 1 → ∀ e' f', m.Contains e' → m.Contains f' → e'.index < i → f'.index < i →
          (∀ ρ, m.value ρ e' = m.value ρ f') → e' = f' :=
        fun hi e' f' he' hf' hei hfi => ih e' f' he' hf' (by omega) (by omega)
      have hneg : e.negated = f.negated := by
        have := hvalue fun _ => true
        rw [h.value_true he, h.value_true hf] at this
        simpa using this
      have hconst : ∀ {v : Nat} {e : Edge}, e = .one ∨ e = .zero → m.Under v e := by
        rintro v e (rfl | rfl)
        · exact under_one
        · exact under_zero
      rcases h.cases_root he with hce | ⟨n, hone, hn, hp⟩
      · rcases h.cases_root hf with hcf | ⟨n', hone', hn', -⟩
        · rcases hce with rfl | rfl <;> rcases hcf with rfl | rfl <;> first | rfl | simp at hneg
        · exact absurd (fun ρ => (hvalue ρ).symm) (h.value_ne_of_under hone' hn' (hconst hce) (hcanonical hfk))
      · rcases h.cases_root hf with hcf | ⟨n', hone', hn', hp'⟩
        · exact absurd hvalue (h.value_ne_of_under hone hn (hconst hcf) (hcanonical hek))
        · rcases Nat.lt_trichotomy n.var n'.var with hlt | heq | hlt
          · exact absurd hvalue (h.value_ne_of_under hone hn (.inr ⟨n', hn', hlt⟩) (hcanonical hek))
          · have hchild : ∀ b, n.child b = n'.child b := fun b => by
              have hl := hp.child b
              have hl' := hp'.child b
              refine ih _ _ (h.contains_of_under hl.1) (h.contains_of_under hl'.1) (by omega) (by omega) fun ρ => ?_
              have := hvalue (Function.update ρ n.var b)
              rw [h.value_update hone hn, heq, h.value_update hone' hn', hneg] at this
              simpa using this
            have hnode : n = n' := by
              have hlow : n.low = n'.low := hchild false
              have hhigh : n.high = n'.high := hchild true
              cases n
              cases n'
              simp_all
            exact Edge.ext_iff.mpr ⟨h.unique _ _ n hn (hnode ▸ hn'), hneg⟩
          · exact absurd (fun ρ => (hvalue ρ).symm)
              (h.value_ne_of_under hone' hn' (.inr ⟨n, hn, hlt⟩) (hcanonical hfk))

/-- Equal functions have equal edges. -/
theorem eq_of_value_eq (he : m.Contains e) (hf : m.Contains f) (hvalue : ∀ ρ, m.value ρ e = m.value ρ f) : e = f :=
  h.eq_of_value_eq_below (max e.index f.index + 1) e f he hf (by omega) (by omega) hvalue

/-- An edge leads below `v` if its function does not depend on the variables up to `v`. -/
theorem under_of_independent (he : m.Contains e)
    (hind : ∀ ρ ρ' : Nat → Bool, (∀ w, v < w → ρ w = ρ' w) → m.value ρ e = m.value ρ' e) : m.Under v e := by
  rcases h.cases_root he with hconst | ⟨n, hone, hn, hp⟩
  · exact .inl (by rcases hconst with rfl | rfl <;> rfl)
  · refine .inr ⟨n, hn, ?_⟩
    by_contra hle
    refine hp.ne (h.eq_of_value_eq (h.contains_of_under hp.low.1) (h.contains_of_under hp.high.1) fun ρ => ?_)
    have heq : m.value (Function.update ρ n.var false) e = m.value (Function.update ρ n.var true) e :=
      hind _ _ fun w hw => by rw [Function.update_of_ne (by omega), Function.update_of_ne (by omega)]
    rw [h.value_update hone hn, h.value_update hone hn] at heq
    simpa [Node.child] using heq

end Tabled

end Manager

end Invariance.Diagram
