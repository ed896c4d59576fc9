import Invariance.Proofs.Bits.Encoding

/-!
The constructors that simplify keep the meaning of the plain ones: values over states and steps, and encodings edge by
edge. Conjunction and disjunction are one constructor here, which can do without one constant and is absorbed by the
other.
-/

namespace Invariance

open Diagram Formula

/-! ### Choices between constants -/

namespace Diagram

variable {b : Bool} {x y z : Edge}

theorem Edge.not_involutive : Function.Involutive Edge.not := by
  intro e
  by_cases h : e.index = 0
  · simp [Edge.not, h]
  · exact Edge.not_not (Nat.pos_of_ne_zero h)

namespace Build

/-- The edge of a constant. -/
def constant (b : Bool) : Edge :=
  if b then .one else .zero

/-- The conjunction of two functions, or their disjunction. -/
def join (b : Bool) (f g : Edge) : Build Edge :=
  if b then Build.and f g else Build.or f g

theorem specialize_constants {s t : Bool} (hone : x ≠ .one) (hzero : x ≠ .zero) :
    Choice.specialize ⟨x, constant s, constant t⟩ = ⟨x, constant s, constant t⟩ := by
  have hne : ∀ u, constant u ≠ x ∧ constant u ≠ x.not := by
    intro u
    cases u with
    | true => exact ⟨hone.symm, fun h => hzero (Edge.not_involutive.eq_iff.mp h.symm)⟩
    | false => exact ⟨hzero.symm, fun h => hone (Edge.not_involutive.eq_iff.mp h.symm)⟩
  simp only [Choice.specialize, (hne _).1, (hne _).2, if_false]

theorem ite_of_reduce {e : Edge} (h : Choice.reduce ⟨x, y, z⟩ = .settled e) : ite x y z = pure e := by
  rw [ite, chooseWithin, h]

/-- Between constants, a choice is its test. -/
theorem ite_one_zero : ite x .one .zero = pure x := by
  by_cases hone : x = .one
  · rw [hone]
    rfl
  by_cases hzero : x = .zero
  · rw [hzero]
    rfl
  have hconst : Choice.specialize ⟨x, .one, .zero⟩ = ⟨x, .one, .zero⟩ :=
    specialize_constants (s := true) (t := false) hone hzero
  apply ite_of_reduce
  simp only [Choice.reduce, hone, hzero, if_false, hconst]
  rfl

/-- Between a constant and itself, a choice is the constant. -/
theorem ite_constant_self : ite x (constant b) (constant b) = pure (constant b) := by
  by_cases hone : x = .one
  · rw [hone]
    rfl
  by_cases hzero : x = .zero
  · rw [hzero]
    rfl
  apply ite_of_reduce
  simp only [Choice.reduce, hone, hzero, if_false, specialize_constants hone hzero, if_true]

theorem join_neutral_left : join b (constant b) x = pure x := by
  cases b <;> rfl

theorem join_neutral_right : join b x (constant b) = pure x := by
  cases b <;> exact ite_one_zero

theorem join_absorbing_left : join b (constant !b) x = pure (constant !b) := by
  cases b <;> rfl

theorem join_absorbing_right : join b x (constant !b) = pure (constant !b) := by
  cases b <;> exact ite_constant_self

end Build

end Diagram

/-! ### Conjunction and disjunction in one -/

namespace Formula

variable {r : Reading} {p b : Bool} {e f : Formula} {es : List Formula} {v : Sized}

/-- The conjunction of formulas, or their disjunction. -/
def join (b : Bool) (es : List Formula) : Formula :=
  if b then .and es else .or es

/-- The join without the operand `b`; one operand stands for itself, and the other constant absorbs all. -/
def mkJoin (b : Bool) (es : List Formula) : Formula :=
  if es.any (·.constant? == some !b) then .bool !b
  else
    match es.filter (·.constant? != some b) with
    | [] => .bool b
    | [e] => e
    | es => join b es

theorem mkAnd_eq_mkJoin : mkAnd es = mkJoin true es :=
  rfl

theorem mkOr_eq_mkJoin : mkOr es = mkJoin false es :=
  rfl

/-- What simplification leaves of a join: a constant that absorbs all operands, or those that are not neutral. -/
theorem mkJoin_cases (b : Bool) (es : List Formula) :
    Formula.bool (!b) ∈ es ∧ mkJoin b es = .bool !b ∨
      ∃ fs, fs = es.filter (·.constant? != some b) ∧
        (fs = [] ∧ mkJoin b es = .bool b ∨ fs = [mkJoin b es] ∨ mkJoin b es = join b fs) := by
  unfold mkJoin
  split
  · next h => exact .inl ⟨any_constant.mp h, rfl⟩
  · refine .inr ⟨_, rfl, ?_⟩
    split
    · next h => exact .inl ⟨h, rfl⟩
    · next h => exact .inr (.inl h)
    · exact .inr (.inr rfl)

/-! ### Values -/

theorem evaluates_join : (join b es).Evaluates r p (.bool b) ↔ ∀ e ∈ es, e.Evaluates r p (.bool b) := by
  cases b with
  | true => exact evaluates_and_true
  | false => exact evaluates_or_false

theorem evaluates_mkJoin : (mkJoin b es).Evaluates r p (.bool b) ↔ ∀ e ∈ es, e.Evaluates r p (.bool b) := by
  cases b with
  | true => exact evaluates_mkAnd_true
  | false => exact evaluates_mkOr_false

theorem exists_forall₂_iff {es : List Formula} {R : Formula → Bool → Prop} :
    (∃ ts, List.Forall₂ R es ts) ↔ ∀ e ∈ es, ∃ t, R e t := by
  induction es with
  | nil => simp
  | cons e es ih => 
      rw [List.forall_mem_cons, ← ih]
      constructor
      · rintro ⟨_, h⟩
        cases h with
        | cons he hes => exact ⟨⟨_, he⟩, _, hes⟩
      · rintro ⟨⟨t, he⟩, ts, hes⟩
        exact ⟨t :: ts, .cons he hes⟩

/-- A join has a value if its operands have truth values. -/
theorem exists_evaluates_join_iff :
    (∃ v, (join b es).Evaluates r p v) ↔ ∀ e ∈ es, ∃ t, e.Evaluates r p (.bool t) := by
  rw [← exists_forall₂_iff]
  cases b <;> simp [join]

theorem Evaluates.join_bool (h : (join b es).Evaluates r p v) : ∃ t, v = .bool t := by
  cases b with
  | true =>
      obtain ⟨ts, -, hv⟩ := evaluates_and.mp h
      exact ⟨_, hv⟩
  | false =>
      obtain ⟨ts, -, hv⟩ := evaluates_or.mp h
      exact ⟨_, hv⟩

theorem exists_evaluates_mkJoin (h : ∀ e ∈ es, ∃ t, e.Evaluates r p (.bool t)) :
    ∃ t, (mkJoin b es).Evaluates r p (.bool t) := by
  rcases mkJoin_cases b es with ⟨-, hmk⟩ | ⟨fs, rfl, ⟨-, hmk⟩ | hmk | hmk⟩
  · exact ⟨!b, hmk ▸ evaluates_bool.mpr rfl⟩
  · exact ⟨b, hmk ▸ evaluates_bool.mpr rfl⟩
  · exact h _ (List.mem_of_mem_filter (hmk ▸ List.mem_cons_self))
  · rw [hmk]
    obtain ⟨v, hv⟩ := exists_evaluates_join_iff.mpr fun e he => h e (List.mem_of_mem_filter he)
    obtain ⟨t, rfl⟩ := hv.join_bool
    exact ⟨t, hv⟩

/-- A join keeps its value: it is `b` exactly if all operands are, before and after. -/
theorem Evaluates.mkJoin (h : (join b es).Evaluates r p v) : (mkJoin b es).Evaluates r p v := by
  obtain ⟨s, rfl⟩ := h.join_bool
  obtain ⟨t, ht⟩ := exists_evaluates_mkJoin (b := b) (exists_evaluates_join_iff.mp ⟨_, h⟩)
  have hiff : s = b ↔ t = b := by
    constructor
    · rintro rfl
      exact Sized.bool.inj (ht.unique (evaluates_mkJoin.mpr (evaluates_join.mp h)))
    · rintro rfl
      exact Sized.bool.inj (h.unique (evaluates_join.mpr (evaluates_mkJoin.mp ht)))
  have hst : s = t := by
    cases s <;> cases t <;> cases b <;> simp_all
  exact hst ▸ ht

theorem Evaluates.mkNot (h : (Formula.not e).Evaluates r p v) : e.mkNot.Evaluates r p v := by
  obtain ⟨t, he, rfl⟩ := evaluates_not.mp h
  exact evaluates_mkNot.mpr (by rwa [Bool.not_not])

theorem mem_subformulas_mkJoin (hf : f.isOperator = false) (h : f ∈ (Formula.mkJoin b es).subformulas) :
    ∃ e ∈ es, f ∈ e.subformulas := by
  cases b with
  | true => exact mem_subformulas_mkAnd hf h
  | false => exact mem_subformulas_mkOr hf h

end Formula

/-! ### Encodings -/

namespace Bits

open Diagram.Build (constant)

variable {w w' : Workspace} {b : Bool} {e f : Formula} {es : List Formula} {x acc : Edge}

namespace Code

open Encode

/-- The join of `acc` with the formulas. -/
def joinFrom (b : Bool) (acc : Edge) (es : List Formula) : Encode Edge :=
  if b then conjoin acc es else disjoin acc es

theorem joinFrom_nil : joinFrom b acc [] = pure acc := by
  cases b <;> simp [joinFrom, conjoin, disjoin]

theorem joinFrom_cons : joinFrom b acc (e :: es) =
    (do
      let f ← encode e
      joinFrom b (← build (Diagram.Build.join b acc f)) es) := by
  cases b <;> simp [joinFrom, conjoin, disjoin, encode, Diagram.Build.join]

theorem build_pure {α : Type} {a : α} : build (pure a) = pure a :=
  rfl

theorem encode_bool {t : Bool} : encode (.bool t) = pure (constant t) := by
  simp [encode, ofFormula, asBool, constant]

theorem encode_join : encode (join b es) = joinFrom b (constant b) es := by
  cases b <;> simp [encode, join, joinFrom, ofFormula, asBool, constant]

/-- Neutral operands take no part in the joining. -/
theorem joinFrom_filter (b : Bool) (acc : Edge) (es : List Formula) :
    joinFrom b acc (es.filter (·.constant? != some b)) = joinFrom b acc es := by
  induction es generalizing acc with
  | nil => rfl
  | cons e es ih =>
      by_cases he : e.constant? = some b
      · rw [List.filter_cons_of_neg (by simp [he]), constant?_eq_some.mp he, joinFrom_cons, encode_bool, pure_bind,
          Diagram.Build.join_neutral_right, build_pure, pure_bind, ih]
      · rw [List.filter_cons_of_pos (by simpa using he), joinFrom_cons, joinFrom_cons]
        exact bind_congr fun f => bind_congr fun acc => ih acc

/-- Once absorbed, joining ends with the absorbing constant, if it ends with a result. -/
theorem meets_joinFrom_absorbed (w : Workspace) (es : List Formula) :
    Meets (joinFrom b (constant !b) es) w (fun x _ => x = constant !b) fun _ _ => True := by
  induction es generalizing w with
  | nil => rw [joinFrom_nil, meets_pure]
  | cons e es ih =>
      rw [joinFrom_cons, meets_bind]
      refine meets_of_forall (fun f w' => ?_) fun _ _ => trivial
      rw [Diagram.Build.join_absorbing_left, build_pure, pure_bind]
      exact ih w'

theorem meets_joinFrom_of_mem (h : Formula.bool (!b) ∈ es) (w : Workspace) :
    Meets (joinFrom b acc es) w (fun x _ => x = constant !b) fun _ _ => True := by
  induction es generalizing w acc with
  | nil => exact nomatch h
  | cons e es ih =>
      rw [joinFrom_cons]
      rcases List.mem_cons.mp h with rfl | h
      · rw [encode_bool, pure_bind, Diagram.Build.join_absorbing_right, build_pure, pure_bind]
        exact meets_joinFrom_absorbed w es
      · rw [meets_bind]
        refine meets_of_forall (fun f w' => ?_) fun _ _ => trivial
        rw [meets_bind]
        exact meets_of_forall (fun acc w' => ih h w') fun _ _ => trivial

/-- A join that is not absorbed is encoded in the same steps after it is simplified. -/
theorem encode_mkJoin_cases (b : Bool) (es : List Formula) :
    Formula.bool (!b) ∈ es ∧ mkJoin b es = .bool (!b) ∨ encode (mkJoin b es) = encode (join b es) := by
  rcases mkJoin_cases b es with h | ⟨fs, rfl, h⟩
  · exact .inl h
  · right
    rw [encode_join, ← joinFrom_filter]
    rcases h with ⟨hnil, hmk⟩ | hone | hmk
    · rw [hmk, hnil, joinFrom_nil, encode_bool]
    · rw [hone, joinFrom_cons]
      simp [Diagram.Build.join_neutral_left, build_pure, joinFrom_nil]
    · rw [hmk, encode_join]

theorem encode_not : encode (.not e) = Edge.not <$> encode e := by
  simp [encode, ofFormula, asBool]

/-- A negation is encoded in the same steps after it is simplified. -/
theorem encode_mkNot (e : Formula) : encode e.mkNot = encode (.not e) := by
  cases e with
  | bool t =>
      rw [encode_not, encode_bool, map_pure, mkNot, encode_bool]
      cases t <;> rfl
  | not e =>
      rw [encode_not, encode_not, Functor.map_map, mkNot]
      simp only [Edge.not_involutive _, id_map']
  | _ => rfl

end Code

/-- A formula that keeps the values of a represented one is represented, too. -/
theorem Represents.of_evaluates (h : Represents w e (.bool x))
    (heval : ∀ r p v, e.Evaluates r p v → f.Evaluates r p v)
    (hsym : ∀ s, .sym s ∈ f.subformulas → .sym s ∈ e.subformulas) : Represents w f (.bool x) where
  within := h.within
  allotted s hs := h.allotted s (hsym s hs)
  value ρ := heval _ _ _ (h.value ρ)

/-- What is represented is encoded to the same edge. -/
theorem Represents.meets_encode (h : Represents w e (.bool x)) (hw : w.Valid) :
    Meets (encode e) w (fun y w' => y = x ∧ w.Grows w') fun _ _ => False := by
  refine (Bits.meets_encode hw).mono ?_ ?_
  · rintro y w' ⟨hg, hy⟩
    have hx := h.grows hw hg
    refine ⟨hy.denotes.eq hg.valid.manager (hx.denotes.congr fun ρ => ?_), hg⟩
    exact Sized.bool.inj ((hx.value ρ).unique (hy.value ρ))
  · rintro cause w' ⟨hg, herr⟩
    cases ((h.grows hw hg).evaluateBool fun _ => false).symm.trans (herr fun _ => false)

/-! ### Simplified formulas -/

/-- What a formula may do in place of another one: it has the value of that one over every state and every step at which
that one has a value, the edge of that one in every workspace in which that one is encoded, then and later, and no
variables and symbols but those of the operands. -/
structure Simplifies (plain simple : Formula) : Prop where
  eval : ∀ s v, plain.eval s = .ok v → simple.eval s = .ok v
  evalStep : ∀ s t v, plain.evalStep s t = .ok v → simple.evalStep s t = .ok v
  encode : ∀ w x w', (encode plain).run.run w = (.ok x, w') → ∃ w'', (Bits.encode simple).run.run w = (.ok x, w'')
  encodeLater : ∀ w x w' w'', w.Valid → (Bits.encode plain).run.run w = (.ok x, w') → w'.Grows w'' →
    ∃ w₃, (Bits.encode simple).run.run w'' = (.ok x, w₃)
  vars : ∀ y ∈ simple.vars.elements, ∃ d ∈ plain.children, y ∈ d.vars.elements
  symbols : ∀ s ∈ simple.symbols.elements, ∃ d ∈ plain.children, s ∈ d.symbols.elements

theorem simplifies_of {plain simple : Formula} (heval : ∀ r p v, plain.Evaluates r p v → simple.Evaluates r p v)
    (hencode : ∀ w x w', (encode plain).run.run w = (.ok x, w') → ∃ w'', (encode simple).run.run w = (.ok x, w''))
    (hleaf : ∀ f, f.isOperator = false → f ∈ simple.subformulas → ∃ d ∈ plain.children, f ∈ d.subformulas) :
    Simplifies plain simple where
  eval s v h := by
    obtain ⟨u, hu, hv⟩ := eval_eq_ok.mp h
    exact eval_eq_ok.mpr ⟨u, heval _ _ _ hu, hv⟩
  evalStep s t v h := by
    obtain ⟨u, hu, hv⟩ := evalStep_eq_ok.mp h
    exact evalStep_eq_ok.mpr ⟨u, heval _ _ _ hu, hv⟩
  encode := hencode
  encodeLater w x w' w'' hw hrun hg := by
    obtain ⟨hgrows, hplain⟩ := (meets_encode hw).of_run_ok hrun
    have hsimple := hplain.of_evaluates heval fun s hs => by
      obtain ⟨d, hd, hs⟩ := hleaf _ rfl hs
      exact mem_subformulas_of_child hd hs
    obtain ⟨y, w₃, hy, rfl, -⟩ := ((hsimple.grows hgrows.valid hg).meets_encode hg.valid).exists_ok
    exact ⟨w₃, hy⟩
  vars y hy := by
    obtain ⟨d, hd, hy⟩ := hleaf _ rfl (mem_vars.mp hy)
    exact ⟨d, hd, mem_vars.mpr hy⟩
  symbols s hs := by
    obtain ⟨d, hd, hs⟩ := hleaf _ rfl (mem_symbols.mp hs)
    exact ⟨d, hd, mem_symbols.mpr hs⟩

theorem simplifies_mkNot (e : Formula) : Simplifies (.not e) e.mkNot := by
  refine simplifies_of (fun r p v h => h.mkNot) (fun w x w' h => ⟨w', ?_⟩) fun f hf hmem => ?_
  · rw [Code.encode_mkNot, h]
  · exact ⟨e, List.mem_cons_self, mem_subformulas_mkNot hf hmem⟩

theorem simplifies_mkJoin (b : Bool) (es : List Formula) : Simplifies (join b es) (mkJoin b es) := by
  have hchildren : (join b es).children = es := by cases b <;> rfl
  refine simplifies_of (fun r p v h => h.mkJoin) (fun w x w' h => ?_) fun f hf hmem => ?_
  · rcases Code.encode_mkJoin_cases b es with ⟨habsorbed, hmk⟩ | hsame
    · rw [Code.encode_join] at h
      have hx := (Code.meets_joinFrom_of_mem habsorbed w).of_run_ok h
      rw [hmk, Code.encode_bool, hx]
      exact ⟨w, rfl⟩
    · rw [hsame]
      exact ⟨w', h⟩
  · rw [hchildren]
    exact mem_subformulas_mkJoin hf hmem

/-- The constructors that simplify may stand in place of the plain ones. The plain ones may not stand in their place: an
operand that was absorbed need not have a value. -/
theorem constructors_simplify (e : Formula) (es : List Formula) :
    Simplifies (.not e) e.mkNot ∧ Simplifies (.and es) (mkAnd es) ∧ Simplifies (.or es) (mkOr es) := by
  rw [mkAnd_eq_mkJoin, mkOr_eq_mkJoin]
  exact ⟨simplifies_mkNot e, simplifies_mkJoin true es, simplifies_mkJoin false es⟩

end Bits

end Invariance
