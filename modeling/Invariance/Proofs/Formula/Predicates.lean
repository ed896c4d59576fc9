import Invariance.Proofs.Formula.Kinds

/-!
Predicates: well-sorted boolean formulas over symbols, which are true or false under every assignment. The
constructors that simplify keep their meaning, and a predicate looks at its own symbols alone.
-/

namespace Invariance

namespace Formula

variable {r : Reading} {p : Bool} {e f : Formula} {es : List Formula} {t : Bool} {v : Sized}

/-! ### Constructors that simplify -/

theorem evaluates_mkNot : e.mkNot.Evaluates r p (.bool t) ↔ e.Evaluates r p (.bool !t) := by
  cases e with
  | bool b => cases b <;> cases t <;> simp [mkNot]
  | not e => simp [mkNot]
  | _ =>
      rw [mkNot, evaluates_not]
      · cases t <;> simp
      all_goals simp

theorem constant?_eq_some : e.constant? = some t ↔ e = .bool t := by
  cases e <;> simp [constant?]

theorem evaluates_and_true :
    (Formula.and es).Evaluates r p (.bool true) ↔ ∀ e ∈ es, e.Evaluates r p (.bool true) := by
  rw [evaluates_and]
  induction es with
  | nil => simp
  | cons e es ih =>
      simp only [List.forall₂_cons_left_iff, List.forall_mem_cons, ← ih]
      constructor
      · rintro ⟨_, ⟨t, ts, he, hes, rfl⟩, ht⟩
        rw [Sized.bool.injEq, List.all_cons, eq_comm, Bool.and_eq_true] at ht
        obtain ⟨rfl, hts⟩ := ht
        exact ⟨he, ts, hes, by rw [hts]⟩
      · rintro ⟨he, ts, hes, ht⟩
        rw [Sized.bool.injEq] at ht
        exact ⟨true :: ts, ⟨true, ts, he, hes, rfl⟩, by rw [List.all_cons, ← ht]; rfl⟩

theorem evaluates_or_false :
    (Formula.or es).Evaluates r p (.bool false) ↔ ∀ e ∈ es, e.Evaluates r p (.bool false) := by
  rw [evaluates_or]
  induction es with
  | nil => simp
  | cons e es ih =>
      simp only [List.forall₂_cons_left_iff, List.forall_mem_cons, ← ih]
      constructor
      · rintro ⟨_, ⟨t, ts, he, hes, rfl⟩, ht⟩
        rw [Sized.bool.injEq, List.any_cons, eq_comm, Bool.or_eq_false_iff] at ht
        obtain ⟨rfl, hts⟩ := ht
        exact ⟨he, ts, hes, by rw [hts]⟩
      · rintro ⟨he, ts, hes, ht⟩
        rw [Sized.bool.injEq] at ht
        exact ⟨false :: ts, ⟨false, ts, he, hes, rfl⟩, by rw [List.any_cons, ← ht]; rfl⟩

private theorem forall_filter (es : List Formula) {P : Formula → Prop} (hP : P (.bool t)) :
    (∀ e ∈ es.filter (·.constant? != some t), P e) ↔ ∀ e ∈ es, P e := by
  simp only [List.mem_filter, bne_iff_ne, ne_eq, constant?_eq_some, and_imp]
  refine ⟨fun h e he => ?_, fun h e he _ => h e he⟩
  by_cases heq : e = .bool t
  · rwa [heq]
  · exact h e he heq

theorem any_constant : es.any (·.constant? == some t) ↔ .bool t ∈ es := by
  simp [constant?_eq_some]

theorem evaluates_mkAnd_true :
    (mkAnd es).Evaluates r p (.bool true) ↔ ∀ e ∈ es, e.Evaluates r p (.bool true) := by
  unfold mkAnd
  split
  · next h =>
      refine iff_of_false (by simp) fun hall => ?_
      have := hall _ (any_constant.mp h)
      simp at this
  · rw [← forall_filter (t := true) es (by simp)]
    split
    · next h => simp [h]
    · next h => simp [h]
    · exact evaluates_and_true

theorem evaluates_mkOr_false :
    (mkOr es).Evaluates r p (.bool false) ↔ ∀ e ∈ es, e.Evaluates r p (.bool false) := by
  unfold mkOr
  split
  · next h =>
      refine iff_of_false (by simp) fun hall => ?_
      have := hall _ (any_constant.mp h)
      simp at this
  · rw [← forall_filter (t := false) es (by simp)]
    split
    · next h => simp [h]
    · next h => simp [h]
    · exact evaluates_or_false

theorem HasKind.mkNot (h : e.HasKind .bool) : e.mkNot.HasKind .bool := by
  cases e with
  | bool b => exact .bool _
  | not e =>
      cases h with
      | not h => exact h
  | _ => exact .not h

theorem HasKind.mkAnd (h : ∀ e ∈ es, e.HasKind .bool) : (Formula.mkAnd es).HasKind .bool := by
  have hfilter : ∀ e ∈ es.filter (·.constant? != some true), e.HasKind .bool :=
    fun e he => h e (List.mem_of_mem_filter he)
  unfold Formula.mkAnd
  split
  · exact .bool false
  · split
    · exact .bool true
    · next heq => exact hfilter _ (heq ▸ List.mem_cons_self)
    · exact .and hfilter

theorem HasKind.mkOr (h : ∀ e ∈ es, e.HasKind .bool) : (Formula.mkOr es).HasKind .bool := by
  have hfilter : ∀ e ∈ es.filter (·.constant? != some false), e.HasKind .bool :=
    fun e he => h e (List.mem_of_mem_filter he)
  unfold Formula.mkOr
  split
  · exact .bool true
  · split
    · exact .bool false
    · next heq => exact hfilter _ (heq ▸ List.mem_cons_self)
    · exact .or hfilter

section Leaves

variable (hf : f.isOperator = false)

include hf

theorem mem_subformulas_mkNot (h : f ∈ e.mkNot.subformulas) : f ∈ e.subformulas := by
  cases e with
  | bool b =>
      cases List.mem_singleton.mp h
      cases hf
  | not e => exact mem_subformulas_of_child (c := e) List.mem_cons_self h
  | _ =>
      obtain ⟨c, hc, hmem⟩ := mem_children_of_isOperator rfl h hf
      cases List.mem_singleton.mp hc
      exact hmem

theorem mem_subformulas_mkAnd (h : f ∈ (mkAnd es).subformulas) : ∃ e ∈ es, f ∈ e.subformulas := by
  have hbool : ∀ b, f ∉ (Formula.bool b).subformulas := fun b hb => by
    cases List.mem_singleton.mp hb
    cases hf
  unfold mkAnd at h
  split at h
  · exact absurd h (hbool _)
  · split at h
    · exact absurd h (hbool _)
    · next heq => exact ⟨_, List.mem_of_mem_filter (heq ▸ List.mem_cons_self), h⟩
    · obtain ⟨c, hc, hmem⟩ := mem_children_of_isOperator rfl h hf
      exact ⟨c, List.mem_of_mem_filter hc, hmem⟩

theorem mem_subformulas_mkOr (h : f ∈ (mkOr es).subformulas) : ∃ e ∈ es, f ∈ e.subformulas := by
  have hbool : ∀ b, f ∉ (Formula.bool b).subformulas := fun b hb => by
    cases List.mem_singleton.mp hb
    cases hf
  unfold mkOr at h
  split at h
  · exact absurd h (hbool _)
  · split at h
    · exact absurd h (hbool _)
    · next heq => exact ⟨_, List.mem_of_mem_filter (heq ▸ List.mem_cons_self), h⟩
    · obtain ⟨c, hc, hmem⟩ := mem_children_of_isOperator rfl h hf
      exact ⟨c, List.mem_of_mem_filter hc, hmem⟩

end Leaves

/-! ### Predicates -/

/-- A well-sorted boolean formula over symbols in `U`. -/
structure Predicate (U : Symbol → Prop) (e : Formula) : Prop where
  bool : e.HasKind .bool
  timed : e.Timed
  symbols : ∀ s, .sym s ∈ e.subformulas → U s

variable {U V : Symbol → Prop} {σ τ : Assignment}

theorem Predicate.mono (h : e.Predicate U) (hUV : ∀ s, U s → V s) : e.Predicate V :=
  ⟨h.bool, h.timed, fun s hs => hUV s (h.symbols s hs)⟩

theorem Predicate.weaken (h : e.Predicate U) : e.Predicate fun _ => True :=
  h.mono fun _ _ => trivial

theorem Predicate.mkNot (h : e.Predicate U) : e.mkNot.Predicate U where
  bool := h.bool.mkNot
  timed := ⟨fun x hx => h.timed.1 x (mem_subformulas_mkNot rfl hx),
    fun f hf => h.timed.2 f (mem_subformulas_mkNot rfl hf)⟩
  symbols s hs := h.symbols s (mem_subformulas_mkNot rfl hs)

theorem Predicate.mkAnd (h : ∀ e ∈ es, e.Predicate U) : (Formula.mkAnd es).Predicate U where
  bool := .mkAnd fun e he => (h e he).bool
  timed := by
    constructor <;> intro f hf
    · obtain ⟨e, he, hf⟩ := mem_subformulas_mkAnd rfl hf
      exact (h e he).timed.1 f hf
    · obtain ⟨e, he, hf⟩ := mem_subformulas_mkAnd rfl hf
      exact (h e he).timed.2 f hf
  symbols s hs := by
    obtain ⟨e, he, hs⟩ := mem_subformulas_mkAnd rfl hs
    exact (h e he).symbols s hs

theorem Predicate.mkOr (h : ∀ e ∈ es, e.Predicate U) : (Formula.mkOr es).Predicate U where
  bool := .mkOr fun e he => (h e he).bool
  timed := by
    constructor <;> intro f hf
    · obtain ⟨e, he, hf⟩ := mem_subformulas_mkOr rfl hf
      exact (h e he).timed.1 f hf
    · obtain ⟨e, he, hf⟩ := mem_subformulas_mkOr rfl hf
      exact (h e he).timed.2 f hf
  symbols s hs := by
    obtain ⟨e, he, hs⟩ := mem_subformulas_mkOr rfl hs
    exact (h e he).symbols s hs

theorem Predicate.ite {g : Formula} (he : e.Predicate U) (hf : f.Predicate U) (hg : g.Predicate U) :
    (Formula.ite e f g).Predicate U := by
  have hall : ∀ c ∈ (Formula.ite e f g).children, c.Predicate U := by simp [children, he, hf, hg]
  refine ⟨.iteBool he.bool hf.bool hg.bool, timed_of_children rfl fun c hc => (hall c hc).timed, fun s hs => ?_⟩
  obtain ⟨c, hc, hs⟩ := mem_children_of_isOperator rfl hs rfl
  exact (hall c hc).symbols s hs

/-- A predicate is true or false. -/
theorem Predicate.evaluates (h : e.Predicate U) (σ : Assignment) :
    ∃ t, e.Evaluates σ.reading true (.bool t) :=
  Sized.exists_bool (h.bool.evaluates h.timed)

theorem Predicate.evaluates_false_iff (h : e.Predicate U) :
    e.Evaluates σ.reading true (.bool false) ↔ ¬ σ.Satisfies e := by
  obtain ⟨t, ht⟩ := h.evaluates σ
  constructor
  · intro hfalse htrue
    cases hfalse.unique htrue
  · intro hnot
    cases t with
    | true => exact absurd ht hnot
    | false => exact ht

theorem predicate_of_evaluates {t : Bool} (h : e.Evaluates σ.reading true (.bool t))
    (hU : ∀ s, .sym s ∈ e.subformulas → U s) : e.Predicate U := by
  obtain ⟨k, hk, hb⟩ := h.hasKind
  cases hb
  exact ⟨hk, h.timed, hU⟩

end Formula

namespace Assignment

open Formula

variable {σ τ : Assignment} {e : Formula} {es : List Formula} {g : Variable → Nat → Nat}
variable {U : Symbol → Prop}

theorem satisfies_iff_of_evaluates {t : Bool} (h : e.Evaluates σ.reading true (.bool t)) : σ.Satisfies e ↔ t = true := by
  constructor
  · exact fun hsat => Sized.bool.inj (h.unique hsat)
  · rintro rfl
    exact h

/-- The assignments give the symbols of the formula the same values. -/
def Agree (σ τ : Assignment) (e : Formula) : Prop :=
  ∀ s, .sym s ∈ e.subformulas → σ s.base s.generation = τ s.base s.generation

/-- A formula looks at its own symbols alone. -/
theorem evaluates_congr {v : Sized} (he : e.Timed) (h : σ.Agree τ e) :
    e.Evaluates σ.reading true v ↔ e.Evaluates τ.reading true v := by
  have hmatch : Matches Eq τ.reading σ.reading (fun _ m => m) true 0 e := {
    sym := fun s hs => by
      show Except.ok (Sized.ofValue (τ s.base s.generation).1 s.domain) = .ok (.ofValue _ s.domain)
      rw [← h s hs]
    var := fun x hx => absurd hx (he.1 x)
    next := fun x hx => absurd hx (he.1 x)
    prime := fun f hf => absurd hf (he.2 f) }
  have hret : (e.retime fun _ m => m).Evaluates σ.reading true v ↔ e.Evaluates τ.reading true v :=
    evaluates_retimeFrom hmatch
  rwa [retime_id he] at hret

theorem satisfies_congr (he : e.Timed) (h : σ.Agree τ e) : σ.Satisfies e ↔ τ.Satisfies e :=
  evaluates_congr he h

theorem satisfies_retime (he : e.Timed) : σ.Satisfies (e.retime g) ↔ (σ.retime g).Satisfies e :=
  evaluates_retime he

theorem satisfies_mkNot (he : e.Predicate U) : σ.Satisfies e.mkNot ↔ ¬ σ.Satisfies e := by
  rw [← he.evaluates_false_iff, Satisfies, evaluates_mkNot]
  rfl

@[simp] theorem satisfies_mkAnd : σ.Satisfies (mkAnd es) ↔ ∀ e ∈ es, σ.Satisfies e :=
  evaluates_mkAnd_true

theorem satisfies_mkOr (hes : ∀ e ∈ es, e.Predicate U) :
    σ.Satisfies (mkOr es) ↔ ∃ e ∈ es, σ.Satisfies e := by
  rw [← not_iff_not, ← (Predicate.mkOr hes).evaluates_false_iff, evaluates_mkOr_false]
  simp only [not_exists, not_and]
  exact forall₂_congr fun e he => (hes e he).evaluates_false_iff

theorem satisfies_ite {f g : Formula} (he : e.Predicate U) (hf : f.Predicate U) (hg : g.Predicate U) :
    σ.Satisfies (.ite e f g) ↔ (σ.Satisfies e → σ.Satisfies f) ∧ (¬ σ.Satisfies e → σ.Satisfies g) := by
  obtain ⟨a, ha⟩ := he.evaluates σ
  obtain ⟨b, hb⟩ := hf.evaluates σ
  obtain ⟨c, hc⟩ := hg.evaluates σ
  have hvalue : (Formula.ite e f g).Evaluates σ.reading true (.bool (if a then b else c)) :=
    evaluates_ite.mpr (.inl ⟨a, b, c, ha, hb, hc, rfl⟩)
  rw [satisfies_iff_of_evaluates hvalue, satisfies_iff_of_evaluates ha, satisfies_iff_of_evaluates hb,
    satisfies_iff_of_evaluates hc]
  cases a <;> simp

end Assignment

theorem Formula.Predicate.retime {U V : Symbol → Prop} {e : Formula} {g : Variable → Nat → Nat}
    (h : e.Predicate U) (hUV : ∀ s, U s → V ⟨s.base, g s.base s.generation⟩) : (e.retime g).Predicate V where
  bool := h.bool.retimeFrom
  timed := retime_timed
  symbols s hs := by
    obtain ⟨m, hm, hg⟩ := exists_of_sym_mem_retime h.timed hs
    have := hUV _ (h.symbols _ hm)
    rwa [← hg] at this

end Invariance
