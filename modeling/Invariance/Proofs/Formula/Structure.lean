import Invariance.Formula.Timed
import Invariance.Proofs.Clocks

/-!
Induction over formulas, what occurs in a formula, and the change of times in it. A variable under `n` primes
is read as its symbol `n` generations after the origin; unfolding at a clock and folding are changes of times.
-/

namespace Invariance.Formula

/-- Induction over a formula, with the hypothesis for each operand of a conjunction or disjunction. -/
@[elab_as_elim, induction_eliminator]
theorem induct {P : Formula → Prop} (bool : ∀ b, P (.bool b)) (int : ∀ v, P (.int v))
    (var : ∀ x, P (.var x)) (prime : ∀ e, P e → P (.prime e)) (sym : ∀ s, P (.sym s))
    (not : ∀ e, P e → P (.not e)) (and : ∀ es, (∀ e ∈ es, P e) → P (.and es))
    (or : ∀ es, (∀ e ∈ es, P e) → P (.or es)) (imply : ∀ a b, P a → P b → P (.imply a b))
    (ite : ∀ c t e, P c → P t → P e → P (.ite c t e)) (add : ∀ a b, P a → P b → P (.add a b))
    (sub : ∀ a b, P a → P b → P (.sub a b)) (neg : ∀ e, P e → P (.neg e))
    (eq : ∀ a b, P a → P b → P (.eq a b)) (lt : ∀ a b, P a → P b → P (.lt a b))
    (le : ∀ a b, P a → P b → P (.le a b)) (bit : ∀ e i, P e → P (.bit e i)) (e : Formula) : P e := by
  refine @Formula.rec P (fun es => ∀ e ∈ es, P e) bool int var prime sym not and or imply ite add sub neg
    eq lt le bit ?_ ?_ e
  · exact fun _ h => nomatch h
  · intro a es ha hes e he
    rcases List.mem_cons.mp he with rfl | he
    · exact ha
    · exact hes e he

/-- Is the formula made of its children, without being a variable, a prime or a symbol? -/
def isOperator : Formula → Bool
  | .var _ | .prime _ | .sym _ => false
  | _ => true

/-- Induction by what matters for times: variables, primes, symbols, and all other formulas by their children. -/
@[elab_as_elim]
theorem inductTimes {P : Formula → Prop} (var : ∀ x, P (.var x)) (prime : ∀ e, P e → P (.prime e))
    (sym : ∀ s, P (.sym s)) (operator : ∀ e, e.isOperator → (∀ c ∈ e.children, P c) → P e)
    (e : Formula) : P e := by
  induction e with
  | var x => exact var x
  | prime e ih => exact prime e ih
  | sym s => exact sym s
  | and es ih | or es ih => exact operator _ rfl ih
  | _ => exact operator _ rfl (by simp_all [children])

/-! ### What occurs in a formula -/

attribute [local simp] subformulas subformulasList children isOperator

variable {e f : Formula}

@[simp] theorem mem_subformulasList {es : List Formula} :
    f ∈ subformulasList es ↔ ∃ e ∈ es, f ∈ e.subformulas := by
  induction es with
  | nil => simp [subformulasList]
  | cons e es ih => simp [subformulasList, ih]

theorem mem_subformulas_iff : f ∈ e.subformulas ↔ f = e ∨ ∃ c ∈ e.children, f ∈ c.subformulas := by
  cases e <;> simp [subformulas, children]

/-- A formula comes before what is below its children, left to right. -/
theorem subformulas_eq (e : Formula) : e.subformulas = e :: e.children.flatMap subformulas := by
  have hlist : ∀ es, subformulasList es = es.flatMap subformulas := fun es => by
    induction es with
    | nil => rfl
    | cons e es ih => rw [subformulasList, ih, List.flatMap_cons]
  cases e <;> simp [hlist]

theorem self_mem_subformulas (e : Formula) : e ∈ e.subformulas :=
  mem_subformulas_iff.mpr (.inl rfl)

theorem mem_subformulas_of_child {c : Formula} (hc : c ∈ e.children) (hf : f ∈ c.subformulas) :
    f ∈ e.subformulas :=
  mem_subformulas_iff.mpr (.inr ⟨c, hc, hf⟩)

theorem mem_vars {x : Variable} : x ∈ e.vars.elements ↔ .var x ∈ e.subformulas := by
  rw [vars, SortedSet.mem_elements_ofList, List.mem_filterMap]
  constructor
  · rintro ⟨f, hf, hx⟩
    cases f <;> cases hx
    exact hf
  · exact fun h => ⟨_, h, rfl⟩

theorem mem_symbols {s : Symbol} : s ∈ e.symbols.elements ↔ .sym s ∈ e.subformulas := by
  rw [symbols, SortedSet.mem_elements_ofList, List.mem_filterMap]
  constructor
  · rintro ⟨f, hf, hs⟩
    cases f <;> cases hs
    exact hf
  · exact fun h => ⟨_, h, rfl⟩

/-- No symbol occurs. -/
def SymbolFree (e : Formula) : Prop :=
  ∀ s, .sym s ∉ e.subformulas

/-- No prime occurs. -/
def PrimeFree (e : Formula) : Prop :=
  ∀ f, .prime f ∉ e.subformulas

/-- No prime stands below a prime. -/
def SingleStep (e : Formula) : Prop :=
  ∀ f, .prime f ∈ e.subformulas → f.PrimeFree

/-- Only symbols occur, and neither variables nor primes. -/
def Timed (e : Formula) : Prop :=
  (∀ x, .var x ∉ e.subformulas) ∧ e.PrimeFree

theorem isUnindexed_eq_false_iff : e.isUnindexed = false ↔ e.Timed := by
  rw [isUnindexed, List.any_eq_false]
  constructor
  · exact fun h => ⟨fun x hx => h _ hx rfl, fun f hf => h _ hf rfl⟩
  · rintro ⟨hvar, hprime⟩ f hf
    cases f with
    | var x => exact absurd hf (hvar x)
    | prime f => exact absurd hf (hprime f)
    | _ => simp [isStateful]

section Children

variable {c : Formula}

theorem SymbolFree.child (h : e.SymbolFree) (hc : c ∈ e.children) : c.SymbolFree :=
  fun s hs => h s (mem_subformulas_of_child hc hs)

theorem PrimeFree.child (h : e.PrimeFree) (hc : c ∈ e.children) : c.PrimeFree :=
  fun f hf => h f (mem_subformulas_of_child hc hf)

theorem SingleStep.child (h : e.SingleStep) (hc : c ∈ e.children) : c.SingleStep :=
  fun f hf => h f (mem_subformulas_of_child hc hf)

theorem Timed.child (h : e.Timed) (hc : c ∈ e.children) : c.Timed :=
  ⟨fun x hx => h.1 x (mem_subformulas_of_child hc hx), h.2.child hc⟩

end Children

theorem mem_children_of_isOperator (h : e.isOperator) (hf : f ∈ e.subformulas) (hop : f.isOperator = false) :
    ∃ c ∈ e.children, f ∈ c.subformulas := by
  rcases mem_subformulas_iff.mp hf with rfl | hc
  · rw [h] at hop
    cases hop
  · exact hc

theorem timed_of_children (hop : e.isOperator) (h : ∀ c ∈ e.children, c.Timed) : e.Timed := by
  constructor
  · intro x hx
    obtain ⟨c, hc, hx⟩ := mem_children_of_isOperator hop hx rfl
    exact (h c hc).1 x hx
  · intro f hf
    obtain ⟨c, hc, hf⟩ := mem_children_of_isOperator hop hf rfl
    exact (h c hc).2 f hf

/-! ### Rebuilding a formula from its children -/

/-- The formula with a function applied to each direct subformula. -/
def mapChildren (f : Formula → Formula) (e : Formula) : Formula :=
  Id.run (e.mapChildrenM fun c => pure (f c))

attribute [local simp] mapChildren mapChildrenM

section MapChildren

variable {F G : Formula → Formula}

theorem mapM_eq_ok {α β ε : Type} {p : α → Except ε β} {q : α → β} {l : List α} (h : ∀ a ∈ l, p a = .ok (q a)) :
    l.mapM p = .ok (l.map q) := by
  induction l with
  | nil => rfl
  | cons a l ih =>
      rw [List.mapM_cons, h a List.mem_cons_self, ih fun b hb => h b (List.mem_cons_of_mem _ hb)]
      rfl

theorem exists_of_mapM_eq_ok {α β ε : Type} {p : α → Except ε β} {l : List α} {r : List β}
    (h : l.mapM p = .ok r) : ∀ a ∈ l, ∃ b, p a = .ok b := by
  induction l generalizing r with
  | nil => exact fun _ ha => nomatch ha
  | cons a l ih =>
      rw [List.mapM_cons] at h
      cases ha : p a with
      | error => simp [ha, bind, Except.bind] at h
      | ok b =>
          cases hl : l.mapM p with
          | error => simp [ha, hl, bind, Except.bind] at h
          | ok bs =>
              intro c hc
              rcases List.mem_cons.mp hc with rfl | hc
              · exact ⟨b, ha⟩
              · exact ih hl c hc

theorem exists_of_mapM_eq_error {α β ε : Type} {p : α → Except ε β} {l : List α} {x : ε}
    (h : l.mapM p = .error x) : ∃ a ∈ l, p a = .error x := by
  induction l with
  | nil => cases h
  | cons a l ih =>
      rw [List.mapM_cons] at h
      cases ha : p a with
      | error y =>
          rw [ha] at h
          cases h
          exact ⟨a, List.mem_cons_self, ha⟩
      | ok b =>
          cases hl : l.mapM p with
          | error y =>
              rw [ha, hl] at h
              cases h
              obtain ⟨c, hc, hx⟩ := ih hl
              exact ⟨c, List.mem_cons_of_mem _ hc, hx⟩
          | ok bs =>
              rw [ha, hl] at h
              cases h

theorem length_of_mapM_eq_ok {α β ε : Type} {p : α → Except ε β} {l : List α} {r : List β}
    (h : l.mapM p = .ok r) : r.length = l.length := by
  induction l generalizing r with
  | nil =>
      cases h
      rfl
  | cons a l ih =>
      rw [List.mapM_cons] at h
      cases ha : p a with
      | error => simp [ha, bind, Except.bind] at h
      | ok b =>
          cases hl : l.mapM p with
          | error => simp [ha, hl, bind, Except.bind] at h
          | ok s =>
              simp only [ha, hl, bind, Except.bind, pure, Except.pure, Except.ok.injEq] at h
              rw [← h, List.length_cons, List.length_cons, ih hl]

theorem children_mapChildren (e : Formula) : (e.mapChildren F).children = e.children.map F := by
  cases e <;> simp [mapChildren, mapChildrenM, children]

theorem isOperator_mapChildren (h : e.isOperator) : (e.mapChildren F).isOperator := by
  cases e <;> simp_all [mapChildren, mapChildrenM, isOperator]

theorem mapChildren_mapChildren (e : Formula) :
    (e.mapChildren F).mapChildren G = e.mapChildren fun c => G (F c) := by
  cases e <;> simp [mapChildren, mapChildrenM]

theorem mapChildren_congr (h : ∀ c ∈ e.children, F c = G c) : e.mapChildren F = e.mapChildren G := by
  cases e <;> simp_all [mapChildren, mapChildrenM, children]

theorem mapChildren_id (e : Formula) : e.mapChildren id = e := by
  cases e <;> simp [mapChildren, mapChildrenM]

theorem mapChildrenM_mapChildren {ε : Type} {p : Formula → Except ε Formula} :
    (e.mapChildren F).mapChildrenM p = e.mapChildrenM fun c => p (F c) := by
  cases e <;> simp [mapChildren, mapChildrenM, List.mapM_map, Function.comp_def]

theorem mapChildrenM_eq_ok {ε : Type} {p : Formula → Except ε Formula} (h : ∀ c ∈ e.children, p c = .ok (F c)) :
    e.mapChildrenM p = .ok (e.mapChildren F) := by
  cases e with
  | and es | or es =>
      simp only [mapChildrenM, mapM_eq_ok (l := es) h, mapChildren, List.mapM_pure]
      rfl
  | _ =>
      simp_all [mapChildren, mapChildrenM, children, bind, Except.bind, pure, Except.pure]
      rfl

theorem exists_of_mapChildrenM_eq_ok {ε : Type} {p : Formula → Except ε Formula}
    (h : e.mapChildrenM p = .ok f) : ∀ c ∈ e.children, ∃ d, p c = .ok d := by
  cases e with
  | and es | or es =>
      cases hes : es.mapM p with
      | error => simp [mapChildrenM, hes, bind, Except.bind] at h
      | ok fs => exact exists_of_mapM_eq_ok hes
  | bool | int | var | sym => simp [children]
  | prime e | not e | neg e | bit e =>
      cases he : p e <;> simp_all [mapChildrenM, children, bind, Except.bind]
  | imply a b | add a b | sub a b | eq a b | lt a b | le a b =>
      cases ha : p a <;> cases hb : p b <;> simp_all [mapChildrenM, children, bind, Except.bind]
  | ite c t e =>
      cases hc : p c <;> cases ht : p t <;> cases he : p e <;>
        simp_all [mapChildrenM, children, bind, Except.bind]

/-- A formula is not rebuilt exactly if one of its children is not. -/
theorem mapChildrenM_eq_error_iff {ε : Type} {p : Formula → Except ε Formula} {x : ε} :
    e.mapChildrenM p = .error x ↔ e.children.mapM p = .error x := by
  cases e with
  | and es | or es =>
      rw [mapChildrenM, children]
      cases es.mapM p <;> simp [bind, Except.bind, pure, Except.pure]
  | bool | int | var | sym => simp [mapChildrenM, children, pure, Except.pure]
  | prime e | not e | neg e | bit e =>
      cases he : p e <;> simp [mapChildrenM, children, he, bind, Except.bind, pure, Except.pure]
  | imply a b | add a b | sub a b | eq a b | lt a b | le a b =>
      cases ha : p a <;> cases hb : p b <;>
        simp [mapChildrenM, children, ha, hb, bind, Except.bind, pure, Except.pure]
  | ite c t e =>
      cases hc : p c <;> cases ht : p t <;> cases he : p e <;>
        simp [mapChildrenM, children, hc, ht, he, bind, Except.bind, pure, Except.pure]

end MapChildren

/-! ### Changing times -/

mutual

/-- The formula over symbols in which a variable under `m` primes, and a symbol of generation `m`, has become the
symbol of generation `g x m`. The formula itself stands under `n` primes. -/
def retimeFrom (g : Variable → Nat → Nat) (n : Nat) : Formula → Formula
  | .var x => .sym ⟨x, g x n⟩
  | .prime e => retimeFrom g (n + 1) e
  | .sym s => .sym ⟨s.base, g s.base s.generation⟩
  | .bool b => .bool b
  | .int v => .int v
  | .not e => .not (retimeFrom g n e)
  | .neg e => .neg (retimeFrom g n e)
  | .bit e i => .bit (retimeFrom g n e) i
  | .and es => .and (retimeEach g n es)
  | .or es => .or (retimeEach g n es)
  | .imply a b => .imply (retimeFrom g n a) (retimeFrom g n b)
  | .add a b => .add (retimeFrom g n a) (retimeFrom g n b)
  | .sub a b => .sub (retimeFrom g n a) (retimeFrom g n b)
  | .eq a b => .eq (retimeFrom g n a) (retimeFrom g n b)
  | .lt a b => .lt (retimeFrom g n a) (retimeFrom g n b)
  | .le a b => .le (retimeFrom g n a) (retimeFrom g n b)
  | .ite a b c => .ite (retimeFrom g n a) (retimeFrom g n b) (retimeFrom g n c)

def retimeEach (g : Variable → Nat → Nat) (n : Nat) : List Formula → List Formula
  | [] => []
  | e :: es => retimeFrom g n e :: retimeEach g n es

end

/-- The formula with its times changed. -/
def retime (g : Variable → Nat → Nat) (e : Formula) : Formula :=
  e.retimeFrom g 0

/-- The formula over symbols, with the generations of a frame for unprimed variables. -/
def placeAt (e : Formula) (frame : Variable → Nat) : Formula :=
  e.retime fun x m => frame x + m

attribute [local simp] retimeFrom retimeEach

variable {g h : Variable → Nat → Nat} {n k : Nat}

theorem retimeEach_eq_map (es : List Formula) : retimeEach g n es = es.map (retimeFrom g n) := by
  induction es with
  | nil => rfl
  | cons e es ih => simp [retimeEach, ih]

theorem retimeFrom_operator (h : e.isOperator) : e.retimeFrom g n = e.mapChildren (retimeFrom g n) := by
  cases e <;> simp_all [isOperator, retimeFrom, mapChildren, mapChildrenM, retimeEach_eq_map]

theorem isOperator_retimeFrom (h : e.isOperator) : (e.retimeFrom g n).isOperator := by
  rw [retimeFrom_operator h]
  exact isOperator_mapChildren h

theorem children_retimeFrom (h : e.isOperator) :
    (e.retimeFrom g n).children = e.children.map (retimeFrom g n) := by
  rw [retimeFrom_operator h, children_mapChildren]

theorem retimeFrom_retimeFrom (e : Formula) :
    (e.retimeFrom h n).retimeFrom g k = e.retimeFrom (fun x m => g x (h x m)) n := by
  induction e using inductTimes generalizing n with
  | var x => rfl
  | prime e ih => exact ih
  | sym s => rfl
  | operator e he ih =>
      rw [retimeFrom_operator (isOperator_retimeFrom he), retimeFrom_operator he, retimeFrom_operator he,
        mapChildren_mapChildren]
      exact mapChildren_congr fun c hc => ih c hc

/-- Of two changes of times, the second acts on what the first leaves. -/
theorem retime_retime : (e.retime h).retime g = e.retime fun x m => g x (h x m) :=
  retimeFrom_retimeFrom e

/-- A formula is placed at a frame by moving what it is at the first frame. -/
theorem placeAt_eq_retime (e : Formula) (frame : Variable → Nat) :
    e.placeAt frame = (e.placeAt fun _ => 0).retime fun x m => frame x + m := by
  simp only [placeAt, retime_retime, Nat.zero_add]

theorem retime_timed : (e.retimeFrom g n).Timed := by
  induction e using inductTimes generalizing n with
  | var x => constructor <;> simp [retimeFrom, subformulas, PrimeFree]
  | prime e ih => exact ih
  | sym s => constructor <;> simp [retimeFrom, subformulas, PrimeFree]
  | operator e he ih =>
      apply timed_of_children (isOperator_retimeFrom he)
      rw [children_retimeFrom he, List.forall_mem_map]
      exact fun c hc => ih c hc

/-- A formula over symbols changes with the times of its symbols alone. -/
theorem retime_congr (he : e.Timed)
    (hgh : ∀ s, .sym s ∈ e.subformulas → g s.base s.generation = h s.base s.generation) : e.retime g = e.retime h := by
  unfold retime
  induction e using inductTimes with
  | var x => exact absurd (self_mem_subformulas _) (he.1 x)
  | prime e => exact absurd (self_mem_subformulas _) (he.2 e)
  | sym s =>
      have heq := hgh s (self_mem_subformulas _)
      rw [retimeFrom, retimeFrom, heq]
  | operator e hop ih =>
      rw [retimeFrom_operator hop, retimeFrom_operator hop]
      exact mapChildren_congr fun c hc => ih c hc (he.child hc) fun s hs => hgh s (mem_subformulas_of_child hc hs)

theorem retime_id (he : e.Timed) : e.retime (fun _ m => m) = e := by
  unfold retime
  induction e using inductTimes with
  | var x => exact absurd (self_mem_subformulas _) (he.1 x)
  | prime e => exact absurd (self_mem_subformulas _) (he.2 e)
  | sym s => rfl
  | operator e hop ih =>
      rw [retimeFrom_operator hop, mapChildren_congr fun c hc => ih c hc (he.child hc)]
      exact mapChildren_id e

/-- A symbol of the formula with changed times stems from a variable or from a symbol. -/
theorem exists_of_sym_mem_retimeFrom {s : Symbol} (hs : .sym s ∈ (e.retimeFrom g n).subformulas) :
    (∃ m, .var s.base ∈ e.subformulas ∧ s.generation = g s.base m) ∨
      ∃ m, .sym ⟨s.base, m⟩ ∈ e.subformulas ∧ s.generation = g s.base m := by
  induction e using inductTimes generalizing n with
  | var x =>
      simp only [retimeFrom, subformulas, List.mem_singleton, Formula.sym.injEq] at hs
      subst hs
      exact .inl ⟨n, self_mem_subformulas _, rfl⟩
  | sym t =>
      simp only [retimeFrom, subformulas, List.mem_singleton, Formula.sym.injEq] at hs
      subst hs
      exact .inr ⟨t.generation, self_mem_subformulas _, rfl⟩
  | prime e ih =>
      simp only [subformulas, List.mem_cons, reduceCtorEq, false_or]
      exact ih hs
  | operator e he ih =>
      obtain ⟨c, hc, hs⟩ := mem_children_of_isOperator (isOperator_retimeFrom he) hs rfl
      rw [children_retimeFrom he, List.mem_map] at hc
      obtain ⟨c, hc, rfl⟩ := hc
      rcases ih c hc hs with ⟨m, hm, hg⟩ | ⟨m, hm, hg⟩
      · exact .inl ⟨m, mem_subformulas_of_child hc hm, hg⟩
      · exact .inr ⟨m, mem_subformulas_of_child hc hm, hg⟩

/-- Without primes, all variables are read at one time. -/
theorem generation_of_primeFree (hsym : e.SymbolFree) (hprime : e.PrimeFree) {s : Symbol}
    (hs : .sym s ∈ (e.retimeFrom g n).subformulas) : s.generation = g s.base n := by
  induction e using inductTimes with
  | var x =>
      simp only [retimeFrom, subformulas, List.mem_singleton, Formula.sym.injEq] at hs
      subst hs
      rfl
  | sym t => exact absurd (self_mem_subformulas _) (hsym t)
  | prime e ih => exact absurd (self_mem_subformulas _) (hprime e)
  | operator e he ih =>
      obtain ⟨c, hc, hs⟩ := mem_children_of_isOperator (isOperator_retimeFrom he) hs rfl
      rw [children_retimeFrom he, List.mem_map] at hc
      obtain ⟨c, hc, rfl⟩ := hc
      exact ih c hc (hsym.child hc) (hprime.child hc) hs

/-- Over a single step, variables are read before it or after it. -/
theorem generation_of_singleStep (hsym : e.SymbolFree) (hprime : e.SingleStep) {s : Symbol}
    (hs : .sym s ∈ (e.retimeFrom g n).subformulas) : s.generation = g s.base n ∨ s.generation = g s.base (n + 1) := by
  induction e using inductTimes with
  | var x =>
      simp only [retimeFrom, subformulas, List.mem_singleton, Formula.sym.injEq] at hs
      subst hs
      exact .inl rfl
  | sym t => exact absurd (self_mem_subformulas _) (hsym t)
  | prime e ih =>
      have hchild : e ∈ (Formula.prime e).children := List.mem_singleton_self e
      exact .inr (generation_of_primeFree (hsym.child hchild) (hprime e (self_mem_subformulas _)) hs)
  | operator e he ih =>
      obtain ⟨c, hc, hs⟩ := mem_children_of_isOperator (isOperator_retimeFrom he) hs rfl
      rw [children_retimeFrom he, List.mem_map] at hc
      obtain ⟨c, hc, rfl⟩ := hc
      exact ih c hc (hsym.child hc) (hprime.child hc) hs

theorem exists_of_sym_mem_retime (he : e.Timed) {s : Symbol} (hs : .sym s ∈ (e.retime g).subformulas) :
    ∃ m, .sym ⟨s.base, m⟩ ∈ e.subformulas ∧ s.generation = g s.base m := by
  rcases exists_of_sym_mem_retimeFrom hs with ⟨m, hm, _⟩ | h
  · exact absurd hm (he.1 _)
  · exact h

theorem var_mem_of_sym_mem_placeAt (he : e.SymbolFree) {frame : Variable → Nat} {s : Symbol}
    (hs : .sym s ∈ (e.placeAt frame).subformulas) : .var s.base ∈ e.subformulas := by
  rcases exists_of_sym_mem_retimeFrom hs with ⟨_, hm, _⟩ | ⟨_, hm, _⟩
  · exact hm
  · exact absurd hm (he _)

/-! ### Unfolding and folding -/

attribute [local simp] unfoldFrom unfoldEach fold foldEach

/-- The generations of all symbols are in the range of generations. -/
def InBounds (e : Formula) : Prop :=
  ∀ s, .sym s ∈ e.subformulas → s.generation < Word.bound32

theorem inBounds_iff_children (h : e.isOperator) : e.InBounds ↔ ∀ c ∈ e.children, c.InBounds := by
  constructor
  · exact fun hb c hc s hs => hb s (mem_subformulas_of_child hc hs)
  · intro hb s hs
    obtain ⟨c, hc, hs⟩ := mem_children_of_isOperator h hs rfl
    exact hb c hc s hs

private theorem unfoldEach_eq_mapM {c : Clock} (es : List Formula) :
    unfoldEach c n es = es.mapM (unfoldFrom c n) := by
  induction es with
  | nil => rfl
  | cons e es ih => rw [unfoldEach, ih, List.mapM_cons]

theorem unfoldFrom_operator {c : Clock} (h : e.isOperator) :
    unfoldFrom c n e = e.mapChildrenM (unfoldFrom c n) := by
  cases e <;> simp_all [isOperator, unfoldFrom, mapChildrenM, unfoldEach_eq_mapM]

theorem unfoldFrom_eq_ok {c : Clock} (he : e.SymbolFree)
    (hb : (e.retimeFrom (fun x m => c.get x + m) n).InBounds) :
    unfoldFrom c n e = .ok (e.retimeFrom (fun x m => c.get x + m) n) := by
  induction e using inductTimes generalizing n with
  | var x =>
      have hlt : c.get x + n < Word.bound32 := hb _ (self_mem_subformulas _)
      rw [unfoldFrom, addGenerations_eq_ok hlt]
      rfl
  | prime e ih => exact ih (he.child List.mem_cons_self) hb
  | sym s => exact absurd (self_mem_subformulas _) (he s)
  | operator e hop ih =>
      rw [inBounds_iff_children (isOperator_retimeFrom hop), children_retimeFrom hop] at hb
      rw [unfoldFrom_operator hop, retimeFrom_operator hop]
      exact mapChildrenM_eq_ok fun d hd =>
        ih d hd (he.child hd) (hb _ (List.mem_map.mpr ⟨d, hd, rfl⟩))

theorem of_unfoldFrom_eq_ok {c : Clock} (he : e.SymbolFree) (h : unfoldFrom c n e = .ok f) :
    f = e.retimeFrom (fun x m => c.get x + m) n ∧ f.InBounds := by
  induction e using inductTimes generalizing n f with
  | var x =>
      cases hadd : addGenerations (c.get x) n with
      | error => simp [unfoldFrom, hadd, bind, Except.bind] at h
      | ok k =>
          obtain ⟨rfl, hlt⟩ := of_addGenerations_eq_ok hadd
          simp only [unfoldFrom, hadd, bind, Except.bind, pure, Except.pure, Except.ok.injEq] at h
          subst h
          refine ⟨rfl, fun s hs => ?_⟩
          simp only [subformulas, List.mem_singleton, Formula.sym.injEq] at hs
          rwa [hs]
  | prime e ih => exact ih (he.child List.mem_cons_self) h
  | sym s => exact absurd (self_mem_subformulas _) (he s)
  | operator e hop ih =>
      rw [unfoldFrom_operator hop] at h
      have hchild : ∀ d ∈ e.children, unfoldFrom c n d = .ok (d.retimeFrom (fun x m => c.get x + m) n) ∧
          (d.retimeFrom (fun x m => c.get x + m) n).InBounds := by
        intro d hd
        obtain ⟨k, hk⟩ := exists_of_mapChildrenM_eq_ok h d hd
        obtain ⟨rfl, hb⟩ := ih d hd (he.child hd) hk
        exact ⟨hk, hb⟩
      rw [mapChildrenM_eq_ok fun d hd => (hchild d hd).1, ← retimeFrom_operator hop] at h
      cases h
      refine ⟨rfl, (inBounds_iff_children (isOperator_retimeFrom hop)).mpr ?_⟩
      rw [children_retimeFrom hop]
      simpa using fun d hd => (hchild d hd).2

/-- Nothing but an overflow keeps a formula from being unfolded. -/
theorem eq_overflow_of_unfoldFrom_eq_error {c : Clock} {x : Fault} (h : unfoldFrom c n e = .error x) :
    x = .overflow := by
  induction e using inductTimes generalizing n with
  | var y =>
      cases hadd : addGenerations (c.get y) n with
      | error z =>
          rw [unfoldFrom, hadd] at h
          cases h
          exact eq_overflow_of_addGenerations_eq_error hadd
      | ok k => simp [unfoldFrom, hadd, bind, Except.bind, pure, Except.pure] at h
  | prime e ih => exact ih h
  | sym s => cases h
  | operator e hop ih =>
      rw [unfoldFrom_operator hop, mapChildrenM_eq_error_iff] at h
      obtain ⟨d, hd, hx⟩ := exists_of_mapM_eq_error h
      exact ih d hd hx

theorem exists_unfold_eq_ok {c : Clock} (h : e.unfold c ≠ .error .overflow) : ∃ f, e.unfold c = .ok f := by
  cases hf : e.unfold c with
  | ok f => exact ⟨f, rfl⟩
  | error x => exact absurd (eq_overflow_of_unfoldFrom_eq_error hf ▸ hf) h

/-- Unfolding places a formula at a clock. -/
theorem unfold_eq_ok {c : Clock} (he : e.SymbolFree) (hb : (e.placeAt c.get).InBounds) :
    e.unfold c = .ok (e.placeAt c.get) :=
  unfoldFrom_eq_ok he hb

theorem of_unfold_eq_ok {c : Clock} (he : e.SymbolFree) (h : e.unfold c = .ok f) :
    f = e.placeAt c.get ∧ f.InBounds :=
  of_unfoldFrom_eq_ok he h

theorem retimeFrom_primes (x : Variable) (k : Nat) :
    (primes k (.var x)).retimeFrom g n = .sym ⟨x, g x (k + n)⟩ := by
  induction k generalizing n with
  | zero => simp [primes, retimeFrom]
  | succ k ih =>
      rw [primes, retimeFrom, ih]
      simp [Nat.add_comm, Nat.add_left_comm]

theorem symbolFree_primes (x : Variable) (k : Nat) : (primes k (.var x)).SymbolFree := by
  intro s
  induction k with
  | zero => simp [primes, subformulas]
  | succ k ih => simpa [primes, subformulas] using ih

private theorem foldEach_eq_mapM {c : Clock} (es : List Formula) : foldEach es c = es.mapM (fold · c) := by
  induction es with
  | nil => rfl
  | cons e es ih => rw [foldEach, ih, List.mapM_cons]

theorem fold_operator {c : Clock} (h : e.isOperator) : e.fold c = e.mapChildrenM (fold · c) := by
  cases e <;> simp_all [isOperator, fold, mapChildrenM, foldEach_eq_mapM]

/-- Folding succeeds where no symbol lies before the clock, and takes the clock off the generations. -/
theorem exists_fold_eq_ok {c : Clock} (he : e.Timed)
    (hc : ∀ s, .sym s ∈ e.subformulas → c.get s.base ≤ s.generation) :
    ∃ f, e.fold c = .ok f ∧ f.SymbolFree ∧
      ∀ g n, f.retimeFrom g n = e.retimeFrom (fun x m => g x (m - c.get x + n)) n := by
  induction e using inductTimes with
  | var x => exact absurd (self_mem_subformulas _) (he.1 x)
  | prime e => exact absurd (self_mem_subformulas _) (he.2 e)
  | sym s =>
      refine ⟨primes (s.generation - c.get s.base) (.var s.base), ?_, symbolFree_primes _ _, fun g n => ?_⟩
      · rw [fold, foldSymbol, if_neg (Nat.not_lt.mpr (hc s (self_mem_subformulas _)))]
      · rw [retimeFrom_primes, retimeFrom]
  | operator e hop ih =>
      have hchild := fun d hd => ih d hd (he.child hd) fun s hs => hc s (mem_subformulas_of_child hd hs)
      have hok : ∀ d ∈ e.children, d.fold c = .ok ((d.fold c).toOption.getD default) := by
        intro d hd
        obtain ⟨f, hf, _⟩ := hchild d hd
        rw [hf]
        rfl
      have hfold := mapChildrenM_eq_ok (p := (fold · c)) hok
      refine ⟨_, (fold_operator hop).trans hfold, ?_, fun g n => ?_⟩
      · intro s hs
        obtain ⟨d, hd, hs⟩ := mem_children_of_isOperator (isOperator_mapChildren hop) hs rfl
        rw [children_mapChildren, List.mem_map] at hd
        obtain ⟨d, hd, rfl⟩ := hd
        obtain ⟨f, hf, hfree, _⟩ := hchild d hd
        rw [hf] at hs
        exact hfree s hs
      · rw [retimeFrom_operator (isOperator_mapChildren hop), mapChildren_mapChildren, retimeFrom_operator hop]
        refine mapChildren_congr fun d hd => ?_
        obtain ⟨f, hf, _, hret⟩ := hchild d hd
        rw [hf]
        exact hret g n

/-- A formula over symbols that lie at or after one clock is moved to another clock by folding and unfolding it. -/
theorem exists_fold_unfold_eq_ok {c d : Clock} (he : e.Timed)
    (hc : ∀ s, .sym s ∈ e.subformulas → c.get s.base ≤ s.generation)
    (hd : ∀ s, .sym s ∈ e.subformulas → d.get s.base + (s.generation - c.get s.base) < Word.bound32) :
    ∃ f, e.fold c = .ok f ∧ f.unfold d = .ok (e.retime fun x m => d.get x + (m - c.get x)) := by
  obtain ⟨f, hf, hfree, hret⟩ := exists_fold_eq_ok he hc
  have hplace : f.placeAt d.get = e.retime fun x m => d.get x + (m - c.get x) := hret _ 0
  refine ⟨f, hf, hplace ▸ unfold_eq_ok hfree ?_⟩
  intro s hs
  rw [hplace] at hs
  obtain ⟨m, hm, hgen⟩ := exists_of_sym_mem_retime he hs
  rw [hgen]
  exact hd _ hm

end Invariance.Formula
