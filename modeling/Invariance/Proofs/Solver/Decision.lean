import Invariance.Proofs.Bits.Readback
import Invariance.Proofs.Diagram.Models
import Invariance.Proofs.Diagram.Quantifier
import Invariance.Proofs.Solver.Contract
import Invariance.Solver.Decision

/-!
The solver that decides by diagrams fulfils its contract. The context of each scope is true where all that is asserted
there and around it is, so that a check is never in doubt; models are read off a path, and interpolants are projections
of the first side.
-/

namespace Invariance

open Diagram Bits Formula

variable {w w' : Workspace} {x y : Edge} {e : Formula} {P Q : Formula → Prop} {ρ : Nat → Bool}
variable {own : List Assertion} {outer : List (List Assertion)} {sc : Scope} {scs : List Scope} {c : Context}

/-! ### Conjunctions of formulas -/

/-- The function is true where all these formulas are, each of which is represented by some function. -/
structure Means (w : Workspace) (x : Edge) (P : Formula → Prop) : Prop where
  contains : w.manager.Contains x
  represented : ∀ e, P e → ∃ y, Represents w e (.bool y)
  value : ∀ ρ, w.manager.value ρ x = true ↔ ∀ e, P e → (w.symbols.assignment ρ).Satisfies e

namespace Means

theorem grows (h : Means w x P) (hw : w.Valid) (hg : w.Grows w') : Means w' x P where
  contains := hg.manager.contains h.contains
  represented e he := (h.represented e he).imp fun _ hy => hy.grows hw hg
  value ρ := by
    rw [hg.manager.value hw.manager h.contains, h.value]
    refine forall₂_congr fun e he => ?_
    obtain ⟨y, hy⟩ := h.represented e he
    rw [← hy.value_iff, ← (hy.grows hw hg).value_iff, hg.manager.value hw.manager hy.within]

theorem congr (h : Means w x P) (hPQ : ∀ e, P e ↔ Q e) : Means w x Q := by
  obtain rfl : P = Q := funext fun e => propext (hPQ e)
  exact h

/-- The formulas are all true where the function is, for the truth values that an assignment to symbols leads to. -/
theorem satisfies_iff (h : Means w x P) (hw : w.Valid) {σ : Assignment} :
    (∀ e, P e → σ.Satisfies e) ↔ w.manager.value (w.symbols.truth σ) x = true := by
  rw [h.value]
  refine forall₂_congr fun e he => ?_
  obtain ⟨y, hy⟩ := h.represented e he
  rw [hy.satisfies_iff hw, hy.value_iff]

/-- The function depends on bits of symbols of the formulas only. -/
theorem exists_owner {v : Nat} (h : Means w x P) (hw : w.Valid) (hv : w.manager.DependsOn x v) :
    ∃ e, P e ∧ ∃ s i, w.symbols.owner? v = some (s, i) ∧ .sym s ∈ e.subformulas := by
  by_contra hnone
  obtain ⟨ρ, hρ⟩ := hv
  refine hρ (Bool.eq_iff_iff.mpr ?_)
  rw [h.value, h.value]
  refine forall₂_congr fun e he => ?_
  obtain ⟨y, hy⟩ := h.represented e he
  have hnot : ¬ w.manager.DependsOn y v := fun hdep => hnone ⟨e, he, hy.exists_owner hw hdep⟩
  rw [← hy.value_iff, ← hy.value_iff, Manager.value_update hnot, Manager.value_update hnot]

/-- If the formulas are all true under one of two assignments that differ in one bit, the function depends on it. -/
theorem dependsOn_of_beside {σ τ : Assignment} {g : Symbol} {i : Nat} (h : Means w x P) (hw : w.Valid)
    (hbeside : σ.Beside τ g i) (hσ : ∀ e, P e → σ.Satisfies e) (hτ : ¬ ∀ e, P e → τ.Satisfies e) :
    ∃ v, w.symbols.owner? v = some (g, i) ∧ w.manager.DependsOn x v := by
  by_contra hnone
  rw [h.satisfies_iff hw] at hσ hτ
  refine hτ (hσ ▸ (Manager.value_eq_of_agree hw.manager h.contains fun v hv => ?_).symm)
  have hne : w.symbols.owner? v ≠ some (g, i) := fun howner => hnone ⟨v, howner, hv⟩
  unfold Allocation.truth
  rcases howner : w.symbols.owner? v with _ | ⟨t, j⟩
  · rfl
  · obtain ⟨vs, hvs, hj⟩ := hw.symbols.listed v t j howner
    have hlt : j < t.domain.bits := hw.symbols.length t vs hvs ▸ (List.getElem?_eq_some_iff.mp hj).1
    exact hbeside.bitAt_eq hlt fun heq => hne (howner.trans (congrArg some heq))

/-- One formula more. -/
theorem and {z : Edge} (h : Means w x P) (hy : Represents w e (.bool y)) (hz : w.manager.Contains z)
    (hvalue : ∀ ρ, w.manager.value ρ z = (w.manager.value ρ x && w.manager.value ρ y)) :
    Means w z fun f => P f ∨ f = e where
  contains := hz
  represented f hf := by
    rcases hf with hf | rfl
    · exact h.represented f hf
    · exact ⟨y, hy⟩
  value ρ := by
    rw [hvalue, Bool.and_eq_true, h.value, hy.value_iff]
    simp only [or_imp, forall_and, forall_eq]

theorem eq_zero_iff (h : Means w x P) (hw : w.Valid) :
    x = .zero ↔ ∀ σ : Assignment, ¬ ∀ e, P e → σ.Satisfies e := by
  rw [h.contains.denotes.eq_zero_iff hw.manager]
  constructor
  · intro hall σ hσ
    rw [h.satisfies_iff hw, hall] at hσ
    cases hσ
  · intro hnone ρ
    exact Bool.eq_false_iff.mpr fun htrue => hnone _ ((h.value ρ).mp htrue)

end Means

/-- These are the functions of these formulas. -/
structure Lists (w : Workspace) (xs : List Edge) (P : Formula → Prop) : Prop where
  sound : ∀ x ∈ xs, ∃ e, P e ∧ Represents w e (.bool x)
  complete : ∀ e, P e → ∃ x ∈ xs, Represents w e (.bool x)

namespace Lists

variable {xs ys : List Edge}

theorem grows (h : Lists w xs P) (hw : w.Valid) (hg : w.Grows w') : Lists w' xs P where
  sound x hx := (h.sound x hx).imp fun _ he => ⟨he.1, he.2.grows hw hg⟩
  complete e he := (h.complete e he).imp fun _ hx => ⟨hx.1, hx.2.grows hw hg⟩

theorem congr (h : Lists w xs P) (hxs : ∀ x, x ∈ xs ↔ x ∈ ys) (hPQ : ∀ e, P e ↔ Q e) : Lists w ys Q where
  sound x hx := (h.sound x ((hxs x).mpr hx)).imp fun e he => ⟨(hPQ e).mp he.1, he.2⟩
  complete e he := (h.complete e ((hPQ e).mpr he)).imp fun x hx => ⟨(hxs x).mp hx.1, hx.2⟩

theorem append (h : Lists w xs P) (h' : Lists w ys Q) : Lists w (xs ++ ys) fun e => P e ∨ Q e where
  sound x hx := by
    rcases List.mem_append.mp hx with hx | hx
    · exact (h.sound x hx).imp fun e he => ⟨.inl he.1, he.2⟩
    · exact (h'.sound x hx).imp fun e he => ⟨.inr he.1, he.2⟩
  complete e he := by
    rcases he with he | he
    · exact (h.complete e he).imp fun x hx => ⟨List.mem_append_left _ hx.1, hx.2⟩
    · exact (h'.complete e he).imp fun x hx => ⟨List.mem_append_right _ hx.1, hx.2⟩

theorem contains (h : Lists w xs P) : ∀ x ∈ xs, w.manager.Contains x := fun x hx =>
  have ⟨_, _, he⟩ := h.sound x hx
  he.within

/-- A function that is true where all of these are means all the formulas. -/
theorem means (h : Lists w xs P) (hx : w.manager.Contains x)
    (hvalue : ∀ ρ, w.manager.value ρ x = xs.all fun y => w.manager.value ρ y) : Means w x P where
  contains := hx
  represented e he := (h.complete e he).imp fun _ hy => hy.2
  value ρ := by
    rw [hvalue, List.all_eq_true]
    constructor
    · intro hall e he
      obtain ⟨y, hy, hye⟩ := h.complete e he
      exact hye.value_iff.mp (hall y hy)
    · intro hall y hy
      obtain ⟨e, he, hye⟩ := h.sound y hy
      exact hye.value_iff.mpr (hall e he)

end Lists

theorem lists_nil : Lists w [] fun _ => False :=
  ⟨fun _ hx => (nomatch hx), fun _ => False.elim⟩

theorem lists_singleton (h : Represents w e (.bool x)) : Lists w [x] (· = e) where
  sound y hy := by
    rw [List.mem_singleton.mp hy]
    exact ⟨e, rfl, h⟩
  complete f hf := ⟨x, List.mem_singleton_self x, hf ▸ h⟩

/-! ### Scopes -/

namespace Scope

/-- What is recorded on one side or on none. -/
def on (s : Scope) : Option Partition → List Edge
  | none => s.plain
  | some p => s.side p

theorem on_record {p q : Option Partition} {f context : Edge} :
    (sc.record p f context).on q = if q = p then sc.on q ++ [f] else sc.on q := by
  rcases p with _ | _ | _ <;> rcases q with _ | _ | _ <;> rfl

theorem context_record {p : Option Partition} {f context : Edge} : (sc.record p f context).context = context := by
  rcases p with _ | _ | _ <;> rfl

/-- What is recorded are the functions of the assertions, each on its side. -/
def Records (w : Workspace) (sc : Scope) (own : List Assertion) : Prop :=
  ∀ p, Lists w (sc.on p) fun e => (p, e) ∈ own

theorem Records.grows (h : sc.Records w own) (hw : w.Valid) (hg : w.Grows w') : sc.Records w' own :=
  fun p => (h p).grows hw hg

theorem records_new {context : Edge} : Scope.Records w { context } [] := by
  intro p
  have hnone : Scope.on { context } p = [] := by rcases p with _ | _ | _ <;> rfl
  rw [hnone]
  exact lists_nil.congr (fun _ => Iff.rfl) fun e => by simp

theorem Records.record (h : sc.Records w own) {p : Option Partition} {context : Edge}
    (hx : Represents w e (.bool x)) : (sc.record p x context).Records w (own ++ [(p, e)]) := by
  intro q
  rw [on_record]
  split
  · next heq =>
      subst heq
      exact ((h q).append (lists_singleton hx)).congr (fun _ => Iff.rfl) fun f => by simp
  · next hne => exact (h q).congr (fun _ => Iff.rfl) fun f => by simp [hne]

end Scope

/-- A formula is asserted, on whatever side. -/
def Asserted (as : List Assertion) (e : Formula) : Prop :=
  ∃ p, (p, e) ∈ as

theorem asserted_concat {as bs : List Assertion} {p : Option Partition} {f : Formula} :
    Asserted (as ++ [(p, e)] ++ bs) f ↔ Asserted (as ++ bs) f ∨ f = e := by
  simp only [Asserted, List.mem_append, List.mem_singleton, Prod.mk.injEq]
  constructor
  · rintro ⟨q, (h | ⟨-, rfl⟩) | h⟩
    · exact .inl ⟨q, .inl h⟩
    · exact .inr rfl
    · exact .inl ⟨q, .inr h⟩
  · rintro (⟨q, h | h⟩ | rfl)
    · exact ⟨q, .inl (.inl h)⟩
    · exact ⟨q, .inr h⟩
    · exact ⟨p, .inl (.inr ⟨rfl, rfl⟩)⟩

/-- The scopes, from the innermost on, record what is asserted in each, and their contexts mean all that is asserted
in them and around them. -/
inductive Stacked (w : Workspace) : List Scope → List (List Assertion) → Prop
  | nil : Stacked w [] []
  | cons {sc : Scope} {own : List Assertion} {scs : List Scope} {outer : List (List Assertion)} :
      Means w sc.context (Asserted (own ++ outer.flatten)) → sc.Records w own → Stacked w scs outer →
      Stacked w (sc :: scs) (own :: outer)

theorem Stacked.grows (h : Stacked w scs outer) (hw : w.Valid) (hg : w.Grows w') : Stacked w' scs outer := by
  induction h with
  | nil => exact .nil
  | cons hmeans hrecords _ ih => exact .cons (hmeans.grows hw hg) (hrecords.grows hw hg) ih

/-- What is recorded on a side in any of the scopes are the functions of the assertions on that side. -/
theorem Stacked.lists (h : Stacked w scs outer) (p : Option Partition) :
    Lists w (scs.flatMap (·.on p)) fun e => (p, e) ∈ outer.flatten := by
  induction h with
  | nil => exact lists_nil.congr (fun _ => Iff.rfl) fun e => by simp
  | cons _ hrecords _ ih => exact ((hrecords p).append ih).congr (fun _ => Iff.rfl) fun e => by simp

/-! ### Consequences of the first side -/

/-- The second side depends on the bit: a change of nothing else can make it false. -/
def Context.SecondDependsOn (c : Context) (p : Pattern) (g : Symbol) (i : Nat) : Prop :=
  ∃ σ τ : Assignment, σ.Beside τ g i ∧ (∀ a, c.Second p a → σ.Satisfies a.2) ∧
    ¬ ∀ a, c.Second p a → τ.Satisfies a.2

/-- The formula implies all consequences of the first side over symbols on all bits of which the second depends. -/
def Context.Strongest (c : Context) (p : Pattern) (e : Formula) : Prop :=
  ∀ f : Formula, (∀ g, .sym g ∈ f.subformulas → ∀ i < g.domain.bits, c.SecondDependsOn p g i) →
    (∀ σ : Assignment, (∀ a, c.First p a → σ.Satisfies a.2) → σ.Satisfies f) →
    ∀ σ : Assignment, σ.Satisfies e → σ.Satisfies f

/-! ### The solver -/

namespace DecisionSolver

variable {s t : DecisionSolver} {lenient L : Prop} {α : Type}

/-- The solver keeps track of the context. -/
structure Tracks (s : DecisionSolver) (c : Context) : Prop where
  workspace : s.workspace.Valid
  stacked : Stacked s.workspace (s.scope :: s.outer) (c.scope :: c.outer)
  last : s.last = c.last.map fun status => (status, s.scope.context)
  answered : ∀ status, c.last = some status → (status = .unsat ↔ s.scope.context = .zero)

theorem Tracks.context (h : Tracks s c) : Means s.workspace s.scope.context (Asserted c.active) := by
  obtain _ | ⟨hmeans, -, -⟩ := h.stacked
  exact hmeans

theorem satisfied_iff {σ : Assignment} : (∀ e, Asserted c.active e → σ.Satisfies e) ↔ c.Satisfied σ :=
  ⟨fun h a ha => h a.2 ⟨a.1, ha⟩, fun h e ⟨p, he⟩ => h (p, e) he⟩

/-- The solver in a larger workspace. -/
theorem Tracks.grows (h : Tracks s c) (hg : s.workspace.Grows w) : Tracks { s with workspace := w } c :=
  ⟨hg.valid, h.stacked.grows h.workspace hg, h.last, h.answered⟩

/-- Nothing changes but for a larger workspace. -/
def Enlarges (s t : DecisionSolver) : Prop :=
  ∃ w, s.workspace.Grows w ∧ t = { s with workspace := w }

theorem Tracks.enlarges (h : Tracks s c) : s.Enlarges s :=
  ⟨s.workspace, h.workspace.grows, rfl⟩

theorem Enlarges.tracks (ht : s.Enlarges t) (h : Tracks s c) : Tracks t c := by
  obtain ⟨w, hg, rfl⟩ := ht
  exact h.grows hg

theorem run_encoding {work : Encode α} : (encoding work).run.run s = match work.run.run s.workspace with
    | (.ok a, w) => (.ok a, { s with workspace := w })
    | (.error h, w) => (.error (h.map .encoding), { s with workspace := w }) :=
  rfl

theorem meets_encoding {work : Encode α} {Q : α → Workspace → Prop} {E : Workspace → Prop}
    (h : Meets work s.workspace Q fun _ => E) :
    Meets (encoding work) s (fun a t => ∃ w, t = { s with workspace := w } ∧ Q a w)
      fun _ t => ∃ w, t = { s with workspace := w } ∧ E w := by
  have hrun : (encoding work).run.run s = _ := run_encoding
  unfold Meets at h
  rcases hw : work.run.run s.workspace with ⟨_ | a, w⟩ <;> rw [hw] at h hrun
  · exact meets_of_run_error hrun ⟨w, rfl, h⟩
  · exact meets_of_run_ok hrun ⟨w, rfl, h⟩

/-- Work on the diagrams alone is always done. -/
theorem meets_build {work : Build α} {R : α → Manager → Prop} {E : Halt SolverError → DecisionSolver → Prop}
    (hw : s.workspace.Valid)
    (h : Meets work s.workspace.manager (fun a m => s.workspace.manager.Grows m ∧ R a m) fun _ _ => False) :
    Meets (encoding (Encode.build work)) s
      (fun a t => ∃ w, t = { s with workspace := w } ∧ s.workspace.Grows w ∧ R a w.manager) E := by
  refine (meets_encoding (E := fun _ => False) (Encode.meets_build_grows hw h)).mono ?_ ?_
  · rintro a _ ⟨w, rfl, hg, -, hr⟩
    exact ⟨w, rfl, hg, hr⟩
  · rintro _ _ ⟨_, _, ⟨⟩⟩

/-- Predicates are asserted, and all other formulas refused, which leaves the assertions as they are. -/
theorem meets_assert (h : Tracks s c) (p : Option Partition) :
    Meets (assert p e) s (fun _ t => Tracks t (c.assert p e) ∧ e.Predicate fun _ => True)
      fun _ t => s.Enlarges t ∧ ¬ e.Predicate fun _ => True := by
  rw [assert]
  by_cases hindexed : e.isUnindexed = true
  · rw [if_pos hindexed]
    refine ⟨h.enlarges, fun hp => ?_⟩
    rw [isUnindexed_eq_false_iff.mpr hp.timed] at hindexed
    cases hindexed
  rw [if_neg hindexed]
  refine ((meets_encoding (meets_encode_predicate h.workspace)).mono (fun _ _ => id) ?_).bind ?_
  · rintro _ _ ⟨w, rfl, hg, hp⟩
    exact ⟨⟨w, hg, rfl⟩, hp⟩
  rintro x _ ⟨w, rfl, hg, hx⟩
  obtain _ | ⟨hmeans, hrecords, hstacked⟩ := (h.grows hg).stacked
  simp only [meets_bind, meets_modify, meets_get]
  refine (meets_build (s := ⟨w, s.outer, s.scope, none⟩) hg.valid
    (Build.meets_and hg.valid.manager hmeans.contains.denotes hx.denotes)).imp ?_
  rintro context _ ⟨w', rfl, hg', hcontext⟩
  have hx' := hx.grows hg.valid hg'
  have hmeans' := hmeans.grows hg.valid hg'
  have hrecords' := hrecords.grows hg.valid hg'
  have hstacked' := hstacked.grows hg.valid hg'
  refine ⟨⟨hg'.valid, .cons ?_ (hrecords'.record hx') hstacked', rfl, by rintro _ ⟨⟩⟩, hx.predicate.weaken⟩
  rw [Scope.context_record]
  refine (hmeans'.and hx' hcontext.contains fun ρ => ?_).congr fun f => asserted_concat.symm
  rw [hcontext.value, hg'.manager.value hg.valid.manager hmeans.contains,
    hg'.manager.value hg.valid.manager hx.within]

/-- The solver has more variables than literals can name. -/
def Crowded (s : DecisionSolver) : Prop :=
  Word.signBound32 ≤ s.varCount

instance : DecidablePred Crowded :=
  fun s => inferInstanceAs (Decidable (Word.signBound32 ≤ s.varCount))

theorem tracks_push (h : Tracks s c) : Tracks s.push c.push where
  workspace := h.workspace
  stacked :=
    .cons (h.context.congr fun e => by simp [Asserted, Context.active, Context.push]) Scope.records_new h.stacked
  last := rfl
  answered := nofun

/-- The innermost scope is closed, unless it is the only one. -/
theorem meets_pop (h : Tracks s c) :
    Meets pop s (fun _ t => ∃ scope outer, c.outer = scope :: outer ∧ Tracks t ⟨outer, scope, none⟩)
      fun e t => c.outer = [] ∧ e = .error .emptyScope ∧ t = s := by
  obtain ⟨w, scs, sc, last⟩ := s
  obtain ⟨outer, scope, clast⟩ := c
  obtain ⟨hw, hstacked, -, -⟩ := h
  obtain _ | ⟨-, -, _ | ⟨hmeans', hrecords', hstacked⟩⟩ := hstacked
  · exact ⟨rfl, rfl, rfl⟩
  · exact ⟨_, _, rfl, hw, .cons hmeans' hrecords' hstacked, rfl, nofun⟩

theorem crowded_pop (h : s.Crowded) : Meets pop s (fun _ t => t.Crowded) fun _ t => t.Crowded := by
  obtain ⟨w, _ | _, sc, last⟩ := s <;> exact h

/-- A check is never in doubt. -/
theorem meets_check (h : Tracks s c) :
    Meets check s
      (fun status t => Tracks t (c.checked status) ∧ (status = .unsat ↔ ∀ τ, ¬ c.Satisfied τ) ∧
        (status = .sat ↔ ∃ τ, c.Satisfied τ)) fun _ _ => False := by
  have hzero := h.context.eq_zero_iff h.workspace
  simp only [satisfied_iff] at hzero
  rw [check, meets_modifyGet]
  by_cases hcontext : s.scope.context = .zero
  · have hnone := hzero.mp hcontext
    simp only [if_pos hcontext]
    refine ⟨⟨h.workspace, h.stacked, rfl, ?_⟩, by simpa using hnone, by simpa using hnone⟩
    rintro _ ⟨⟩
    simpa using hcontext
  · have hsome := mt hzero.mpr hcontext
    simp only [if_neg hcontext]
    refine ⟨⟨h.workspace, h.stacked, rfl, ?_⟩, by simpa using hsome, by simpa using hsome⟩
    rintro _ ⟨⟩
    simpa using hcontext

/-! ### Models -/

theorem reports_modelOf {ls : List Int} :
    (s.modelOf ls).Reports (s.workspace.symbols.assignment (truthOf ls)) := by
  intro g
  have hkeys : ∀ g, (s.workspace.symbols.decode g (truthOf ls)).isSome → g ∈ s.workspace.symbols.table.keys := by
    intro g hg
    rw [Allocation.decode, Option.isSome_map] at hg
    exact SortedMap.mem_keys_iff.mpr hg
  have hget : (s.modelOf ls).values.get? g = s.workspace.symbols.decode g (truthOf ls) :=
    SortedMap.get?_ofList_filterMap _ hkeys
  rw [Allocation.assignment_val, Model.get?, hget]
  cases s.workspace.symbols.decode g (truthOf ls) <;> rfl

theorem Tracks.context_ne_zero (h : Tracks s c) (hlast : c.last = some .sat) : s.scope.context ≠ .zero := by
  intro hzero
  cases (h.answered _ hlast).mpr hzero

theorem run_model : model.run.run s = (match s.last with
    | some (.sat, f) => do
      match ← Halt.ofFault (s.workspace.manager.onePath f) with
      | some literals => return s.modelOf literals
      | none => throw (.error .noModel)
    | _ => throw (.error .noModel), s) :=
  rfl

/-- After a check that found one, a path is read off as a model, if literals can name its variables. -/
theorem exists_model (h : Tracks s c) (hlast : c.last = some .sat) (hcrowded : ¬ s.Crowded) :
    ∃ m τ, model.run.run s = (.ok m, s) ∧ c.Satisfied τ ∧ m.Reports τ := by
  have hbound : ∀ v, s.workspace.manager.DependsOn s.scope.context v → v < Word.signBound32 := by
    intro v hv
    obtain ⟨e, -, g, i, howner, -⟩ := h.context.exists_owner h.workspace hv
    exact (Allocation.owner?_eq_some howner).2.trans_lt (Nat.lt_of_not_le hcrowded)
  obtain ⟨ls, hls, hpath⟩ := Manager.exists_onePath h.workspace.manager h.context.contains (h.context_ne_zero hlast)
    hbound
  have htrue := hpath.value (truthOf ls) fun l hl => truthOf_natAbs hpath.increasing hl
  refine ⟨s.modelOf ls, _, ?_, satisfied_iff.mp ((h.context.value _).mp htrue), reports_modelOf⟩
  rw [run_model, h.last, hlast]
  simp only [Option.map_some, hls]
  rfl

/-- Without such a check there is no model. -/
theorem run_model_of_ne (h : Tracks s c) (hlast : c.last ≠ some .sat) :
    model.run.run s = (.error (.error .noModel), s) := by
  rw [run_model, h.last]
  rcases hc : c.last with _ | _ | _ | _
  · rfl
  · exact absurd hc hlast
  · rfl
  · rfl

theorem meets_model (h : Tracks s c) (hlast : c.last = some .sat) :
    Meets model s (fun m t => Tracks t c ∧ (t.Crowded ∨ ∃ τ, c.Satisfied τ ∧ m.Reports τ)) fun _ t => t.Crowded := by
  by_cases hcrowded : s.Crowded
  · have hrun : ∃ o, model.run.run s = (o, s) := ⟨_, rfl⟩
    obtain ⟨_ | m, hrun⟩ := hrun
    · exact meets_of_run_error hrun hcrowded
    · exact meets_of_run_ok hrun ⟨h, .inl hcrowded⟩
  · obtain ⟨m, τ, hrun, hτ, hm⟩ := exists_model h hlast hcrowded
    exact meets_of_run_ok hrun ⟨h, .inr ⟨τ, hτ, hm⟩⟩

/-! ### Interpolants -/

theorem meets_ask {question : DecisionSolver → Except (Halt SolverError) α} {a : α} {Q : α → DecisionSolver → Prop}
    {E : Halt SolverError → DecisionSolver → Prop} (h : question s = .ok a) : Meets (ask question) s Q E ↔ Q a s := by
  have hrun : (ask question).run.run s = (question s, s) := rfl
  unfold Meets
  rw [hrun, h]

/-- The conjunction of the functions of some formulas means all of these. -/
theorem meets_conjunction {xs : List Edge} {E : Halt SolverError → DecisionSolver → Prop} (hw : s.workspace.Valid)
    (h : Lists s.workspace xs P) :
    Meets (encoding (Encode.build (Build.andMany xs))) s
      (fun r t => ∃ w, t = { s with workspace := w } ∧ s.workspace.Grows w ∧ Means w r P) E := by
  refine (meets_build hw (Build.meets_andMany hw.manager h.contains)).imp ?_
  rintro r _ ⟨w, rfl, hg, hr⟩
  refine ⟨w, rfl, hg, (h.grows hw hg).means hr.contains fun ρ => ?_⟩
  rw [hr.value, Bool.eq_iff_iff, List.all_eq_true, List.all_eq_true]
  exact forall₂_congr fun x hx => by rw [hg.manager.value hw.manager (h.contains x hx)]

theorem exists_localVars {m : Manager} {f g : Edge} (hm : m.Valid) (hf : m.Contains f) (hg : m.Contains g) :
    ∃ vars, localVars m f g = .ok vars ∧ ∀ v, v ∈ vars.elements ↔ m.DependsOn f v ∧ ¬ m.DependsOn g v := by
  obtain ⟨shared, hshared, hmemg⟩ := Manager.exists_support hm hg
  obtain ⟨free, hown, hmemf⟩ := Manager.exists_support hm hf
  refine ⟨.ofList (free.elements.filter fun v => !shared.contains v), ?_, fun v => ?_⟩
  · rw [localVars, hshared]
    simp only [bind, Except.bind, hown]
    rfl
  · rw [SortedSet.mem_elements_ofList, List.mem_filter, hmemf, Bool.not_eq_true', ← Bool.not_eq_true,
      SortedSet.contains_iff, hmemg]

/-- What is recorded on the first side of a pattern are the functions of what counts with it. -/
theorem Tracks.first (h : Tracks s c) (p : Pattern) :
    Lists s.workspace (s.assertions fun sc => sc.plain ++ sc.side p.first) fun e => ∃ q, c.First p (q, e) := by
  refine ((h.stacked.lists none).append (h.stacked.lists (some p.first))).congr (fun x => ?_) fun e => ?_
  · simp only [assertions, scopes, List.mem_append, List.mem_flatMap, List.mem_reverse, ← exists_or, ← and_or_left]
    rfl
  · simp only [Context.First, Context.active]
    constructor
    · rintro (h | h)
      · exact ⟨_, h, .inl rfl⟩
      · exact ⟨_, h, .inr rfl⟩
    · rintro ⟨q, h, rfl | rfl⟩
      · exact .inl h
      · exact .inr h

/-- What is recorded on the second side of a pattern are the functions of what is on it. -/
theorem Tracks.second (h : Tracks s c) (p : Pattern) :
    Lists s.workspace (s.assertions fun sc => sc.side p.second) fun e => ∃ q, c.Second p (q, e) := by
  refine (h.stacked.lists (some p.second)).congr (fun x => ?_) fun e => ?_
  · simp only [assertions, scopes, List.mem_flatMap, List.mem_reverse]
    rfl
  · simp only [Context.Second, Context.active]
    constructor
    · exact fun h => ⟨_, h, rfl⟩
    · rintro ⟨q, h, rfl⟩
      exact h

theorem first_or_second {a : Assertion} (p : Pattern) (ha : a ∈ c.active) : c.First p a ∨ c.Second p a := by
  obtain ⟨_ | q, e⟩ := a
  · exact .inl ⟨ha, .inl rfl⟩
  · by_cases hq : q = p.first
    · exact .inl ⟨ha, .inr (congrArg some hq)⟩
    · refine .inr ⟨ha, congrArg some ?_⟩
      have hdistinct := p.distinct
      cases q <;> cases hf : p.first <;> cases hs : p.second <;> simp_all

/-- A projection of the first side to what the second depends on, where both together are false. -/
theorem interpolant_of_readAs {p : Pattern} {f g r : Edge} {V : Nat → Prop} (hw : w.Valid)
    (hf : Means w f fun e => ∃ q, c.First p (q, e)) (hg : Means w g fun e => ∃ q, c.Second p (q, e))
    (hcontext : ∀ τ, ¬ c.Satisfied τ) (hr : w.manager.Projects V f r)
    (hV : ∀ v, V v ↔ w.manager.DependsOn f v ∧ ¬ w.manager.DependsOn g v) (he : ReadAs w r e) :
    c.Interpolant p e where
  implied σ hσ := by
    have hfirst : ∀ e, (∃ q, c.First p (q, e)) → σ.Satisfies e := fun e ⟨q, h⟩ => hσ (q, e) h
    rw [hf.satisfies_iff hw] at hfirst
    rw [he.represents.satisfies_iff hw, hr.value]
    exact ⟨_, fun _ _ => rfl, hfirst⟩
  refuting σ hσ he' := by
    have hsecond : ∀ e, (∃ q, c.Second p (q, e)) → σ.Satisfies e := fun e ⟨q, h⟩ => hσ (q, e) h
    rw [hg.satisfies_iff hw] at hsecond
    rw [he.represents.satisfies_iff hw, hr.value] at he'
    obtain ⟨ρ, hρ, hfirst⟩ := he'
    -- the change leaves the second side as it is, so that both sides are true after it
    have hsame : w.manager.value ρ g = w.manager.value (w.symbols.truth σ) g :=
      Manager.value_eq_of_agree hw.manager hg.contains fun v hv => hρ v fun hVv => ((hV v).mp hVv).2 hv
    rw [← hsame, hg.value] at hsecond
    rw [hf.value] at hfirst
    refine hcontext (w.symbols.assignment ρ) fun a ha => ?_
    rcases first_or_second p ha with ha | ha
    · exact hfirst a.2 ⟨a.1, ha⟩
    · exact hsecond a.2 ⟨a.1, ha⟩
  shared s hs := by
    obtain ⟨v, i, hv, howner⟩ := he.symbols s hs
    obtain ⟨hlocal, hdep⟩ := hr.dependsOn hv
    have hown : ∀ {x P}, Means w x P → w.manager.DependsOn x v → ∃ e, P e ∧ .sym s ∈ e.subformulas := by
      intro x P hx hxv
      obtain ⟨e, he, t, j, hj, ht⟩ := hx.exists_owner hw hxv
      rw [howner, Option.some_inj, Prod.mk.injEq] at hj
      exact ⟨e, he, hj.1 ▸ ht⟩
    have hdep' : w.manager.DependsOn g v := by
      by_contra hnot
      exact hlocal ((hV v).mpr ⟨hdep, hnot⟩)
    obtain ⟨e₁, ⟨q₁, h₁⟩, hs₁⟩ := hown hf hdep
    obtain ⟨e₂, ⟨q₂, h₂⟩, hs₂⟩ := hown hg hdep'
    exact ⟨⟨_, h₁, hs₁⟩, _, h₂, hs₂⟩

/-- Every consequence of the first side whose bits all matter to the second follows from the projection already. -/
theorem strongest_of_readAs {p : Pattern} {f g r : Edge} {V : Nat → Prop} (hw : w.Valid)
    (hf : Means w f fun e => ∃ q, c.First p (q, e)) (hg : Means w g fun e => ∃ q, c.Second p (q, e))
    (hr : w.manager.Projects V f r) (hV : ∀ v, V v ↔ w.manager.DependsOn f v ∧ ¬ w.manager.DependsOn g v)
    (he : ReadAs w r e) : c.Strongest p e := by
  intro d hsymbols hd σ hσ
  rw [he.represents.satisfies_iff hw, hr.value] at hσ
  obtain ⟨ρ, hρ, hfirst⟩ := hσ
  rw [hf.value] at hfirst
  have hsat : (w.symbols.assignment ρ).Satisfies d := hd _ fun a ha => hfirst a.2 ⟨a.1, ha⟩
  refine (Assignment.satisfies_congr (Evaluates.timed hsat) fun t ht => ?_).mp hsat
  -- the second side depends on the bits of the symbol, so that the change leaves them as they are
  refine Subtype.ext (Value.eq_of_bitAt (w.symbols.assignment ρ _ _).2 (σ t.base t.generation).2 fun i hi => ?_)
  obtain ⟨τ, τ', hbeside, hτ, hτ'⟩ := hsymbols t ht i hi
  obtain ⟨v, howner, hv⟩ := hg.dependsOn_of_beside hw hbeside (fun e ⟨q, h⟩ => hτ (q, e) h)
    fun hall => hτ' fun a ha => hall a.2 ⟨a.1, ha⟩
  rw [hw.symbols.bitAt_assignment howner, hρ v fun hVv => ((hV v).mp hVv).2 hv, Allocation.truth, howner]

/-- The formula is read back from the projection of the first side to what the second depends on. -/
structure Projected (w : Workspace) (c : Context) (p : Pattern) (f g r : Edge) (e : Formula) : Prop where
  first : Means w f fun e => ∃ q, c.First p (q, e)
  second : Means w g fun e => ∃ q, c.Second p (q, e)
  projects : w.manager.Projects (fun v => w.manager.DependsOn f v ∧ ¬ w.manager.DependsOn g v) f r
  read : readback w.manager w.symbols r = .ok e
  readAs : ReadAs w r e

/-- After a check that found the assertions unsatisfiable, a projection is found in a larger workspace. -/
theorem meets_projected (p : Pattern) (h : Tracks s c) (hlast : c.last = some .unsat) :
    Meets (interpolant p) s
      (fun e t => ∃ w f g r, s.workspace.Grows w ∧ t = { s with workspace := w } ∧ Projected w c p f g r e)
      fun _ _ => False := by
  have hstands : s.last = some (.unsat, s.scope.context) := by rw [h.last, hlast, Option.map_some]
  rw [interpolant]
  simp only [meets_bind, meets_get, hstands]
  refine (meets_conjunction h.workspace (h.first p)).imp ?_
  rintro f _ ⟨w₁, rfl, hg₁, hf⟩
  refine (meets_conjunction hg₁.valid ((h.second p).grows h.workspace hg₁)).imp ?_
  rintro g _ ⟨w₂, rfl, hg₂, hg⟩
  have hf₂ := hf.grows hg₁.valid hg₂
  obtain ⟨vars, hvars, hmem⟩ := exists_localVars hg₂.valid.manager hf₂.contains hg.contains
  rw [meets_ask (by rw [hvars]; rfl)]
  refine (meets_build hg₂.valid (Build.meets_project hg₂.valid.manager hf₂.contains)).imp ?_
  rintro r _ ⟨w₃, rfl, hg₃, hr⟩
  have hf₃ := hf₂.grows hg₂.valid hg₃
  have hg' := hg.grows hg₂.valid hg₃
  have howners : ∀ v, w₃.manager.DependsOn r v → ∃ s i, w₃.symbols.owner? v = some (s, i) := fun v hv => by
    obtain ⟨e, -, s, i, howner, -⟩ := hf₃.exists_owner hg₃.valid (hr.dependsOn hv).2
    exact ⟨s, i, howner⟩
  have hV : ∀ v, v ∈ vars.elements ↔ w₃.manager.DependsOn f v ∧ ¬ w₃.manager.DependsOn g v := fun v => by
    rw [hmem, hg₃.manager.dependsOn hg₂.valid.manager hf₂.contains,
      hg₃.manager.dependsOn hg₂.valid.manager hg.contains]
  simp only [hV] at hr
  obtain ⟨e, hread, he⟩ := exists_readback hg₃.valid hr.contains howners
  rw [meets_ask (by rw [hread])]
  exact ⟨w₃, f, g, r, (hg₁.trans hg₂).trans hg₃, congrArg _ hstands, hf₃, hg', hr, hread, he⟩

theorem meets_interpolant (p : Pattern) (h : Tracks s c) (hlast : c.last = some .unsat) :
    Meets (interpolant p) s
      (fun e t => Tracks t c ∧ c.Interpolant p e ∧ c.Strongest p e ∧ e.Predicate fun _ => True)
      fun _ _ => False := by
  have hcontext : ∀ τ, ¬ c.Satisfied τ := by
    have hnone := (h.context.eq_zero_iff h.workspace).mp ((h.answered _ hlast).mp rfl)
    simpa only [satisfied_iff] using hnone
  refine (meets_projected p h hlast).imp ?_
  rintro e _ ⟨w, f, g, r, hg, rfl, hf, hs, hr, -, he⟩
  exact ⟨h.grows hg, interpolant_of_readAs hg.valid hf hs hcontext hr (fun _ => Iff.rfl) he,
    strongest_of_readAs hg.valid hf hs hr (fun _ => Iff.rfl) he, he.represents.predicate.weaken⟩

/-- Without a check that found the assertions unsatisfiable there is no interpolant. -/
theorem run_interpolant_of_ne (p : Pattern) (h : Tracks s c) (hlast : c.last ≠ some .unsat) :
    (interpolant p).run.run s = (.error (.error .noInterpolant), s) := by
  have hmeets : Meets (interpolant p) s (fun _ _ => False) fun e t => e = .error .noInterpolant ∧ t = s := by
    rw [interpolant]
    simp only [meets_bind, meets_get, h.last]
    rcases hc : c.last with _ | _ | _ | _
    · exact ⟨rfl, rfl⟩
    · exact ⟨rfl, rfl⟩
    · exact absurd hc hlast
    · exact ⟨rfl, rfl⟩
  unfold Meets at hmeets
  rcases hrun : (interpolant p).run.run s with ⟨_ | _, _⟩ <;> rw [hrun] at hmeets
  · obtain ⟨rfl, rfl⟩ := hmeets
    rfl
  · exact hmeets.elim

/-! ### The contract -/

theorem tracks_ofBits {bits : Nat} (h : ofBits bits = .ok s) : Tracks s {} := by
  rw [ofBits] at h
  cases hm : Manager.ofBits bits with
  | error => simp [hm, bind, Except.bind] at h
  | ok m =>
      simp only [hm, bind, Except.bind, pure, Except.pure, Except.ok.injEq] at h
      subst h
      have hvalid := Manager.valid_ofBits hm
      refine ⟨⟨hvalid, Allocation.consistent_empty⟩, .cons ?_ Scope.records_new .nil, rfl, nofun⟩
      refine ⟨hvalid.denotes_one.contains, ?_, fun ρ => ?_⟩
      · simp [Asserted]
      · rw [hvalid.denotes_one.value]
        simp [Asserted]

/-- The solver fulfils the strict contract, and any weaker one. Its models are lost once literals cannot name all
variables. -/
theorem contract (lenient : Prop) : Contract lenient Crowded Tracks where
  assert p _ h he := (meets_assert h p).mono (fun _ _ ht => ht.1) fun _ _ ht => he.resolve_right ht.2
  push h := tracks_push h
  pop h hc := by
    refine (meets_pop h).mono ?_ fun _ _ ht => nomatch hc.symm.trans ht.1
    rintro _ t ⟨scope, outer, heq, ht⟩
    obtain ⟨rfl, rfl⟩ := List.cons.inj (hc.symm.trans heq)
    exact ht
  lost_pop h := crowded_pop h
  check h := by
    refine (meets_check h).mono (fun status t ⟨ht, hunsat, hsat⟩ => ⟨ht, hunsat.mp, hsat.mp, ?_⟩) fun _ _ => False.elim
    rintro rfl
    by_contra
    exact nomatch hunsat.mpr fun τ hτ => nomatch hsat.mpr ⟨τ, hτ⟩
  model h hlast := (meets_model h hlast).mono (fun _ _ => id) fun _ _ => .inr
  interpolant p h hlast :=
    (meets_interpolant p h hlast).mono (fun _ _ ⟨ht, hi, _, he⟩ => ⟨ht, hi, .inr he⟩) fun _ _ => False.elim

end DecisionSolver

end Invariance
