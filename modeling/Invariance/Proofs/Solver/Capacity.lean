import Invariance.Proofs.Bits.Invariants
import Invariance.Proofs.Solver.Calls

/-!
How many variables a solver has. A variable gets a node of its own as soon as its symbol is met, and nodes stay, so that
there are never more variables than nodes. A solver does not run out of literals, therefore, before its manager has more
nodes than edges of 32 bits can tell apart.
-/

namespace Invariance

open Slots

/-! ### Nodes that stay -/

namespace Diagram.Build

open Manager

variable {I : Manager → Prop} {m : Manager} {v : Nat}

theorem maintains_ask {α : Type} (question : Manager → Except Fault α) : Maintains I (ask question) :=
  maintains_of_unchanged fun _ => rfl

theorem keeps_put (n : Node) :
    m.Keeps ⟨(m.nodes.put n).2, m.choices⟩ ∧ (m.nodes.put n).2.get (m.nodes.put n).1 = .ok n := by
  rw [Interning.put_eq]
  cases hsearch : m.nodes.search n 0 (m.nodes.heads.getD (slot n m.nodes.heads.size) 0) with
  | found i => exact ⟨fun _ _ => id, Interning.search_found hsearch⟩
  | absent last => exact ⟨fun _ _ => Interning.get_append_of_get, Interning.get_append_new⟩

theorem maintains_intern (n : Node) : Maintains m.Keeps (intern n) :=
  fun _ hm => meets_of_run_ok run_intern (hm.trans (keeps_put n).1)

theorem compositional_keeps : Compositional fun {α} (work : Build α) => ∀ m : Manager, Maintains m.Keeps work where
  pure _ := maintains_pure
  throw _ := maintains_throw
  bind hx hf m := (hx m).bind fun a => hf a m
  intern n _ _ := maintains_intern n
  split _ _ := maintains_ask _
  remembered _ _ _ hm := hm
  remember _ _ _ _ hm := hm

theorem maintains_existsWithin (vars : SortedSet Nat) (deepest k : Nat) (done : Std.TreeMap Edge Edge) (e : Edge) :
    Maintains m.Keeps (existsWithin vars deepest k done e) := by
  induction k generalizing done e with
  | zero => exact maintains_throw
  | succ k ih =>
      rw [existsWithin]
      by_cases hconst : e.isConst = true
      · rw [if_pos hconst]
        exact maintains_pure
      simp only [if_neg hconst]
      apply (maintains_ask _).bind
      intro v
      by_cases hv : deepest < v
      · rw [if_pos hv]
        exact maintains_pure
      simp only [if_neg hv]
      cases done[e]? with
      | some r => exact maintains_pure
      | none =>
          apply (maintains_ask _).bind
          intro low
          apply (ih done low).bind
          intro p
          obtain ⟨low, done⟩ := p
          apply (maintains_ask _).bind
          intro high
          apply (ih done high).bind
          intro p
          obtain ⟨high, done⟩ := p
          split
          · exact (compositional_keeps.or _ _ m).bind fun _ => maintains_pure
          · exact (compositional_keeps.mkNode _ _ _ m).bind fun _ => maintains_pure

theorem maintains_project (e : Edge) (vars : SortedSet Nat) : Maintains m.Keeps (project e vars) := by
  rw [project]
  split
  · exact maintains_pure
  · exact (maintains_existsWithin _ _ _ _ _).bind fun _ => maintains_pure

end Diagram.Build

namespace Bits

open Diagram

variable {m : Manager}

/-! ### Nodes of variables -/

/-- The variable that a node decides; 0 if there is no such node. -/
def varAt (m : Manager) (i : Nat) : Nat :=
  match m.node i with
  | .ok n => n.var
  | .error _ => 0

/-- Some node decides the variable. -/
def HasNode (m : Manager) (v : Nat) : Prop :=
  ∃ i n, m.node i = .ok n ∧ n.var = v

/-- Every variable of a symbol is decided by some node. -/
def Workspace.Housed (w : Workspace) : Prop :=
  ∀ v, 0 < v → v ≤ w.symbols.size → HasNode w.manager v

variable {w : Workspace}

theorem HasNode.keeps {m' : Manager} {v : Nat} (h : HasNode m v) (hm : m.Keeps m') : HasNode m' v := by
  obtain ⟨i, n, hn, hv⟩ := h
  exact ⟨i, n, hm i n hn, hv⟩

theorem Allocation.size_allot {a : Allocation} {s : Symbol} (h : a.get? s = none) :
    (a.allot s).2.size = a.size + s.domain.bits := by
  simp only [allot, h, size]
  rw [← Array.length_toList, Array.toList_appendList, List.length_append, Array.length_toList, List.length_map,
    List.length_range]

/-- No two variables have the same node. -/
theorem Workspace.Housed.size_le (h : w.Housed) : w.symbols.size ≤ w.manager.size := by
  have hvars : Finset.Icc 1 w.symbols.size ⊆ (Finset.Icc 1 w.manager.size).image (varAt w.manager) := by
    intro v hv
    rw [Finset.mem_Icc] at hv
    obtain ⟨i, n, hn, rfl⟩ := h v hv.1 hv.2
    have hi : 1 ≤ i := (Interning.get_eq_ok_iff.mp hn).1
    have hle : i ≤ w.manager.size := Interning.le_size_of_get hn
    have hvar : varAt w.manager i = n.var := by rw [varAt, hn]
    exact Finset.mem_image.mpr ⟨i, Finset.mem_Icc.mpr ⟨hi, hle⟩, hvar⟩
  simpa using (Finset.card_le_card hvars).trans Finset.card_image_le

theorem meets_mkVar_hasNode {v : Nat} (hv : 0 < v) :
    Meets (Build.mkVar v) m (fun _ m' => m.Keeps m' ∧ HasNode m' v) fun _ _ => False := by
  have hmk : Build.mkVar v = Build.intern ⟨v, .zero, .one⟩ := by
    rw [Build.mkVar, Build.mkNode, if_neg hv.ne']
    rfl
  have hput := Build.keeps_put (m := m) ⟨v, .zero, .one⟩
  rw [hmk]
  exact meets_of_run_ok Build.run_intern ⟨hput.1, _, _, hput.2, rfl⟩

namespace Encode

theorem housed_build {α : Type} {work : Build α} (h : ∀ m : Manager, Maintains m.Keeps work) :
    Maintains Workspace.Housed (build work) := by
  intro w hw
  have hmeets := h w.manager w.manager fun _ _ => id
  have hrun : (build work).run.run w = _ := run_build
  unfold Meets at hmeets
  rcases hwork : work.run.run w.manager with ⟨f | x, m⟩ <;> rw [hwork] at hmeets hrun
  · exact meets_of_run_error hrun fun v hpos hle => (hw v hpos hle).keeps hmeets
  · exact meets_of_run_ok hrun fun v hpos hle => (hw v hpos hle).keeps hmeets

end Encode

namespace Code

open Encode

private theorem meets_mapM_mkVar_hasNode {vs : List Nat} (hvs : ∀ v ∈ vs, 0 < v) :
    Meets (vs.mapM fun v => build (Build.mkVar v)) w
      (fun _ w' => w.manager.Keeps w'.manager ∧ w'.symbols = w.symbols ∧ ∀ v ∈ vs, HasNode w'.manager v)
      fun _ _ => False := by
  induction vs generalizing w with
  | nil => exact ⟨fun _ _ => id, rfl, fun _ hv => nomatch hv⟩
  | cons v vs ih =>
      obtain ⟨hv, hvs⟩ := List.forall_mem_cons.mp hvs
      rw [List.mapM_cons]
      apply (meets_build (meets_mkVar_hasNode hv)).bind
      rintro x w₁ ⟨⟨hkeeps₁, hnode⟩, hsymbols₁⟩
      apply (ih hvs).bind
      rintro xs w₂ ⟨hkeeps₂, hsymbols₂, hnodes⟩
      exact ⟨hkeeps₁.trans hkeeps₂, hsymbols₂.trans hsymbols₁,
        List.forall_mem_cons.mpr ⟨hnode.keeps hkeeps₂, hnodes⟩⟩

/-- The variables of a new symbol are made functions at once. -/
theorem housed_ofSymbol (s : Symbol) : Maintains Workspace.Housed (ofSymbol s) := by
  intro w hw
  have hfunctions : Meets (allot s) w
      (fun vs w' => Meets (vs.mapM fun v => build (Build.mkVar v)) w' (fun _ w'' => w''.Housed) fun _ w'' => w''.Housed)
      fun _ w' => w'.Housed := by
    apply meets_of_run_ok run_allot
    cases hget : w.symbols.get? s with
    | some vs =>
        rw [Allocation.allot, hget]
        exact maintains_mapM (fun v => housed_build (Build.compositional_keeps.mkNode v _ _)) vs w hw
    | none =>
        have hsize := Allocation.size_allot hget
        have hvars : (w.symbols.allot s).1 = List.range' (w.symbols.size + 1) s.domain.bits := by
          rw [Allocation.allot, hget]
        rw [hvars]
        have hpos : ∀ v ∈ List.range' (w.symbols.size + 1) s.domain.bits, 0 < v := by
          intro v hv
          rw [List.mem_range'_1] at hv
          omega
        apply (meets_mapM_mkVar_hasNode hpos).mono _ fun _ _ => False.elim
        rintro xs w' ⟨hkeeps, hsymbols, hnodes⟩ v hv hle
        by_cases hold : v ≤ w.symbols.size
        · exact (hw v hv hold).keeps hkeeps
        · apply hnodes
          rw [hsymbols, hsize] at hle
          rw [List.mem_range'_1]
          omega
  apply hfunctions.bind
  intro vs w' hw'
  apply hw'.bind
  intro xs w'' hw''
  split <;> exact hw''

theorem housed_encode (e : Formula) : Maintains Workspace.Housed (encode e) :=
  maintains_encode Build.compositional_keeps housed_build fun s _ => housed_ofSymbol s

end Code

end Bits

/-! ### Solvers -/

namespace DecisionSolver

open Bits Diagram

variable {s : DecisionSolver} {α : Type}

/-- Every variable of a symbol that the solver has met is decided by some node. -/
def Housed (s : DecisionSolver) : Prop :=
  s.workspace.Housed

theorem maintains_encoding {work : Encode α} (h : Maintains Workspace.Housed work) :
    Maintains Housed (encoding work) := by
  intro s hs
  apply (meets_encoding (h s.workspace hs)).mono
  · rintro _ _ ⟨w, rfl, hw⟩
    exact hw
  · rintro _ _ ⟨w, rfl, hw⟩
    exact hw

theorem maintains_assert (p : Option Partition) (e : Formula) : Maintains Housed (assert p e) := by
  rw [assert]
  by_cases hindexed : e.isUnindexed = true
  · rw [if_pos hindexed]
    exact fun _ hs => hs
  · rw [if_neg hindexed]
    have hclear : Maintains Housed (modify fun s => { s with last := none } : Request DecisionSolver Unit) :=
      fun _ hs => hs
    have hrecord : ∀ f context : Edge, Maintains Housed
        (modify fun s => { s with scope := s.scope.record p f context } : Request DecisionSolver Unit) :=
      fun _ _ _ hs => hs
    apply (maintains_encoding (Code.housed_encode e)).bind
    intro f
    apply hclear.bind
    intro _
    apply (maintains_of_unchanged fun _ => rfl).bind
    intro s
    apply (maintains_encoding (Encode.housed_build (Build.compositional_keeps.and _ _))).bind
    intro context
    exact hrecord f context

theorem maintains_pop : Maintains Housed pop := by
  apply (maintains_of_unchanged fun _ => rfl).bind
  intro s
  cases s.outer with
  | nil => exact maintains_throw
  | cons scope outer => exact fun _ ht => ht

theorem maintains_check : Maintains Housed check :=
  fun _ hs => hs

theorem maintains_model : Maintains Housed model :=
  maintains_of_unchanged fun _ => rfl

theorem maintains_interpolant (p : Pattern) : Maintains Housed (interpolant p) := by
  have hget : Maintains Housed (get : Request DecisionSolver DecisionSolver) := maintains_of_unchanged fun _ => rfl
  have hconjunction : ∀ es, Maintains Housed (encoding (Encode.build (Build.andMany es))) :=
    fun es => maintains_encoding (Encode.housed_build (Build.compositional_keeps.andMany es))
  have hproject : ∀ r vars, Maintains Housed (encoding (Encode.build (Build.project r vars))) :=
    fun r vars => maintains_encoding (Encode.housed_build fun _ => Build.maintains_project r vars)
  rw [interpolant]
  apply hget.bind
  intro s
  split
  · apply hget.bind
    intro s
    apply hget.bind
    intro t
    apply (hconjunction _).bind
    intro f
    apply (hconjunction _).bind
    intro g
    apply (maintains_of_unchanged fun _ => rfl).bind
    intro vars
    apply (hproject f vars).bind
    intro r
    exact maintains_of_unchanged fun _ => rfl
  · exact fun _ hs => hs

theorem maintains_request (call : Call) : Maintains Housed (call.request : Request DecisionSolver (Option Status)) := by
  cases call with
  | assert p e => exact (maintains_assert p e).bind fun _ => maintains_pure
  | push => exact fun _ hs => hs
  | pop => exact maintains_pop.bind fun _ => maintains_pure
  | check => exact maintains_check.bind fun _ => maintains_pure
  | model => exact maintains_model.bind fun _ => maintains_pure
  | interpolant p => exact (maintains_interpolant p).bind fun _ => maintains_pure

theorem housed_ofBits {bits : Nat} (hs : ofBits bits = .ok s) : Housed s := by
  rw [ofBits] at hs
  cases hm : Manager.ofBits bits with
  | error => simp [hm, bind, Except.bind] at hs
  | ok m =>
      simp only [hm, bind, Except.bind, pure, Except.pure, Except.ok.injEq] at hs
      subst hs
      -- no symbol has been met
      intro v hpos hle
      exact absurd hle (Nat.not_le_of_lt hpos)

theorem Idle.housed (h : Idle s) : Housed s := by
  obtain ⟨bits, first, calls, c, hfirst, hcalls, hc⟩ := h
  have hall := Call.performAll_induction (P := fun s _ => Housed s) (housed_ofBits hfirst)
    (fun s _ call hs => maintains_request call s hs) calls
  rwa [hcalls] at hall

/-- Edges of 32 bits cannot tell the nodes of the manager apart. -/
def Full (s : DecisionSolver) : Prop :=
  Word.signBound32 ≤ s.workspace.manager.size

instance : DecidablePred Full :=
  fun s => inferInstanceAs (Decidable (Word.signBound32 ≤ s.workspace.manager.size))

theorem Crowded.full (h : s.Crowded) (hs : s.Housed) : s.Full :=
  h.trans hs.size_le

theorem full_pop (h : s.Full) : Meets pop s (fun _ t => t.Full) fun _ t => t.Full := by
  obtain ⟨w, _ | _, sc, last⟩ := s <;> exact h

/-- The solver keeps track of the context, and has a node for every variable. -/
structure Carries (s : DecisionSolver) (c : Context) : Prop where
  tracks : Tracks s c
  housed : Housed s

theorem Idle.carries (h : Idle s) : ∃ c, Carries s c ∧ c.active = [] := by
  obtain ⟨c, htracks, hc⟩ := h.tracks
  exact ⟨c, ⟨htracks, h.housed⟩, hc⟩

/-- The solver fulfils the strict contract, and any weaker one. Its models are not lost before the manager is full. -/
theorem contract_full (lenient : Prop) : Contract lenient Full Carries where
  assert p e h he := (((contract lenient).assert p e h.tracks he).and (maintains_assert p e _ h.housed)).mono
    (fun _ _ ⟨ht, hs⟩ => ⟨ht, hs⟩) fun _ _ => And.left
  push h := ⟨tracks_push h.tracks, h.housed⟩
  pop h hc := (((contract lenient).pop h.tracks hc).and (maintains_pop _ h.housed)).mono
    (fun _ _ ⟨ht, hs⟩ => ⟨ht, hs⟩) fun _ _ => And.left
  lost_pop h := full_pop h
  check h := (((contract lenient).check h.tracks).and (maintains_check _ h.housed)).mono
    (fun _ _ ⟨⟨ht, hanswer⟩, hs⟩ => ⟨⟨ht, hs⟩, hanswer⟩) fun _ _ => And.left
  model h hlast := (((contract lenient).model h.tracks hlast).and (maintains_model _ h.housed)).mono
    (fun _ _ ⟨⟨ht, hanswer⟩, hs⟩ => ⟨⟨ht, hs⟩, hanswer.imp_left fun hcrowded => hcrowded.full hs⟩)
    fun _ _ ⟨hcut, hs⟩ => hcut.imp_right fun hcrowded => hcrowded.full hs
  interpolant p h hlast :=
    (((contract lenient).interpolant p h.tracks hlast).and (maintains_interpolant p _ h.housed)).mono
      (fun _ _ ⟨⟨ht, hanswer⟩, hs⟩ => ⟨⟨ht, hs⟩, hanswer⟩) fun _ _ => And.left

end DecisionSolver

end Invariance
