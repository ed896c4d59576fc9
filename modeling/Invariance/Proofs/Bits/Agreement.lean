import Invariance.Proofs.Bits.Encoding
import Invariance.Proofs.Formula.Valuations

/-!
Encoding against evaluation. A formula unfolded at a clock is encoded exactly if it has a truth value over a step, and
is refused for the reason for which it has none. The function that it becomes takes this truth value where the variables
spell the states before and after the step.
-/

namespace Invariance.Bits

open Formula

variable {w : Workspace} {e f : Formula} {s t : Valuation} {c : Clock} {ρ : Nat → Bool} {g : Symbol}

/-- The variables of the symbol have the bits of the value. -/
def Allocation.Spells (a : Allocation) (ρ : Nat → Bool) (g : Symbol) (v : Value) : Prop :=
  ∀ i k, a.owner? k = some (g, i) → ρ k = v.bitAt i

/-- The variables spell the state before a step at the generations of the clock, and the state after it at the next
ones. -/
structure Allocation.SpellsStep (a : Allocation) (ρ : Nat → Bool) (c : Clock) (e : Formula) (s t : Valuation) :
    Prop where
  present : ∀ x ∈ e.vars.elements, ∀ v, s.get? x = some v → a.Spells ρ ⟨x, c.get x⟩ v
  next : ∀ x ∈ e.vars.elements, ∀ v, t.get? x = some v → a.Spells ρ ⟨x, c.get x + 1⟩ v

/-- An encoding is refused for the reason for which an evaluation has no truth value. An integer is of the wrong sort
for an encoding. -/
inductive Mirrors : Halt FormulaError → Evaluated Value → Prop
  | sortMismatch (d d' : Formula) : Mirrors (.error (.sortMismatch d)) (.error (.error (.sortMismatch d')))
  | integer (d : Formula) (v : Int64) : Mirrors (.error (.sortMismatch d)) (.ok (.int v))
  | bitOutOfRange (i k : Nat) : Mirrors (.error (.bitOutOfRange i k)) (.error (.error (.bitOutOfRange i k)))

/-- A symbol whose variables spell a value has it. -/
theorem Allocation.Consistent.assignment_eq_of_spells {a : Allocation} (h : a.Consistent) (hg : a.Has g)
    {v : {v : Value // v.fits g.domain}} (hv : a.Spells ρ g v.1) : a.assignment ρ g.base g.generation = v := by
  obtain ⟨vs, hvs⟩ := hg
  refine Subtype.ext (Value.eq_of_bitAt (a.assignment ρ g.base g.generation).2 v.2 fun i hi => ?_)
  change i < g.domain.bits at hi
  rw [← h.length g vs hvs] at hi
  have howner := h.owned g vs i vs[i] hvs (List.getElem?_eq_getElem hi)
  rw [h.bitAt_assignment howner, hv i _ howner]

/-- A function that represents a formula at a clock has the truth value of the formula over a step where the variables
spell the step. -/
private theorem Represents.value_of_spellsStep {x : Diagram.Edge} (hw : w.Valid)
    (h : Represents w (e.placeAt c.get) (.bool x)) (hsym : e.SymbolFree) (hprime : e.SingleStep) (hs : s.Binds e)
    (ht : t.Binds e) : ∃ b, e.evalStep s t = .ok (.bool b) ∧
      ∀ ρ, w.symbols.SpellsStep ρ c e s t → w.manager.value ρ x = b := by
  have hpresent : (Assignment.ofStep c.get s t).Shows s c.get e := Assignment.shows_ofStep hs
  have hnext : (Assignment.ofStep c.get s t).Shows t (fun x => c.get x + 1) e := Assignment.shows_ofStep_next ht
  -- a symbol of the formula has its variable's value in one state or the other
  have hvalue : ∀ ρ g, w.symbols.SpellsStep ρ c e s t → .sym g ∈ (e.placeAt c.get).subformulas →
      w.symbols.assignment ρ g.base g.generation = Assignment.ofStep c.get s t g.base g.generation := by
    intro ρ g hρ hg
    have hx := mem_vars.mpr (var_mem_of_sym_mem_placeAt hsym hg)
    refine hw.symbols.assignment_eq_of_spells (h.allotted g hg) ?_
    obtain ⟨x, m⟩ := g
    rcases generation_of_singleStep hsym hprime hg with hm | hm <;> dsimp only at hm <;> subst hm
    · exact hρ.present x hx _ (hpresent x hx)
    · exact hρ.next x hx _ (hnext x hx)
  have hstep : ∀ ρ, w.symbols.SpellsStep ρ c e s t →
      e.Evaluates (.ofStep s t) false (.bool (w.manager.value ρ x)) := by
    intro ρ hρ
    apply (evaluates_placeAt_step hsym hprime hpresent hnext).mp
    exact (Assignment.evaluates_congr h.timed fun g hg => hvalue ρ g hρ hg).mp (h.value ρ)
  have hspells : ∀ (x : Variable) m, w.symbols.Spells (w.symbols.truth (Assignment.ofStep c.get s t)) ⟨x, m⟩
      (Assignment.ofStep c.get s t x m).1 := by
    intro x m i k howner
    rw [Allocation.truth, howner]
  have htruth : w.symbols.SpellsStep (w.symbols.truth (Assignment.ofStep c.get s t)) c e s t := by
    constructor
    · intro x hx v hv
      rw [hpresent x hx] at hv
      exact Option.some.inj hv ▸ hspells x (c.get x)
    · intro x hx v hv
      rw [hnext x hx] at hv
      exact Option.some.inj hv ▸ hspells x (c.get x + 1)
  refine ⟨_, ?_, fun ρ hρ => Sized.bool.inj ((hstep ρ hρ).unique (hstep _ htruth))⟩
  rw [evalStep, hstep _ htruth]
  rfl

/-- A refused encoding mirrors the evaluation. -/
private theorem mirrors_of_evaluateBool {h : Halt FormulaError} {σ : Assignment} (hsym : e.SymbolFree)
    (hprime : e.SingleStep) (hs : s.Binds e) (ht : t.Binds e)
    (herr : (e.placeAt c.get).evaluateBool σ.reading true = .error h) : Mirrors h (e.evalStep s t) := by
  have halike : Alike Sized.Alike (e.evaluate (.ofStep s t) false) ((e.placeAt c.get).evaluate σ.reading true) :=
    alike_placeAt_step hsym hprime hs ht
  rw [Formula.evaluateBool] at herr
  rw [evalStep]
  generalize e.evaluate (.ofStep s t) false = u at halike
  generalize (e.placeAt c.get).evaluate σ.reading true = v at halike herr
  cases halike with
  | ok hkind =>
      cases hkind with
      | bool a b => cases herr
      | int x y _ _ =>
          cases herr
          exact .integer _ x
  | sortMismatch d d' =>
      cases herr
      exact .sortMismatch d' d
  | bitOutOfRange i k =>
      cases herr
      exact .bitOutOfRange i k

/-- Encoding agrees with evaluation. -/
theorem meets_encode_unfold (hw : w.Valid) (hsym : e.SymbolFree) (hprime : e.SingleStep) (hf : e.unfold c = .ok f)
    (hs : s.Binds e) (ht : t.Binds e) :
    Meets (encode f) w
      (fun x w' => ∃ b, e.evalStep s t = .ok (.bool b) ∧
        ∀ ρ, w'.symbols.SpellsStep ρ c e s t → w'.manager.value ρ x = b)
      fun h _ => Mirrors h (e.evalStep s t) := by
  obtain ⟨rfl, -⟩ := of_unfold_eq_ok hsym hf
  apply (meets_encode hw).mono
  · rintro x w' ⟨hg, hx⟩
    exact hx.value_of_spellsStep hg.valid hsym hprime hs ht
  · rintro h w' ⟨-, herr⟩
    exact mirrors_of_evaluateBool hsym hprime hs ht (herr fun _ => false)

/-- A variable that is true stays so. -/
private def kept : Formula :=
  .imply (.var ⟨"x", .bool⟩) (.prime (.var ⟨"x", .bool⟩))

private def bound (b : Bool) : Valuation :=
  SortedMap.empty.insert ⟨"x", .bool⟩ (.bool b)

private theorem binds_bound (b : Bool) : (bound b).Binds kept := by
  intro x hx
  obtain rfl : x = ⟨"x", .bool⟩ := by simpa [kept, subformulas] using mem_vars.mp hx
  exact ⟨.bool b, SortedMap.get?_insert_self, rfl⟩

/-- Over the step on which the variable becomes false, its encoding is false. -/
theorem encode_unfold_kept : ∃ m f x w', Diagram.Manager.ofBits 3 = .ok m ∧ kept.unfold (.all 5) = .ok f ∧
    (encode f).run.run ⟨m, .empty⟩ = (.ok x, w') ∧
    ∀ ρ, w'.symbols.SpellsStep ρ (.all 5) kept (bound true) (bound false) → w'.manager.value ρ x = false := by
  have hm : Diagram.Manager.ofBits 3 = .ok _ := rfl
  have hf : kept.unfold (.all 5) = .ok _ := rfl
  have hsym : kept.SymbolFree := by simp [kept, SymbolFree, subformulas]
  have hprime : kept.SingleStep := by simp [kept, SingleStep, PrimeFree, subformulas]
  have hmeets := meets_encode_unfold (w := ⟨_, .empty⟩) ⟨Diagram.Manager.valid_ofBits hm, Allocation.consistent_empty⟩
    hsym hprime hf (binds_bound true) (binds_bound false)
  have hvalue : kept.evalStep (bound true) (bound false) = .ok (.bool false) := rfl
  rw [hvalue] at hmeets
  have hdone : Meets (encode _) _ _ fun _ _ => False := hmeets.mono (fun _ _ => id) (by rintro _ _ ⟨⟩)
  obtain ⟨x, w', hrun, b, hb, hρ⟩ := hdone.exists_ok
  cases hb
  exact ⟨_, _, x, w', hm, hf, hrun, hρ⟩

end Invariance.Bits
