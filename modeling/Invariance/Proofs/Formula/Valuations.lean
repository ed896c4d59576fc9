import Invariance.Proofs.Dynamics.Frames
import Invariance.Proofs.Formula.Refusals

/-!
Formulas over states. What holds in a state, or over a step from one state to the next, holds of the symbols at a frame
under an assignment that shows these states.
-/

namespace Invariance

variable {e : Formula} {s t : Valuation} {σ : Assignment} {frame : Variable → Nat} {x : Variable} {v : Sized}

/-- The state binds the variables of the formula, each within its domain. -/
def Valuation.Binds (s : Valuation) (e : Formula) : Prop :=
  ∀ x ∈ e.vars.elements, ∃ v, s.get? x = some v ∧ v.fits x.domain

theorem Reading.lookup_eq_ok {v : Value} (h : s.get? x = some v) (hv : v.fits x.domain) :
    lookup s x = .ok (.ofValue v x.domain) := by
  rw [lookup, h]
  exact if_pos hv

theorem Sized.alike_ofValue {v w : Value} {d : Domain} (hv : v.fits d) (hw : w.fits d) :
    (ofValue v d).Alike (ofValue w d) := by
  match v, w, d, hv, hw with
  | .bool b, .bool c, .bool, _, _ => exact .bool b c
  | .int x, .int y, .int k, _, _ => exact .int x y k.pos (k.le.trans (by decide))

namespace Assignment

/-- The assignment gives the variables of the formula their values in the state, at the generations of a frame. -/
def Shows (σ : Assignment) (s : Valuation) (frame : Variable → Nat) (e : Formula) : Prop :=
  ∀ x ∈ e.vars.elements, s.get? x = some (σ x (frame x)).1

theorem Shows.lookup (h : σ.Shows s frame e) (hx : .var x ∈ e.subformulas) :
    Reading.lookup s x = .ok (.ofValue (σ x (frame x)).1 x.domain) :=
  Reading.lookup_eq_ok (h x (Formula.mem_vars.mpr hx)) (σ x (frame x)).2

theorem Shows.binds (h : σ.Shows s frame e) : s.Binds e :=
  fun x hx => ⟨_, h x hx, (σ x (frame x)).2⟩

/-- The value of a formula over symbols. -/
def valueOf (σ : Assignment) (e : Formula) : Formula.Evaluated Value :=
  (e.evaluate σ.reading true).map Sized.toValue

/-- The value of a variable in a state, or a default where the state has none that fits. -/
def valueIn (s : Valuation) (x : Variable) : {v : Value // v.fits x.domain} :=
  (s.get? x).elim ((default : Assignment) x 0) fun v =>
    if h : v.fits x.domain then ⟨v, h⟩ else (default : Assignment) x 0

/-- The assignment that gives the present generation its values in one state, and all others theirs in another. -/
def ofStep (frame : Variable → Nat) (s t : Valuation) : Assignment :=
  fun x m => if m = frame x then valueIn s x else valueIn t x

/-- The assignment that gives each generation its values in the state of that number. -/
def ofStates (π : Nat → Valuation) : Assignment :=
  fun x m => valueIn (π m) x

theorem get?_eq_valueIn (h : s.Binds e) (hx : x ∈ e.vars.elements) : s.get? x = some (valueIn s x).1 := by
  obtain ⟨v, hget, hfits⟩ := h x hx
  rw [valueIn, hget, Option.elim_some, dif_pos hfits]

theorem shows_ofStep (h : s.Binds e) : (ofStep frame s t).Shows s frame e := by
  intro x hx
  rw [get?_eq_valueIn h hx, ofStep, if_pos rfl]

theorem shows_ofStep_next (h : t.Binds e) : (ofStep frame s t).Shows t (fun x => frame x + 1) e := by
  intro x hx
  rw [get?_eq_valueIn h hx, ofStep, if_neg (Nat.succ_ne_self _)]

end Assignment

namespace Formula

/-- A formula without primes, placed at a frame, has the values that it has in the state there. -/
theorem evaluates_placeAt_state (hsym : e.SymbolFree) (hprime : e.PrimeFree) (h : σ.Shows s frame e) :
    (e.placeAt frame).Evaluates σ.reading true v ↔ e.Evaluates (.ofState s) false v :=
  evaluates_retimeFrom {
    sym := fun g hg => absurd hg (hsym g)
    var := fun _ hx => ⟨rfl, h.lookup hx⟩
    next := fun _ _ hnot => absurd hprime hnot
    prime := fun f hf => absurd hf (hprime f) }

/-- A formula over a step, placed at a frame, has the values that it has over the step from there. -/
theorem evaluates_placeAt_step (hsym : e.SymbolFree) (hprime : e.SingleStep) (h : σ.Shows s frame e)
    (h' : σ.Shows t (fun x => frame x + 1) e) :
    (e.placeAt frame).Evaluates σ.reading true v ↔ e.Evaluates (.ofStep s t) false v :=
  evaluates_retimeFrom {
    sym := fun g hg => absurd hg (hsym g)
    var := fun _ hx => ⟨rfl, h.lookup hx⟩
    next := fun _ hx _ => h'.lookup hx
    prime := fun f hf => ⟨rfl, hprime f hf⟩ }

/-- Over a step, a formula has a value of the kind that it has under any assignment, or is refused for the same
reason. -/
theorem alike_placeAt_step (hsym : e.SymbolFree) (hprime : e.SingleStep) (hs : s.Binds e) (ht : t.Binds e) :
    Alike Sized.Alike (e.evaluate (.ofStep s t) false) ((e.placeAt frame).evaluate σ.reading true) := by
  have hkindred : ∀ (u : Valuation) (x : Variable) (m : Nat), u.Binds e → .var x ∈ e.subformulas →
      Kindred (Reading.lookup u x) (σ.reading.sym ⟨x, m⟩) := by
    intro u x m hu hx
    obtain ⟨v, hget, hfits⟩ := hu x (mem_vars.mpr hx)
    rw [Reading.lookup_eq_ok hget hfits]
    exact .ok (Sized.alike_ofValue hfits (σ x m).2)
  exact alike_retimeFrom {
    sym := fun g hg => absurd hg (hsym g)
    var := fun x hx => ⟨rfl, hkindred s x _ hs hx⟩
    next := fun x hx _ => hkindred t x _ ht hx
    prime := fun f hf => ⟨rfl, hprime f hf⟩ }

/-- A formula over a step, placed at a frame, has the value that it has over the step from there, or both are refused
for the same reason. -/
theorem alike_valueOf_placeAt (hsym : e.SymbolFree) (hprime : e.SingleStep) (h : σ.Shows s frame e)
    (h' : σ.Shows t (fun x => frame x + 1) e) : Alike Eq (σ.valueOf (e.placeAt frame)) (e.evalStep s t) := by
  have halike : Alike Sized.Alike (e.evaluate (.ofStep s t) false) ((e.placeAt frame).evaluate σ.reading true) :=
    alike_placeAt_step hsym hprime h.binds h'.binds
  have hvalue : ∀ v, (e.placeAt frame).evaluate σ.reading true = .ok v → e.evaluate (.ofStep s t) false = .ok v :=
    fun _ => (evaluates_placeAt_step hsym hprime h h').mp
  rw [Assignment.valueOf, evalStep]
  generalize (e.placeAt frame).evaluate σ.reading true = u at halike hvalue
  generalize e.evaluate (.ofStep s t) false = w at halike hvalue
  cases halike with
  | @ok _ b hab =>
      rw [hvalue b rfl]
      exact .ok rfl
  | sortMismatch d d' => exact .sortMismatch d' d
  | bitOutOfRange i k => exact .bitOutOfRange i k

end Formula

end Invariance
