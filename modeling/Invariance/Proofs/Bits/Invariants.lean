import Invariance.Bits.Encoding
import Invariance.Proofs.Computation
import Invariance.Proofs.Diagram.Choice
import Invariance.Proofs.Formula.Structure

/-!
Invariants of encodings. What the work on diagrams maintains, and the look-up of each symbol that occurs, the encoding
of a formula maintains.
-/

namespace Invariance

open Diagram

/-! ### Circuits -/

namespace Diagram.Build.Compositional

open Bits

variable {P : {α : Type} → Build α → Prop} (hP : Compositional P)

include hP

theorem mapM {α β : Type} {f : α → Build β} (hf : ∀ a, P (f a)) (l : List α) : P (l.mapM f) := by
  induction l with
  | nil => exact hP.pure
  | cons a l ih =>
      rw [List.mapM_cons]
      apply hP.bind (hf a)
      intro b
      exact hP.bind ih fun _ => hP.pure

theorem sum (carry : Edge) (xs ys : Signals) : P (Signals.sum carry xs ys) := by
  induction xs generalizing carry ys with
  | nil => exact hP.pure
  | cons x xs ih =>
      cases ys with
      | nil => exact hP.pure
      | cons y ys =>
          apply hP.bind (hP.ite _ _ _)
          intro half
          apply hP.bind (hP.ite _ _ _)
          intro bit
          apply hP.bind (hP.ite _ _ _)
          intro both
          apply hP.bind (hP.ite _ _ _)
          intro through
          apply hP.bind (hP.ite _ _ _)
          intro carry
          exact hP.bind (ih carry ys) fun _ => hP.pure

theorem lessFrom (less : Edge) (xs ys : Signals) : P (Signals.lessFrom less xs ys) := by
  fun_induction Signals.lessFrom with
  | case1 less x y => exact hP.bind (hP.ite _ _ _) fun _ => hP.ite _ _ _
  | case2 less x xs y ys _ ih =>
      apply hP.bind (hP.ite _ _ _)
      intro differ
      exact hP.bind (hP.ite _ _ _) fun less => ih less
  | case3 => exact hP.pure

theorem same (xs ys : Signals) : P (Signals.same xs ys) := by
  apply hP.andFrom
  intro b hb
  rw [← List.map_uncurry_zip_eq_zipWith] at hb
  obtain ⟨p, -, rfl⟩ := List.mem_map.mp hb
  exact hP.ite _ _ _

theorem choose (test : Edge) (xs ys : Signals) : P (Signals.choose test xs ys) :=
  hP.mapM (fun _ => hP.ite _ _ _) _

end Diagram.Build.Compositional

/-! ### Formulas -/

namespace Bits.Code

open Encode

attribute [local simp] Formula.children

variable {I : Workspace → Prop} {P : {α : Type} → Build α → Prop} {e a b : Formula} {es : List Formula}

theorem maintains_asBool (e : Formula) (c : Code) : Maintains I (asBool e c) := by
  cases c with
  | bool x => exact maintains_pure
  | int xs => exact maintains_throw

theorem maintains_asInt (e : Formula) (c : Code) : Maintains I (asInt e c) := by
  cases c with
  | bool x => exact maintains_throw
  | int xs => exact maintains_pure

/-- An operator on two words of equal width. -/
private theorem maintains_words {β : Type} {g : Signals → Signals → Encode β} (iha : Maintains I (ofFormula a))
    (ihb : Maintains I (ofFormula b)) (hg : ∀ xs ys, Maintains I (g xs ys)) :
    Maintains I (do
      let xs ← asInt a (← ofFormula a)
      let ys ← asInt b (← ofFormula b)
      g xs ys) := by
  apply iha.bind
  intro c
  apply (maintains_asInt a c).bind
  intro xs
  apply ihb.bind
  intro d
  exact (maintains_asInt b d).bind fun ys => hg xs ys

section Formulas

variable (hP : Build.Compositional P)
variable (hbuild : ∀ {α : Type} {work : Build α}, P work → Maintains I (build work))

include hbuild

/-- The functions of the operands of a conjunction or disjunction are joined one after the other. -/
private theorem maintains_joined {op : Edge → Edge → Build Edge} {g : Edge → List Formula → Encode Edge}
    (hnil : ∀ x, g x [] = pure x)
    (hcons : ∀ x e es, g x (e :: es) =
      (ofFormula e >>= fun c => asBool e c >>= fun y => build (op x y) >>= fun x => g x es))
    (hop : ∀ x y, P (op x y)) (ih : ∀ e ∈ es, Maintains I (ofFormula e)) (x : Edge) : Maintains I (g x es) := by
  induction es generalizing x with
  | nil =>
      rw [hnil]
      exact maintains_pure
  | cons e es ihes =>
      obtain ⟨ihe, ih⟩ := List.forall_mem_cons.mp ih
      rw [hcons]
      apply ihe.bind
      intro c
      apply (maintains_asBool e c).bind
      intro y
      exact (hbuild (hop x y)).bind fun x => ihes ih x

include hP

theorem maintains_ofFormula (hsym : ∀ s, .sym s ∈ e.subformulas → Maintains I (ofSymbol s)) :
    Maintains I (ofFormula e) := by
  have hchild : ∀ {d c : Formula}, (∀ s, .sym s ∈ d.subformulas → Maintains I (ofSymbol s)) → c ∈ d.children →
      ∀ s, .sym s ∈ c.subformulas → Maintains I (ofSymbol s) :=
    fun hd hc s hs => hd s (Formula.mem_subformulas_of_child hc hs)
  induction e with
  | bool b =>
      rw [ofFormula]
      exact maintains_pure
  | int v =>
      rw [ofFormula]
      split
      · exact maintains_pure
      · exact maintains_throw
  | var x => exact maintains_throw
  | prime e ih => exact maintains_throw
  | sym s =>
      rw [ofFormula]
      exact hsym s (Formula.self_mem_subformulas _)
  | not e ih =>
      rw [ofFormula]
      exact (ih (hchild hsym (by simp))).bind fun c =>
        (maintains_asBool e c).bind fun _ => maintains_pure
  | and es ih =>
      rw [ofFormula]
      have hjoined := maintains_joined hbuild (g := conjoin) (fun x => by rw [conjoin]) (fun x e es => by rw [conjoin])
        hP.and (fun e he => ih e he (hchild hsym he)) .one
      exact hjoined.bind fun _ => maintains_pure
  | or es ih =>
      rw [ofFormula]
      have hjoined := maintains_joined hbuild (g := disjoin) (fun x => by rw [disjoin]) (fun x e es => by rw [disjoin])
        hP.or (fun e he => ih e he (hchild hsym he)) .zero
      exact hjoined.bind fun _ => maintains_pure
  | imply a b iha ihb =>
      rw [ofFormula]
      apply (iha (hchild hsym (by simp))).bind
      intro c
      apply (maintains_asBool a c).bind
      intro f
      apply (ihb (hchild hsym (by simp))).bind
      intro d
      apply (maintains_asBool b d).bind
      intro g
      exact (hbuild (hP.ite _ _ _)).bind fun _ => maintains_pure
  | ite c a b ihc iha ihb =>
      rw [ofFormula]
      apply (ihc (hchild hsym (by simp))).bind
      intro k
      apply (maintains_asBool c k).bind
      intro test
      apply (iha (hchild hsym (by simp))).bind
      intro x
      apply (ihb (hchild hsym (by simp))).bind
      intro y
      split
      · exact (hbuild (hP.ite _ _ _)).bind fun _ => maintains_pure
      · exact (hbuild (hP.choose _ _ _)).bind fun _ => maintains_pure
      · exact maintains_throw
  | add a b iha ihb =>
      rw [ofFormula]
      refine maintains_words (iha (hchild hsym ?_)) (ihb (hchild hsym ?_)) fun _ _ =>
        (hbuild (hP.sum _ _ _)).bind fun _ => maintains_pure <;> simp
  | sub a b iha ihb =>
      rw [ofFormula]
      refine maintains_words (iha (hchild hsym ?_)) (ihb (hchild hsym ?_)) fun _ _ =>
        (hbuild (hP.sum _ _ _)).bind fun _ => maintains_pure <;> simp
  | neg e ih =>
      rw [ofFormula]
      apply (ih (hchild hsym (by simp))).bind
      intro c
      apply (maintains_asInt e c).bind
      intro xs
      exact (hbuild (hP.sum _ _ _)).bind fun _ => maintains_pure
  | eq a b iha ihb =>
      rw [ofFormula]
      apply (iha (hchild hsym (by simp))).bind
      intro x
      apply (ihb (hchild hsym (by simp))).bind
      intro y
      split
      · exact (hbuild (hP.ite _ _ _)).bind fun _ => maintains_pure
      · exact (hbuild (hP.same _ _)).bind fun _ => maintains_pure
      · exact maintains_throw
  | lt a b iha ihb =>
      rw [ofFormula]
      refine maintains_words (iha (hchild hsym ?_)) (ihb (hchild hsym ?_)) fun _ _ =>
        (hbuild (hP.lessFrom _ _ _)).bind fun _ => maintains_pure <;> simp
  | le a b iha ihb =>
      rw [ofFormula]
      refine maintains_words (iha (hchild hsym ?_)) (ihb (hchild hsym ?_)) fun _ _ =>
        (hbuild (hP.lessFrom _ _ _)).bind fun _ => maintains_pure <;> simp
  | bit e i ih =>
      rw [ofFormula]
      apply (ih (hchild hsym (by simp))).bind
      intro c
      apply (maintains_asInt e c).bind
      intro xs
      split
      · exact maintains_pure
      · exact maintains_throw

theorem maintains_encode (hsym : ∀ s, .sym s ∈ e.subformulas → Maintains I (ofSymbol s)) : Maintains I (encode e) :=
  (maintains_ofFormula hP hbuild hsym).bind fun c => maintains_asBool e c

end Formulas

end Bits.Code

end Invariance
