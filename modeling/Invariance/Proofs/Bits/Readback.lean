import Invariance.Bits.Readback
import Invariance.Proofs.Bits.Encoding

/-!
Formulas of diagrams. A diagram whose variables belong to symbols is read back as a formula that it represents, over
the symbols on which its function depends. Of any other diagram a variable that belongs to no symbol is reported.
-/

namespace Invariance

/-! ### Formulas over symbols -/

namespace Formula

/-- The formula is put together from symbols and single bits of symbols. -/
inductive OverSymbols : Formula → Prop where
  | sym (s : Symbol) : OverSymbols (.sym s)
  | bit (s : Symbol) (i : Nat) : OverSymbols (.bit (.sym s) i)
  | not {e : Formula} (he : OverSymbols e) : OverSymbols (.not e)
  | and {e f : Formula} (he : OverSymbols e) (hf : OverSymbols f) : OverSymbols (.and [e, f])
  | or {e f : Formula} (he : OverSymbols e) (hf : OverSymbols f) : OverSymbols (.or [e, f])
  | ite {e f g : Formula} (he : OverSymbols e) (hf : OverSymbols f) (hg : OverSymbols g) : OverSymbols (.ite e f g)

namespace OverSymbols

variable {e f : Formula}

theorem constant?_eq_none (h : e.OverSymbols) : e.constant? = none := by
  cases h <;> rfl

theorem mkNot (h : e.OverSymbols) : e.mkNot.OverSymbols := by
  have hnot := h.not
  cases h with
  | not he => exact he
  | _ => exact hnot

theorem mkAnd (he : e.OverSymbols) (hf : f.OverSymbols) : (Formula.mkAnd [e, f]).OverSymbols := by
  have hmk : Formula.mkAnd [e, f] = .and [e, f] := by
    simp [Formula.mkAnd, he.constant?_eq_none, hf.constant?_eq_none]
  rw [hmk]
  exact he.and hf

theorem mkOr (he : e.OverSymbols) (hf : f.OverSymbols) : (Formula.mkOr [e, f]).OverSymbols := by
  have hmk : Formula.mkOr [e, f] = .or [e, f] := by
    simp [Formula.mkOr, he.constant?_eq_none, hf.constant?_eq_none]
  rw [hmk]
  exact he.or hf

end OverSymbols

end Formula

namespace Bits

open Diagram Formula Readback

variable {w : Workspace} {e f g : Formula} {x y : Edge} {i v : Nat} {n : Node} {ρ : Nat → Bool}
variable {s : Symbol} {found : Found}

/-! ### Predicates and functions -/

theorem Represents.predicate (h : Represents w e (.bool x)) : e.Predicate w.symbols.Has :=
  predicate_of_evaluates (h.value fun _ => false) h.allotted

/-- A predicate represents a function that is true where it is. -/
theorem represents_of_satisfies (he : e.Predicate w.symbols.Has) (hx : w.manager.Contains x)
    (h : ∀ ρ, (w.symbols.assignment ρ).Satisfies e ↔ w.manager.value ρ x = true) : Represents w e (.bool x) where
  within := hx
  allotted := he.symbols
  value ρ := by
    obtain ⟨t, ht⟩ := he.evaluates (w.symbols.assignment ρ)
    have hiff := (h ρ).symm.trans (Assignment.satisfies_iff_of_evaluates ht)
    rw [Code.value, Bool.eq_iff_iff.mpr hiff]
    exact ht

/-- Only what is no predicate is refused. -/
theorem meets_encode_predicate (hw : w.Valid) :
    Meets (encode e) w (fun x w' => w.Grows w' ∧ Represents w' e (.bool x))
      fun _ w' => w.Grows w' ∧ ¬ e.Predicate fun _ => True := by
  refine (meets_encode hw).mono (fun _ _ => id) fun cause w' herr => ⟨herr.1, fun hp => ?_⟩
  obtain ⟨t, ht⟩ := hp.evaluates (w'.symbols.assignment fun _ => false)
  cases (evaluateBool_eq_ok.mpr ht).symm.trans (herr.2 _)

/-- The formula represents the function, and speaks of symbols with bits on which the function depends. -/
structure ReadAs (w : Workspace) (x : Edge) (e : Formula) : Prop where
  represents : Represents w e (.bool x)
  symbols : ∀ s, .sym s ∈ e.subformulas → ∃ v i, w.manager.DependsOn x v ∧ w.symbols.owner? v = some (s, i)

theorem ReadAs.mkNot (h : ReadAs w x e) : ReadAs w x.not e.mkNot where
  represents := by
    have hx : w.manager.Contains x := h.represents.within
    refine represents_of_satisfies h.represents.predicate.mkNot (Manager.contains_not.mpr hx) fun ρ => ?_
    rw [Assignment.satisfies_mkNot h.represents.predicate, ← h.represents.value_iff, Manager.value_not hx]
    simp
  symbols s hs := by
    obtain ⟨v, i, hv, howner⟩ := h.symbols s (mem_subformulas_mkNot rfl hs)
    refine ⟨v, i, ?_, howner⟩
    rw [Manager.dependsOn_iff_dependsAt] at hv ⊢
    rwa [Edge.index_not]

/-! ### Literals -/

/-- The formula of a variable is true where the variable is, and speaks of its owner alone. -/
theorem exists_literal (hw : w.Valid) (hv : w.symbols.owner? v = some (s, i)) :
    ∃ e, literal w.symbols v = .ok e ∧ e.OverSymbols ∧ e.Predicate w.symbols.Has ∧
      (∀ ρ, (w.symbols.assignment ρ).Satisfies e ↔ ρ v = true) ∧ ∀ t, .sym t ∈ e.subformulas → t = s := by
  obtain ⟨vs, hs, hi⟩ := hw.symbols.listed v s i hv
  have hsym : ∀ e : Formula, e = .sym s ∨ e = .bit (.sym s) i → ∀ t, .sym t ∈ e.subformulas → t = s := by
    rintro e (rfl | rfl) t ht <;> simpa [subformulas] using ht
  have hvalue : ∀ e : Formula, e = .sym s ∨ e = .bit (.sym s) i →
      (∀ ρ, e.Evaluates (w.reading ρ) true (.bool (ρ v))) →
      e.Predicate w.symbols.Has ∧ ∀ ρ, (w.symbols.assignment ρ).Satisfies e ↔ ρ v = true := by
    intro e he h
    refine ⟨predicate_of_evaluates (h fun _ => false) fun t ht => ⟨vs, hsym e he t ht ▸ hs⟩, fun ρ => ?_⟩
    exact Assignment.satisfies_iff_of_evaluates (h ρ)
  rw [literal, hv]
  cases hd : s.domain with
  | bool =>
      refine ⟨.sym s, by simp [hd, Domain.isBool], .sym s, ?_⟩
      obtain ⟨hpred, hsat⟩ := hvalue (.sym s) (.inl rfl) fun ρ => by
        refine evaluates_sym.mpr ?_
        have hbit := hw.symbols.bitAt_assignment hv (ρ := ρ)
        obtain ⟨v', -, hval⟩ := hw.symbols.assignment_bool hs hd (ρ := ρ)
        rw [hval] at hbit
        change Except.ok (Sized.ofValue (w.symbols.assignment ρ s.base s.generation).1 s.domain) = _
        rw [hval, ← hbit]
        rfl
      exact ⟨hpred, hsat, hsym _ (.inl rfl)⟩
  | int k =>
      refine ⟨.bit (.sym s) i, by simp [hd, Domain.isBool], .bit s i, ?_⟩
      obtain ⟨hpred, hsat⟩ := hvalue (.bit (.sym s) i) (.inr rfl) fun ρ => by
        have hbit := hw.symbols.bitAt_assignment hv (ρ := ρ)
        obtain ⟨hlen, n, hval, -⟩ := hw.symbols.assignment_int hs hd (ρ := ρ)
        have hlt : i < k.bits := hlen ▸ (List.getElem?_eq_some_iff.mp hi).1
        rw [hval] at hbit
        refine evaluates_bit.mpr ⟨n, k.bits, evaluates_sym.mpr ?_, hlt, _,
          Word.bit_eq_ok (hlt.trans_le (k.le.trans (by decide))), congrArg _ hbit.symm⟩
        change Except.ok (Sized.ofValue (w.symbols.assignment ρ s.base s.generation).1 s.domain) = _
        rw [hval, hd]
        rfl
      exact ⟨hpred, hsat, hsym _ (.inr rfl)⟩

/-! ### Nodes -/

/-- A predicate over symbols with bits on which the node depends, by its variable or by its children. -/
structure Piece (w : Workspace) (n : Node) (e : Formula) : Prop where
  predicate : e.Predicate w.symbols.Has
  symbols : ∀ s, .sym s ∈ e.subformulas → ∃ v i, w.symbols.owner? v = some (s, i) ∧
    (v = n.var ∨ w.manager.DependsOn n.low v ∨ w.manager.DependsOn n.high v)

namespace Piece

theorem mkNot (h : Piece w n e) : Piece w n e.mkNot :=
  ⟨h.predicate.mkNot, fun s hs => h.symbols s (mem_subformulas_mkNot rfl hs)⟩

theorem mkAnd (he : Piece w n e) (hf : Piece w n f) : Piece w n (Formula.mkAnd [e, f]) := by
  have hall : ∀ d ∈ [e, f], Piece w n d := by simp [he, hf]
  refine ⟨.mkAnd fun d hd => (hall d hd).predicate, fun s hs => ?_⟩
  obtain ⟨d, hd, hs⟩ := mem_subformulas_mkAnd rfl hs
  exact (hall d hd).symbols s hs

theorem mkOr (he : Piece w n e) (hf : Piece w n f) : Piece w n (Formula.mkOr [e, f]) := by
  have hall : ∀ d ∈ [e, f], Piece w n d := by simp [he, hf]
  refine ⟨.mkOr fun d hd => (hall d hd).predicate, fun s hs => ?_⟩
  obtain ⟨d, hd, hs⟩ := mem_subformulas_mkOr rfl hs
  exact (hall d hd).symbols s hs

theorem ite (he : Piece w n e) (hf : Piece w n f) (hg : Piece w n g) : Piece w n (.ite e f g) := by
  refine ⟨he.predicate.ite hf.predicate hg.predicate, fun s hs => ?_⟩
  obtain ⟨d, hd, hs⟩ := mem_children_of_isOperator rfl hs rfl
  have hall : ∀ d ∈ [e, f, g], Piece w n d := by simp [he, hf, hg]
  exact (hall d hd).symbols s hs

end Piece

/-- A piece that has nothing but symbols at its leaves and is true where `P` is. -/
structure Part (w : Workspace) (n : Node) (P : (Nat → Bool) → Prop) (e : Formula) : Prop extends Piece w n e where
  leaves : e.OverSymbols
  satisfied : ∀ ρ, (w.symbols.assignment ρ).Satisfies e ↔ P ρ

namespace Part

variable {P Q R : (Nat → Bool) → Prop}

theorem mkNot (h : Part w n P e) : Part w n (fun ρ => ¬ P ρ) e.mkNot where
  toPiece := h.toPiece.mkNot
  leaves := h.leaves.mkNot
  satisfied ρ := (Assignment.satisfies_mkNot h.predicate).trans (not_congr (h.satisfied ρ))

theorem mkAnd (he : Part w n P e) (hf : Part w n Q f) : Part w n (fun ρ => P ρ ∧ Q ρ) (Formula.mkAnd [e, f]) where
  toPiece := he.toPiece.mkAnd hf.toPiece
  leaves := he.leaves.mkAnd hf.leaves
  satisfied ρ := by
    rw [Assignment.satisfies_mkAnd]
    simp [he.satisfied, hf.satisfied]

theorem mkOr (he : Part w n P e) (hf : Part w n Q f) : Part w n (fun ρ => P ρ ∨ Q ρ) (Formula.mkOr [e, f]) where
  toPiece := he.toPiece.mkOr hf.toPiece
  leaves := he.leaves.mkOr hf.leaves
  satisfied ρ := by
    have hboth : ∀ d ∈ [e, f], d.Predicate w.symbols.Has := by simp [he.predicate, hf.predicate]
    rw [Assignment.satisfies_mkOr hboth]
    simp [he.satisfied, hf.satisfied]

theorem ite (he : Part w n P e) (hf : Part w n Q f) (hg : Part w n R g) :
    Part w n (fun ρ => (P ρ → Q ρ) ∧ (¬ P ρ → R ρ)) (.ite e f g) where
  toPiece := he.toPiece.ite hf.toPiece hg.toPiece
  leaves := he.leaves.ite hf.leaves hg.leaves
  satisfied ρ := by
    rw [Assignment.satisfies_ite he.predicate hf.predicate hg.predicate, he.satisfied, hf.satisfied, hg.satisfied]

end Part

/-- A variable that belongs to a symbol is a part of every node that decides it. -/
private theorem exists_part (hw : w.Valid) (howner : w.symbols.owner? n.var = some (s, i)) :
    ∃ e, literal w.symbols n.var = .ok e ∧ Part w n (fun ρ => ρ n.var = true) e := by
  obtain ⟨e, he, hleaves, hpred, hsat, hsym⟩ := exists_literal hw howner
  have hpiece : Piece w n e := ⟨hpred, fun t ht => ⟨n.var, i, hsym t ht ▸ howner, .inl rfl⟩⟩
  exact ⟨e, he, hpiece, hleaves, hsat⟩

/-- What a shape says of the children, which are not both constant unless the node stands for a literal. -/
private theorem shape_spec (hne : n.low ≠ n.high) : match Shape.ofNode n with
    | .positive => n.low = .zero ∧ n.high = .one
    | .negative => n.low = .one ∧ n.high = .zero
    | .andHigh => n.low = .zero ∧ n.high.index ≠ 1
    | .notAndLow => n.high = .zero ∧ n.low.index ≠ 1
    | .orLow => n.high = .one ∧ n.low.index ≠ 1
    | .notOrHigh => n.low = .one ∧ n.high.index ≠ 1
    | .choice => n.low.index ≠ 1 ∧ n.high.index ≠ 1 := by
  have hne' := hne.symm
  unfold Shape.ofNode
  split_ifs <;> simp_all [Edge.index_eq_one_iff]

/-! ### The search for the formula -/

/-- The formula is what is read back for a function, and has nothing but symbols at its leaves unless it is constant. -/
structure Recovered (w : Workspace) (x : Edge) (e : Formula) : Prop extends ReadAs w x e where
  leaves : x.index ≠ 1 → e.OverSymbols

theorem Recovered.low (h : Recovered w n.low e) (hone : n.low.index ≠ 1) :
    Part w n (fun ρ => w.manager.value ρ n.low = true) e where
  predicate := h.represents.predicate
  symbols s hs := by
    obtain ⟨v, i, hv, howner⟩ := h.symbols s hs
    exact ⟨v, i, howner, .inr (.inl hv)⟩
  leaves := h.leaves hone
  satisfied _ := h.represents.value_iff.symm

theorem Recovered.high (h : Recovered w n.high e) (hone : n.high.index ≠ 1) :
    Part w n (fun ρ => w.manager.value ρ n.high = true) e where
  predicate := h.represents.predicate
  symbols s hs := by
    obtain ⟨v, i, hv, howner⟩ := h.symbols s hs
    exact ⟨v, i, howner, .inr (.inr hv)⟩
  leaves := h.leaves hone
  satisfied _ := h.represents.value_iff.symm

/-- What is true where the chosen child is, is read back for the node. -/
private theorem Part.recovered {P : (Nat → Bool) → Prop} (hm : w.manager.Valid) (hn : w.manager.node i = .ok n)
    (hone : i ≠ 1) (h : Part w n P e) (hP : ∀ ρ, P ρ ↔
      if ρ n.var then w.manager.value ρ n.high = true else w.manager.value ρ n.low = true) :
    Recovered w (.ofNode i false) e where
  represents := by
    have hi : w.manager.Contains (.ofNode i false) := Manager.contains_of_node (by simpa using hn)
    refine represents_of_satisfies h.predicate hi fun ρ => ?_
    rw [h.satisfied, hP, (Manager.decides_of_node hm hn hone).value]
    split <;> rfl
  symbols s hs := by
    have hdec := Manager.decides_of_node hm hn hone
    obtain ⟨v, k, howner, hv⟩ := h.symbols s hs
    refine ⟨v, k, ?_, howner⟩
    rcases hv with rfl | hv | hv
    · exact hdec.dependsOn_var hm
    · exact hdec.dependsOn_of_low hm hv
    · exact hdec.dependsOn_of_high hm hv
  leaves _ := h.leaves

/-- The sign of an edge negates the formula of its node. -/
private theorem Recovered.withSign (hx : w.manager.Contains x) (hone : x.index ≠ 1)
    (h : Recovered w (.ofNode x.index false) e) : Recovered w x (if x.negated then e.mkNot else e) := by
  have hflip : Recovered w ((Edge.ofNode x.index false).flipIf x.negated) (if x.negated then e.mkNot else e) := by
    rw [Edge.flipIf]
    split
    · exact ⟨h.toReadAs.mkNot, fun _ => (h.leaves (Edge.index_ofNode .. ▸ hone)).mkNot⟩
    · exact h
  rwa [Edge.flipIf_negated hx.1] at hflip

/-- The formulas found so far are those of their nodes. -/
def Recorded (w : Workspace) (found : Found) : Prop :=
  ∀ i r, found[i]? = some r → ReadAs w (.ofNode i false) r

theorem Recorded.insert (h : Recorded w found) (hr : ReadAs w (.ofNode i false) e) : Recorded w (found.insert i e) :=
  forall_getElem?_insert h hr

/-- The formulas found so far are those of their nodes, with nothing but symbols at their leaves. -/
structure Noted (w : Workspace) (found : Found) : Prop where
  recorded : Recorded w found
  leaves : ∀ (i : Nat) (e : Formula), found[i]? = some e → e.OverSymbols

theorem Noted.insert (h : Noted w found) (hread : ReadAs w (.ofNode i false) e) (he : e.OverSymbols) :
    Noted w (found.insert i e) :=
  ⟨h.recorded.insert hread, forall_getElem?_insert h.leaves he⟩

/-- How the search for the formula of an edge may end: it is found, or the function depends on a variable that belongs
to no symbol. -/
inductive Ends (w : Workspace) (x : Edge) : Except (Halt ForeignVariable) (Formula × Found) → Prop where
  | formula {e : Formula} {found : Found} (he : Recovered w x e) (hfound : Noted w found) : Ends w x (.ok (e, found))
  | foreign {v : Nat} (hv : w.manager.DependsOn x v) (hnone : w.symbols.owner? v = none) :
      Ends w x (.error (.error ⟨v⟩))

theorem Ends.bind {o : Except (Halt ForeignVariable) (Formula × Found)}
    {g : Formula × Found → Except (Halt ForeignVariable) (Formula × Found)} (h : Ends w y o)
    (hdep : ∀ v, w.manager.DependsOn y v → w.manager.DependsOn x v)
    (hg : ∀ e found, Recovered w y e → Noted w found → Ends w x (g (e, found))) : Ends w x (o >>= g) := by
  cases h with
  | formula he hfound => exact hg _ _ he hfound
  | foreign hv hnone => exact .foreign (hdep _ hv) hnone

/-- Constants are read back as such. -/
private theorem ends_constant {b : Bool} (hx : w.manager.Contains x)
    (hvalue : ∀ ρ, w.manager.value ρ x = b) (hone : x.index = 1) (hfound : Noted w found) :
    Ends w x (.ok (.bool b, found)) := by
  refine .formula ⟨⟨⟨hx, by simp [subformulas], fun ρ => ?_⟩, by simp [subformulas]⟩, absurd hone⟩ hfound
  rw [Code.value, hvalue, evaluates_bool]

/-- The formula of a node is noted, and then takes the sign of the edge. -/
private theorem ends_of_part {P : (Nat → Bool) → Prop} (hm : w.manager.Valid) (hx : w.manager.Contains x)
    (hone : x.index ≠ 1) (hn : w.manager.node x.index = .ok n) (hfound : Noted w found) (he : Part w n P e)
    (hP : ∀ ρ, P ρ ↔ if ρ n.var then w.manager.value ρ n.high = true else w.manager.value ρ n.low = true) :
    Ends w x (.ok (if x.negated then e.mkNot else e, found.insert x.index e)) := by
  have hnode := he.recovered hm hn hone hP
  exact .formula (hnode.withSign hx hone) (hfound.insert hnode.toReadAs he.leaves)

/-- The search looks up the node of an edge, or makes its formula from the variable of the node and the formulas of the
children that are not constant. -/
private theorem ends_step {k : Nat} (hw : w.Valid) (hx : w.manager.Contains x) (hfound : Noted w found)
    (ih : ∀ y found, w.manager.Contains y → y.index < x.index → Noted w found →
      Ends w y (within w.manager w.symbols k found y)) : Ends w x (within w.manager w.symbols (k + 1) found x) := by
  have hm := hw.manager
  rw [within]
  by_cases hxone : x = .one
  · rw [if_pos hxone]
    exact ends_constant hx (fun ρ => hxone ▸ hm.tabled.value_one) (hxone ▸ rfl) hfound
  by_cases hxzero : x = .zero
  · rw [if_neg hxone, if_pos hxzero]
    exact ends_constant hx (fun ρ => hxzero ▸ hm.tabled.value_zero) (hxzero ▸ rfl) hfound
  have hone := Edge.index_ne_one hxone hxzero
  obtain ⟨n, hn⟩ := hx.exists_node
  have hdec := Manager.decides_of_node hm hn hone
  have hlt := hdec.index
  rw [Edge.index_ofNode] at hlt
  have hdep : ∀ {v}, w.manager.DependsOn (.ofNode x.index false) v → w.manager.DependsOn x v :=
    Manager.dependsOn_iff_dependsAt.mpr
  have hdeplow : ∀ v, w.manager.DependsOn n.low v → w.manager.DependsOn x v :=
    fun v hv => hdep (hdec.dependsOn_of_low hm hv)
  have hdephigh : ∀ v, w.manager.DependsOn n.high v → w.manager.DependsOn x v :=
    fun v hv => hdep (hdec.dependsOn_of_high hm hv)
  have hlow := fun {found} => ih n.low found (hdec.contains hm).1 (by omega)
  have hhigh := fun {found} => ih n.high found (hdec.contains hm).2 (by omega)
  rw [if_neg hxone, if_neg hxzero]
  dsimp only
  cases hf : found[x.index]? with
  | some r =>
      have hr : Recovered w (.ofNode x.index false) r := ⟨hfound.recorded _ r hf, fun _ => hfound.leaves _ r hf⟩
      exact .formula (hr.withSign hx hone) hfound
  | none =>
      simp only [hn, Halt.ofFault, ok_bind]
      cases howner : w.symbols.owner? n.var with
      | none =>
          rw [literal, howner]
          exact .foreign (hdep (hdec.dependsOn_var hm)) howner
      | some p =>
          obtain ⟨s, i⟩ := p
          obtain ⟨l, hl, hlit⟩ := exists_part hw howner
          rw [hl, ok_bind]
          have hspec := shape_spec hdec.ne
          cases hshape : Shape.ofNode n <;> rw [hshape] at hspec <;> dsimp only at hspec ⊢
          case positive =>
              refine ends_of_part hm hx hone hn hfound hlit fun ρ => ?_
              simp [hspec, hm.tabled.value_one, hm.tabled.value_zero]
          case negative =>
              refine ends_of_part hm hx hone hn hfound hlit.mkNot fun ρ => ?_
              simp [hspec, hm.tabled.value_one, hm.tabled.value_zero]
          case andHigh =>
              apply (hhigh hfound).bind hdephigh
              intro h found₁ hh hfound₁
              refine ends_of_part hm hx hone hn hfound₁ (hlit.mkAnd (hh.high hspec.2)) fun ρ => ?_
              simp [hspec.1, hm.tabled.value_zero]
          case notAndLow =>
              apply (hlow hfound).bind hdeplow
              intro g found₁ hg hfound₁
              refine ends_of_part hm hx hone hn hfound₁ (hlit.mkNot.mkAnd (hg.low hspec.2)) fun ρ => ?_
              simp [hspec.1, hm.tabled.value_zero]
          case orLow =>
              apply (hlow hfound).bind hdeplow
              intro g found₁ hg hfound₁
              refine ends_of_part hm hx hone hn hfound₁ (hlit.mkOr (hg.low hspec.2)) fun ρ => ?_
              cases ρ n.var <;> simp [hspec.1, hm.tabled.value_one]
          case notOrHigh =>
              apply (hhigh hfound).bind hdephigh
              intro h found₁ hh hfound₁
              refine ends_of_part hm hx hone hn hfound₁ (hlit.mkNot.mkOr (hh.high hspec.2)) fun ρ => ?_
              cases ρ n.var <;> simp [hspec.1, hm.tabled.value_one]
          case choice =>
              apply (hhigh hfound).bind hdephigh
              intro h found₁ hh hfound₁
              apply (hlow hfound₁).bind hdeplow
              intro g found₂ hg hfound₂
              refine ends_of_part hm hx hone hn hfound₂ (hlit.ite (hh.high hspec.2) (hg.low hspec.1)) fun ρ => ?_
              cases ρ n.var <;> simp

theorem ends_within (hw : w.Valid) (k : Nat) (hx : w.manager.Contains x) (hk : x.index < k) (hfound : Noted w found) :
    Ends w x (within w.manager w.symbols k found x) := by
  induction k generalizing x found with
  | zero => exact absurd hk (Nat.not_lt_zero _)
  | succ k ih => exact ends_step hw hx hfound fun y found hy hlt => ih hy (by omega)

/-- A diagram is read back, or it has a variable that belongs to no symbol. -/
theorem readback_cases (hw : w.Valid) (hx : w.manager.Contains x) :
    (∃ e, readback w.manager w.symbols x = .ok e ∧ Recovered w x e) ∨
      ∃ v, w.manager.DependsOn x v ∧ w.symbols.owner? v = none ∧
        readback w.manager w.symbols x = .error (.error ⟨v⟩) := by
  have hempty : Noted w {} := ⟨fun i r h => by simp at h, fun i r h => by simp at h⟩
  have hends := ends_within hw (x.index + 1) hx (Nat.lt_succ_self _) hempty
  rw [readback]
  generalize within w.manager w.symbols (x.index + 1) {} x = o at hends
  cases hends with
  | formula he hfound => exact .inl ⟨_, rfl, he⟩
  | foreign hv hnone => exact .inr ⟨_, hv, hnone, rfl⟩

/-- A diagram over variables of symbols is read back. -/
theorem exists_readback (hw : w.Valid) (hx : w.manager.Contains x)
    (howners : ∀ v, w.manager.DependsOn x v → ∃ s i, w.symbols.owner? v = some (s, i)) :
    ∃ e, readback w.manager w.symbols x = .ok e ∧ ReadAs w x e := by
  rcases readback_cases hw hx with ⟨e, he, hread⟩ | ⟨v, hv, hnone, -⟩
  · exact ⟨e, he, hread.toReadAs⟩
  · obtain ⟨s, i, howner⟩ := howners v hv
    cases hnone.symm.trans howner

end Bits

end Invariance
