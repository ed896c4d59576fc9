import Invariance.Proofs.Bits.Invariants
import Invariance.Proofs.Bits.Readback

/-!
Diagrams read back and encoded again. A formula that is read back speaks of symbols that have variables already, so that
it is encoded without new ones, as the edge that it was read from.
-/

namespace Invariance.Bits

open Diagram Formula Readback

variable {a : Allocation} {x : Edge} {e : Formula} {w : Workspace} {s : Symbol}

theorem readback_of_index {m : Manager} (h : x.index = 1) : ∃ b, readback m a x = .ok (.bool b) := by
  rcases Edge.eq_one_or_eq_zero h with rfl | rfl
  · exact ⟨true, rfl⟩
  · exact ⟨false, rfl⟩

/-! ### Encoding again -/

theorem maintains_symbols_build {α : Type} (work : Build α) :
    Maintains (fun w => w.symbols = a) (Encode.build work) := by
  intro w hw
  have hrun : (Encode.build work).run.run w = _ := Encode.run_build
  rcases hwork : work.run.run w.manager with ⟨f | z, m⟩ <;> rw [hwork] at hrun
  · exact meets_of_run_error hrun hw
  · exact meets_of_run_ok hrun hw

/-- A symbol that has variables gets no new ones. -/
theorem maintains_symbols_ofSymbol (hs : a.Has s) : Maintains (fun w => w.symbols = a) (Code.ofSymbol s) := by
  have hallot : Maintains (fun w => w.symbols = a) (Encode.allot s) := by
    rintro w rfl
    obtain ⟨vs, hvs⟩ := hs
    apply meets_of_run_ok Encode.run_allot
    rw [Allocation.allot, hvs]
  apply hallot.bind
  intro vs
  apply (maintains_mapM (fun v => maintains_symbols_build _) vs).bind
  intro bits
  split <;> exact maintains_pure

theorem maintains_symbols_encode (he : ∀ s, .sym s ∈ e.subformulas → a.Has s) :
    Maintains (fun w => w.symbols = a) (encode e) := by
  have hall : Build.Compositional fun {α} (_ : Build α) => True := by constructor <;> simp
  exact Code.maintains_encode hall (fun {α work} _ => maintains_symbols_build work)
    fun s hs => maintains_symbols_ofSymbol (he s hs)

/-- A formula that represents a function is encoded as this function, with the variables that there are. -/
theorem Represents.run_encode (hw : w.Valid) (h : Represents w e (.bool x)) :
    ∃ w', (encode e).run.run w = (.ok x, w') ∧ w.Grows w' ∧ w'.symbols = w.symbols := by
  have hmeets := (meets_encode hw).and (maintains_symbols_encode h.allotted w rfl)
  have hencode : Meets (encode e) w (fun y w' => y = x ∧ w.Grows w' ∧ w'.symbols = w.symbols) fun _ _ => False := by
    refine hmeets.mono ?_ ?_
    · rintro y w' ⟨⟨hg, hy⟩, hsymbols⟩
      have hx := h.grows hw hg
      refine ⟨?_, hg, hsymbols⟩
      apply hg.valid.manager.tabled.eq_of_value_eq hy.within hx.within
      intro ρ
      rw [Bool.eq_iff_iff, hy.value_iff, hx.value_iff]
    · rintro cause w' ⟨⟨hg, hnone⟩, -⟩
      have hvalue := (h.grows hw hg).evaluateBool fun _ => false
      rw [hnone] at hvalue
      cases hvalue
  obtain ⟨y, w', hrun, rfl, hg, hsymbols⟩ := hencode.exists_ok
  exact ⟨w', hrun, hg, hsymbols⟩

/-- A diagram is read back if and only if all variables in its support belong to symbols; otherwise one that does not is
reported. The formula has only these symbols at its leaves, and is encoded as the very edge, without new variables. -/
theorem readback_encode_inverse (hw : w.Valid) (hx : w.manager.Contains x) :
    ∃ vars, w.manager.support x = .ok vars ∧
      ((∃ e, readback w.manager w.symbols x = .ok e) ↔ ∀ v ∈ vars.elements, w.symbols.owner? v ≠ none) ∧
      ((∃ v ∈ vars.elements, w.symbols.owner? v = none) →
        ∃ v ∈ vars.elements, w.symbols.owner? v = none ∧
          readback w.manager w.symbols x = .error (.error ⟨v⟩)) ∧
      ∀ e, readback w.manager w.symbols x = .ok e →
        (e.OverSymbols ∨ x.index = 1 ∧ ∃ b, e = .bool b) ∧
        (∀ s, .sym s ∈ e.subformulas → ∃ v ∈ vars.elements, ∃ i, w.symbols.owner? v = some (s, i)) ∧
        ∃ w', (encode e).run.run w = (.ok x, w') ∧ w.Grows w' ∧ w'.symbols = w.symbols := by
  obtain ⟨vars, hvars, hmem⟩ := Manager.exists_support hw.manager hx
  refine ⟨vars, hvars, ?_⟩
  simp only [hmem]
  rcases readback_cases hw hx with ⟨e, he, hread⟩ | ⟨v, hv, hnone, herr⟩
  · have howned : ∀ v, w.manager.DependsOn x v → w.symbols.owner? v ≠ none := by
      intro v hv hnone
      obtain ⟨s, i, howner, -⟩ := hread.represents.exists_owner hw hv
      cases hnone.symm.trans howner
    refine ⟨⟨fun _ => howned, fun _ => ⟨e, he⟩⟩, fun ⟨v, hv, hnone⟩ => absurd hnone (howned v hv), ?_⟩
    rintro e' he'
    cases he.symm.trans he'
    refine ⟨?_, fun s hs => ?_, hread.represents.run_encode hw⟩
    · by_cases hone : x.index = 1
      · obtain ⟨b, hb⟩ := readback_of_index (m := w.manager) (a := w.symbols) hone
        cases he.symm.trans hb
        exact .inr ⟨hone, b, rfl⟩
      · exact .inl (hread.leaves hone)
    · obtain ⟨v, i, hv, howner⟩ := hread.symbols s hs
      exact ⟨v, hv, i, howner⟩
  · refine ⟨⟨fun ⟨e, he⟩ => ?_, fun hall => absurd hnone (hall v hv)⟩, fun _ => ⟨v, hv, hnone, herr⟩, fun e he => ?_⟩
    · cases he.symm.trans herr
    · cases he.symm.trans herr

/-- A truth value, and the sign of an integer of two bits. -/
private def masked : Formula :=
  .and [.sym ⟨⟨"on", .bool⟩, 0⟩, .not (.bit (.sym ⟨⟨"level", .int ⟨2, by decide, by decide⟩⟩, 0⟩) 1)]

private theorem predicate_masked : masked.Predicate fun _ => True where
  bool := .and <| by
    rintro e he
    rcases List.mem_pair.mp he with rfl | rfl
    · exact .sym _
    · exact .not (.bit (.sym _) (by decide))
  timed := isUnindexed_eq_false_iff.mp rfl
  symbols _ _ := trivial

/-- The diagram of a conjunction is read back, and encoded as itself. -/
theorem readback_encode_inverse_masked : ∃ m x w e w', Manager.ofBits 3 = .ok m ∧
    (encode masked).run.run ⟨m, .empty⟩ = (.ok x, w) ∧ readback w.manager w.symbols x = .ok e ∧
    (encode e).run.run w = (.ok x, w') ∧ w'.symbols = w.symbols := by
  have hm : Manager.ofBits 3 = .ok _ := rfl
  have hencode := (meets_encode_predicate (w := ⟨_, .empty⟩)
    ⟨Manager.valid_ofBits hm, Allocation.consistent_empty⟩).mono (fun _ _ => id) fun _ _ h => h.2 predicate_masked
  obtain ⟨x, w, hrun, hg, hx⟩ := hencode.exists_ok
  obtain ⟨vars, hvars, hiff, -, hinverse⟩ := readback_encode_inverse hg.valid hx.within
  obtain ⟨vars', hvars', hmem⟩ := Manager.exists_support hg.valid.manager hx.within
  cases hvars.symm.trans hvars'
  have howners : ∀ v ∈ vars.elements, w.symbols.owner? v ≠ none := by
    intro v hv hnone
    obtain ⟨s, i, howner, -⟩ := hx.exists_owner hg.valid ((hmem v).mp hv)
    cases hnone.symm.trans howner
  obtain ⟨e, he⟩ := hiff.mpr howners
  obtain ⟨-, -, w', hagain, -, hsymbols⟩ := hinverse e he
  exact ⟨_, x, w, e, w', hm, hrun, he, hagain, hsymbols⟩

end Invariance.Bits
