import Invariance.Proofs.Bits.Numerals
import Invariance.Proofs.Dynamics.Frames

/-!
Symbols and their variables. Every variable stands for one bit of one symbol, so that truth values of the variables
and values of the symbols that have some determine each other.
-/

namespace Invariance

/-- A bit of a value. -/
def Value.bitAt (v : Value) (i : Nat) : Bool :=
  match v with
  | .bool b => b
  | .int x => decide (x.toInt / 2 ^ i % 2 = 1)

@[simp] theorem Value.bitAt_default (d : Domain) (i : Nat) : (Value.default d).bitAt i = false := by
  cases d <;> simp [Value.default, Value.bitAt]

/-- Values within a domain are told apart by their bits. -/
theorem Value.eq_of_bitAt {v w : Value} {d : Domain} (hv : v.fits d) (hw : w.fits d)
    (h : ∀ i < d.bits, v.bitAt i = w.bitAt i) : v = w := by
  match v, w, d, hv, hw with
  | .bool x, .bool y, .bool, _, _ => exact congrArg _ (h 0 Nat.one_pos)
  | .int x, .int y, .int k, hx, hy =>
      have hbits : Bits.bitsOf x.toInt k.bits = Bits.bitsOf y.toInt k.bits :=
        List.map_congr_left fun i hi => h i (List.mem_range.mp hi)
      have hxy := congrArg Bits.signed hbits
      rw [Bits.signed_bitsOf k.pos (inRange_of_fits hx), Bits.signed_bitsOf k.pos (inRange_of_fits hy)] at hxy
      exact congrArg _ (Int64.toInt_inj.mp hxy)

/-- The assignments differ in one bit of one symbol at most. -/
structure Assignment.Beside (σ τ : Assignment) (g : Symbol) (i : Nat) : Prop where
  others : ∀ s : Symbol, s ≠ g → σ s.base s.generation = τ s.base s.generation
  bits : ∀ j < g.domain.bits, j ≠ i →
    (σ g.base g.generation).1.bitAt j = (τ g.base g.generation).1.bitAt j

theorem Assignment.Beside.bitAt_eq {σ τ : Assignment} {g s : Symbol} {i j : Nat} (h : σ.Beside τ g i)
    (hj : j < s.domain.bits) (hne : (s, j) ≠ (g, i)) :
    (σ s.base s.generation).1.bitAt j = (τ s.base s.generation).1.bitAt j := by
  by_cases hs : s = g
  · subst hs
    exact h.bits j hj fun hji => hne (hji ▸ rfl)
  · rw [h.others s hs]

namespace Bits

variable {a a' : Allocation} {s t : Symbol} {vs : List Nat} {ρ ρ' : Nat → Bool} {σ : Assignment} {i v : Nat}
variable {ls : List Int}

namespace Allocation

/-- The symbol has variables. -/
def Has (a : Allocation) (s : Symbol) : Prop :=
  ∃ vs, a.get? s = some vs

/-- The variables of symbols and the owners of variables are those of each other, and no variable is left over. -/
structure Consistent (a : Allocation) : Prop where
  length : ∀ s vs, a.get? s = some vs → vs.length = s.domain.bits
  owned : ∀ s vs i v, a.get? s = some vs → vs[i]? = some v → a.owner? v = some (s, i)
  listed : ∀ v s i, a.owner? v = some (s, i) → ∃ vs, a.get? s = some vs ∧ vs[i]? = some v

/-- All symbols keep their variables. -/
def Extends (a a' : Allocation) : Prop :=
  ∀ s vs, a.get? s = some vs → a'.get? s = some vs

theorem Extends.has (h : a.Extends a') (hs : a.Has s) : a'.Has s :=
  hs.imp fun _ => h s _

theorem consistent_empty : empty.Consistent where
  length _ _ h := nomatch h
  owned _ _ _ _ h := nomatch h
  listed v s i h := by
    cases v with
    | zero => cases h
    | succ v => simp [owner?, empty] at h

theorem owner?_eq_some (h : a.owner? v = some (s, i)) : 0 < v ∧ v ≤ a.size := by
  cases v with
  | zero => cases h
  | succ v =>
      obtain ⟨hlt, -⟩ := Array.getElem?_eq_some_iff.mp h
      exact ⟨Nat.succ_pos v, hlt⟩

/-- Every variable has an owner. -/
theorem exists_owner? (hpos : 0 < v) (hle : v ≤ a.size) : ∃ s i, a.owner? v = some (s, i) := by
  obtain ⟨v, rfl⟩ := Nat.exists_eq_succ_of_ne_zero hpos.ne'
  exact ⟨_, _, Array.getElem?_eq_getElem hle⟩

/-- New variables come after the others, and leave their owners as they are. -/
private theorem owner?_append (table : SortedMap Symbol (List Nat)) (l : List (Symbol × Nat)) :
    (∀ v ≤ a.size, owner? ⟨table, a.owners ++ l⟩ v = a.owner? v) ∧
      ∀ i, owner? ⟨table, a.owners ++ l⟩ (a.size + 1 + i) = l[i]? := by
  have hget : ∀ k, (a.owners ++ l)[k]? = (a.owners.toList ++ l)[k]? := fun k => by
    rw [← Array.getElem?_toList, Array.toList_appendList]
  constructor
  · intro v hv
    cases v with
    | zero => rfl
    | succ v =>
        change (a.owners ++ l)[v]? = a.owners[v]?
        rw [hget, List.getElem?_append_left hv, Array.getElem?_toList]
  · intro i
    rw [Nat.add_right_comm]
    change (a.owners ++ l)[a.owners.size + i]? = l[i]?
    have hle : a.owners.toList.length ≤ a.owners.size + i := Nat.le_add_right _ _
    rw [hget, List.getElem?_append_right hle, Array.length_toList, Nat.add_sub_cancel_left]

section Consistent

variable (h : a.Consistent)

include h

/-- A new symbol gets variables that no other symbol has. -/
private theorem Consistent.allot_new (hs : a.get? s = none) (hrun : a.allot s = (vs, a')) :
    a'.Consistent ∧ a.Extends a' ∧ a'.get? s = some vs := by
  simp only [allot, hs, Prod.mk.injEq] at hrun
  obtain ⟨hvs, ha'⟩ := hrun
  obtain ⟨hold, hnew⟩ := owner?_append (a := a) (a.table.insert s vs) ((List.range s.domain.bits).map fun i => (s, i))
  have hget : ∀ t, a'.get? t = if t = s then some vs else a.get? t := fun t => by
    rw [← ha', hvs]
    exact SortedMap.get?_insert
  rw [hvs] at ha'
  rw [ha'] at hold hnew
  have hextends : a.Extends a' := fun t ws ht => by
    rw [hget, if_neg (by rintro rfl; simp [hs] at ht), ht]
  have hmem : ∀ i v, vs[i]? = some v ↔ i < s.domain.bits ∧ v = a.size + 1 + i := fun i v => by
    rw [← hvs, List.getElem?_eq_some_iff]
    simp [eq_comm]
  refine ⟨⟨fun t ws ht => ?_, fun t ws i v ht hv => ?_, fun v t i hv => ?_⟩, hextends, by simp [hget]⟩
  · rw [hget] at ht
    split at ht
    · next heq =>
        cases ht
        rw [← hvs, List.length_range', heq]
    · exact h.length t ws ht
  · rw [hget] at ht
    split at ht
    · next heq =>
        cases ht
        obtain ⟨hi, rfl⟩ := (hmem i v).mp hv
        rw [hnew, heq]
        simp [hi]
    · have := h.owned t ws i v ht hv
      rw [hold v (owner?_eq_some this).2, this]
  · rcases Nat.lt_or_ge a.size v with hlt | hle
    · obtain ⟨j, rfl⟩ : ∃ j, v = a.size + 1 + j := ⟨v - a.size - 1, by omega⟩
      rw [hnew] at hv
      simp only [List.getElem?_map, Option.map_eq_some_iff, Prod.mk.injEq] at hv
      obtain ⟨k, hk, rfl, rfl⟩ := hv
      obtain ⟨hlt, hkj⟩ := List.getElem?_eq_some_iff.mp hk
      simp at hlt hkj
      subst hkj
      exact ⟨vs, by simp [hget], (hmem _ _).mpr ⟨hlt, rfl⟩⟩
    · rw [hold v hle] at hv
      obtain ⟨ws, hws, hi⟩ := h.listed v t i hv
      exact ⟨ws, hextends t ws hws, hi⟩

theorem Consistent.allot (hrun : a.allot s = (vs, a')) :
    a'.Consistent ∧ a.Extends a' ∧ a'.get? s = some vs := by
  cases hs : a.get? s with
  | none => exact h.allot_new hs hrun
  | some ws =>
      simp only [Allocation.allot, hs, Prod.mk.injEq] at hrun
      obtain ⟨rfl, rfl⟩ := hrun
      exact ⟨h, fun _ _ => id, hs⟩

end Consistent

/-! ### Values of symbols -/

theorem fits_decode (a : Allocation) (s : Symbol) (ρ : Nat → Bool) :
    ((a.decode s ρ).getD (.default s.domain)).fits s.domain := by
  unfold decode
  cases a.get? s with
  | none => exact Value.default_fits s.domain
  | some vs =>
      rw [Option.map_some, Option.getD_some]
      cases s.domain with
      | bool => rfl
      | int w =>
          have hw : w.bits ≤ 64 := w.le.trans (by decide)
          exact beq_iff_eq.mpr ((Word.truncate_eq_self_iff w.pos hw).mpr (Word.inRange_truncate w.pos hw))

/-- What symbols are when the variables have certain truth values. A symbol without variables has a default. -/
def assignment (a : Allocation) (ρ : Nat → Bool) : Assignment :=
  fun x g => ⟨(a.decode ⟨x, g⟩ ρ).getD (.default x.domain), fits_decode a ⟨x, g⟩ ρ⟩

theorem assignment_val : (a.assignment ρ s.base s.generation).1 = (a.decode s ρ).getD (.default s.domain) :=
  rfl

/-- The truth values that give symbols their values under an assignment. -/
def truth (a : Allocation) (σ : Assignment) (v : Nat) : Bool :=
  match a.owner? v with
  | none => false
  | some (s, i) => (σ s.base s.generation).1.bitAt i

/-- The value of a symbol depends on its own variables. -/
theorem assignment_congr (h : ∀ vs, a.get? s = some vs → ∀ v ∈ vs, ρ v = ρ' v) :
    a.assignment ρ s.base s.generation = a.assignment ρ' s.base s.generation := by
  refine Subtype.ext ?_
  rw [assignment_val, assignment_val, decode, decode]
  cases hs : a.get? s with
  | none => rfl
  | some vs =>
      have hmap : vs.map ρ = vs.map ρ' := List.map_congr_left (h vs hs)
      have hhead : vs.head?.any ρ = vs.head?.any ρ' := by
        cases vs with
        | nil => rfl
        | cons v vs => exact h _ hs v List.mem_cons_self
      rw [Option.map_some, Option.map_some, hmap, hhead]

theorem Extends.assignment (h : a.Extends a') (hs : a.Has s) :
    a'.assignment ρ s.base s.generation = a.assignment ρ s.base s.generation := by
  obtain ⟨vs, hvs⟩ := hs
  refine Subtype.ext ?_
  rw [assignment_val, assignment_val, decode, decode, hvs, h s vs hvs]

section Consistent

variable (h : a.Consistent)

include h

theorem Consistent.assignment_bool (hs : a.get? s = some vs) (hd : s.domain = .bool) :
    ∃ v, vs = [v] ∧ (a.assignment ρ s.base s.generation).1 = .bool (ρ v) := by
  have hlen := h.length s vs hs
  rw [hd] at hlen
  obtain ⟨v, rfl⟩ := List.length_eq_one_iff.mp hlen
  refine ⟨v, rfl, ?_⟩
  rw [assignment_val, decode, hs, hd]
  rfl

theorem Consistent.assignment_int {w : Width} (hs : a.get? s = some vs) (hd : s.domain = .int w) :
    vs.length = w.bits ∧ ∃ x : Int64, (a.assignment ρ s.base s.generation).1 = .int x ∧
      x.toInt = signed (vs.map ρ) := by
  have hlen := h.length s vs hs
  rw [hd] at hlen
  have hw : w.bits ≤ 64 := w.le.trans (by decide)
  have hne : vs.map ρ ≠ [] := List.ne_nil_of_length_pos (by rw [List.length_map, hlen]; exact w.pos)
  refine ⟨hlen, Word.truncate (Int64.ofNat (number (vs.map ρ))) w.bits, ?_, ?_⟩
  · rw [assignment_val, decode, hs, hd]
    rfl
  · refine (Word.toInt_truncate_eq_iff w.pos hw).mpr ⟨?_, ?_⟩
    · have := inRange_signed hne
      rwa [List.length_map, hlen] at this
    · have hnumber := number_modEq_signed hne
      rw [List.length_map, hlen, Domain.bits] at hnumber
      exact (Int.modEq_iff_dvd.mpr hnumber).trans (Word.toInt_modEq hw Int64.toInt_ofNat').symm

/-- The bits of a symbol are its variables. -/
theorem Consistent.bitAt_assignment (hv : a.owner? v = some (s, i)) :
    (a.assignment ρ s.base s.generation).1.bitAt i = ρ v := by
  obtain ⟨vs, hs, hi⟩ := h.listed v s i hv
  cases hd : s.domain with
  | bool =>
      obtain ⟨v', rfl, hval⟩ := h.assignment_bool hs hd (ρ := ρ)
      obtain rfl : v' = v := by
        cases i with
        | zero => simpa using hi
        | succ i => simp at hi
      rw [hval]
      rfl
  | int w =>
      obtain ⟨hlen, x, hval, hx⟩ := h.assignment_int hs hd (ρ := ρ)
      have hne : vs.map ρ ≠ [] := List.ne_nil_of_length_pos (by rw [List.length_map, hlen]; exact w.pos)
      have hlt : i < vs.length := (List.getElem?_eq_some_iff.mp hi).1
      have hbit := getElem?_bitsOf (v := x.toInt) hlt
      rw [hx, ← List.length_map (f := ρ), bitsOf_signed hne, List.getElem?_map, hi] at hbit
      rw [hval, Value.bitAt, hx]
      exact (Option.some.inj hbit).symm

/-- Symbols with variables have the values of an assignment where the variables have its bits. -/
theorem Consistent.assignment_truth (hs : a.Has s) :
    a.assignment (a.truth σ) s.base s.generation = σ s.base s.generation := by
  obtain ⟨vs, hs⟩ := hs
  refine Subtype.ext (Value.eq_of_bitAt (a.assignment _ _ _).2 (σ s.base s.generation).2 fun i hi => ?_)
  change i < s.domain.bits at hi
  rw [← h.length s vs hs] at hi
  have howner := h.owned s vs i vs[i] hs (List.getElem?_eq_getElem hi)
  rw [h.bitAt_assignment howner, truth, howner]

/-- A variable that stands for no bit of a symbol does not matter to it. -/
theorem Consistent.assignment_update (hv : ∀ i, a.owner? v ≠ some (s, i)) (b : Bool) :
    a.assignment (Function.update ρ v b) s.base s.generation = a.assignment ρ s.base s.generation := by
  refine assignment_congr fun vs hs w hw => Function.update_of_ne ?_ _ _
  rintro rfl
  obtain ⟨i, hi⟩ := List.mem_iff_getElem?.mp hw
  exact hv i (h.owned s vs i w hs hi)

end Consistent

/-! ### Larger allocations -/

/-- The variables of a symbol that had some belong to it as before. -/
theorem Extends.owner?_iff (h : a.Extends a') (ha : a.Consistent) (ha' : a'.Consistent) (hs : a.Has s) :
    a'.owner? v = some (s, i) ↔ a.owner? v = some (s, i) := by
  obtain ⟨vs, hs⟩ := hs
  constructor
  · intro hv
    obtain ⟨vs', hs', hi⟩ := ha'.listed v s i hv
    cases (h s vs hs).symm.trans hs'
    exact ha.owned s vs i v hs hi
  · intro hv
    obtain ⟨vs', hs', hi⟩ := ha.listed v s i hv
    exact ha'.owned s vs' i v (h s vs' hs') hi

/-- A symbol that is new has variables that are new. -/
theorem Extends.lt_of_owner? (h : a.Extends a') (ha : a.Consistent) (ha' : a'.Consistent) (hs : ¬ a.Has s)
    (hv : a'.owner? v = some (s, i)) : a.size < v := by
  by_contra hle
  obtain ⟨t, j, ht⟩ := exists_owner? (owner?_eq_some hv).1 (Nat.le_of_not_lt hle)
  obtain ⟨vs, hvs, -⟩ := ha.listed v t j ht
  cases hv.symm.trans ((h.owner?_iff ha ha' ⟨vs, hvs⟩).mpr ht)
  exact hs ⟨vs, hvs⟩

/-- Where all new variables are false, new symbols have the value that they had without variables. -/
theorem Extends.assignment_eq (h : a.Extends a') (ha : a.Consistent) (ha' : a'.Consistent)
    (hρ : ∀ v, ρ v = true → v ≤ a.size) : a'.assignment ρ s.base s.generation = a.assignment ρ s.base s.generation := by
  by_cases hs : a.Has s
  · exact h.assignment hs
  have hdefault : (a.assignment ρ s.base s.generation).1 = .default s.domain := by
    rw [assignment_val, decode, Option.not_isSome_iff_eq_none.mp fun hsome => hs (Option.isSome_iff_exists.mp hsome)]
    rfl
  refine Subtype.ext ?_
  rw [hdefault]
  cases hs' : a'.get? s with
  | none =>
      rw [assignment_val, decode, hs']
      rfl
  | some vs =>
      refine Value.eq_of_bitAt (a'.assignment ρ _ _).2 (Value.default_fits s.domain) fun i hi => ?_
      change i < s.domain.bits at hi
      rw [← ha'.length s vs hs'] at hi
      have howner := ha'.owned s vs i vs[i] hs' (List.getElem?_eq_getElem hi)
      have hfalse : ρ vs[i] = false := Bool.eq_false_iff.mpr fun htrue =>
        absurd (hρ _ htrue) (Nat.not_le.mpr (h.lt_of_owner? ha ha' hs howner))
      rw [ha'.bitAt_assignment howner, hfalse, Value.bitAt_default]

end Allocation

/-! ### Literals -/

/-- Literals on different variables are all true under the assignment they make up. -/
theorem truthOf_natAbs {l : Int} (h : ls.Pairwise fun k l => k.natAbs < l.natAbs) (hl : l ∈ ls) :
    truthOf ls l.natAbs = decide (0 < l) := by
  unfold truthOf
  cases hfind : ls.reverse.find? fun k => k.natAbs == l.natAbs with
  | none =>
      rw [List.find?_eq_none] at hfind
      exact absurd (beq_self_eq_true l.natAbs) (hfind l (List.mem_reverse.mpr hl))
  | some k =>
      have hk := List.mem_reverse.mp (List.mem_of_find?_eq_some hfind)
      have heq : k.natAbs = l.natAbs := by simpa using List.find?_some hfind
      have hnodup : (ls.map Int.natAbs).Nodup := List.pairwise_map.mpr (h.imp Nat.ne_of_lt)
      rw [List.inj_on_of_nodup_map hnodup hk hl heq]
      rfl

/-- A variable is true by a literal only. -/
theorem exists_of_truthOf (h : truthOf ls v = true) : ∃ l ∈ ls, l.natAbs = v ∧ 0 < l := by
  unfold truthOf at h
  cases hfind : ls.reverse.find? fun l => l.natAbs == v with
  | none =>
      rw [hfind] at h
      cases h
  | some l =>
      rw [hfind] at h
      have hmem := List.mem_reverse.mp (List.mem_of_find?_eq_some hfind)
      exact ⟨l, hmem, by simpa using List.find?_some hfind, by simpa using h⟩

end Bits

end Invariance
