import Invariance.Proofs.Bits.Allocation

/-!
Symbols and variables after any requests. The two tables are inverse to each other, whatever the order in which symbols
are met, and so are the ways from values to bits and back.
-/

namespace Invariance

/-- The bits of a value, the least significant first. -/
def Value.word (v : Value) (n : Nat) : List Bool :=
  (List.range n).map v.bitAt

theorem Value.getElem?_word {v : Value} {i n : Nat} (h : i < n) : (v.word n)[i]? = some (v.bitAt i) := by
  simp [word, h]

namespace Bits

/-- The truth values of the variables, given one by one. -/
def spelling (vs : List Nat) (bits : List Bool) (k : Nat) : Option Bool :=
  (vs.zip bits).lookup k

/-- A variable without truth value is false. -/
def completed (α : Nat → Option Bool) (k : Nat) : Bool :=
  (α k).getD false

theorem spelling_eq_some {vs : List Nat} {bits : List Bool} {i k : Nat} {b : Bool} (hvs : vs.Nodup)
    (hk : vs[i]? = some k) (hb : bits[i]? = some b) : spelling vs bits k = some b := by
  induction vs generalizing i bits with
  | nil => simp at hk
  | cons v vs ih =>
      cases bits with
      | nil => simp at hb
      | cons c bits =>
          rw [List.nodup_cons] at hvs
          cases i with
          | zero =>
              simp only [List.getElem?_cons_zero, Option.some.injEq] at hk hb
              simp [spelling, hk, hb]
          | succ i =>
              rw [List.getElem?_cons_succ] at hk hb
              have hne : (k == v) = false := by
                rw [beq_eq_false_iff_ne]
                intro hkv
                exact hvs.1 (hkv ▸ List.mem_of_getElem? hk)
              rw [spelling, List.zip_cons_cons, List.lookup_cons, hne]
              exact ih hvs.2 hk hb

namespace Allocation

variable {a a' : Allocation} {s t : Symbol} {vs ws : List Nat} {ss : List Symbol} {i k : Nat}

/-- The allocation after these symbols have been met. -/
def after (ss : List Symbol) : Allocation :=
  ss.foldl (fun a s => (a.allot s).2) .empty

/-- Every variable stands for one bit of one symbol, and each bit of a symbol has a variable. -/
structure Bijective (a : Allocation) : Prop where
  range : ∀ k, (∃ s vs, a.get? s = some vs ∧ k ∈ vs) ↔ 1 ≤ k ∧ k ≤ a.size
  length : ∀ s vs, a.get? s = some vs → vs.length = s.domain.bits
  disjoint : ∀ s t vs ws k, a.get? s = some vs → a.get? t = some ws → k ∈ vs → k ∈ ws → s = t
  owner_iff : ∀ k s i, a.owner? k = some (s, i) ↔ ∃ vs, a.get? s = some vs ∧ vs[i]? = some k

/-- Values of the symbol, and truth values of its variables, determine each other. -/
structure Invertible (a : Allocation) (s : Symbol) (vs : List Nat) : Prop where
  decode_spelling : ∀ v : Value, v.fits s.domain →
    a.decode s (completed (spelling vs (v.word s.domain.bits))) = some v
  spelling_decode : ∀ α, ∃ v, a.decode s (completed α) = some v ∧ v.fits s.domain ∧
    ∀ k ∈ vs, spelling vs (v.word s.domain.bits) k = some (completed α k)

/-! ### Requests one after the other -/

theorem Extends.refl (a : Allocation) : a.Extends a :=
  fun _ _ => id

theorem Extends.trans {b c : Allocation} (h : a.Extends b) (h' : b.Extends c) : a.Extends c :=
  fun s vs hs => h' s vs (h s vs hs)

theorem after_append (ss ts : List Symbol) : after (ss ++ ts) = ts.foldl (fun a s => (a.allot s).2) (after ss) :=
  List.foldl_append

theorem Consistent.foldl (h : a.Consistent) (ts : List Symbol) :
    (ts.foldl (fun a s => (a.allot s).2) a).Consistent ∧ a.Extends (ts.foldl (fun a s => (a.allot s).2) a) := by
  induction ts generalizing a with
  | nil => exact ⟨h, .refl a⟩
  | cons t ts ih =>
      obtain ⟨ht, hext, -⟩ := h.allot (s := t) rfl
      obtain ⟨hts, hexts⟩ := ih ht
      exact ⟨hts, hext.trans hexts⟩

theorem consistent_after (ss : List Symbol) : (after ss).Consistent :=
  (consistent_empty.foldl ss).1

/-- What a symbol is given, it keeps. -/
theorem get?_after_append_cons (ss ts : List Symbol) (s : Symbol) :
    (after (ss ++ s :: ts)).get? s = some ((after ss).allot s).1 := by
  obtain ⟨hs, -, hget⟩ := (consistent_after ss).allot (s := s) rfl
  rw [after_append, List.foldl_cons]
  exact (hs.foldl ts).2 s _ hget

/-- Only the symbol that is met gets variables. -/
theorem get?_allot_of_ne (h : t ≠ s) : (a.allot s).2.get? t = a.get? t := by
  rw [allot]
  cases hs : a.get? s with
  | some vs => rfl
  | none => exact SortedMap.get?_insert.trans (if_neg h)

theorem has_after_iff : (after ss).Has s ↔ s ∈ ss := by
  constructor
  · induction ss using List.reverseRecOn with
    | nil => exact fun ⟨_, h⟩ => nomatch h
    | append_singleton ss t ih =>
        intro h
        by_cases hst : s = t
        · simp [hst]
        · rw [after_append, List.foldl_cons, List.foldl_nil, Has, get?_allot_of_ne hst] at h
          exact List.mem_append_left _ (ih h)
  · intro h
    obtain ⟨ss, ts, rfl⟩ := List.append_of_mem h
    exact ⟨_, get?_after_append_cons ss ts s⟩

/-! ### The two tables -/

section Consistent

variable (h : a.Consistent)

include h

theorem Consistent.owner?_of_mem (hs : a.get? s = some vs) (hk : k ∈ vs) : ∃ i, a.owner? k = some (s, i) := by
  obtain ⟨i, hi⟩ := List.mem_iff_getElem?.mp hk
  exact ⟨i, h.owned s vs i k hs hi⟩

theorem Consistent.bijective : a.Bijective where
  range k := by
    constructor
    · intro ⟨s, vs, hs, hk⟩
      obtain ⟨i, hi⟩ := h.owner?_of_mem hs hk
      exact owner?_eq_some hi
    · intro ⟨hpos, hle⟩
      obtain ⟨s, i, hi⟩ := exists_owner? hpos hle
      obtain ⟨vs, hs, hk⟩ := h.listed k s i hi
      exact ⟨s, vs, hs, List.mem_of_getElem? hk⟩
  length := h.length
  disjoint s t vs ws k hs ht hk hk' := by
    obtain ⟨i, hi⟩ := h.owner?_of_mem hs hk
    obtain ⟨j, hj⟩ := h.owner?_of_mem ht hk'
    simpa using congrArg (Option.map Prod.fst) (hi.symm.trans hj)
  owner_iff k s i := ⟨h.listed k s i, fun ⟨vs, hs, hi⟩ => h.owned s vs i k hs hi⟩

/-! ### Values and bits -/

theorem Consistent.nodup (hs : a.get? s = some vs) : vs.Nodup := by
  rw [List.nodup_iff_getElem?_ne_getElem?]
  intro i j hij hj heq
  have hget := List.getElem?_eq_getElem hj
  have howner := h.owned s vs i vs[j] hs (heq.trans hget)
  rw [h.owned s vs j vs[j] hs hget] at howner
  simp only [Option.some.injEq, Prod.mk.injEq, true_and] at howner
  exact hij.ne' howner

/-- What is decoded is within the domain, and its bits are what the variables of the symbol are. -/
theorem Consistent.exists_decode (hs : a.get? s = some vs) (ρ : Nat → Bool) :
    ∃ v, a.decode s ρ = some v ∧ v.fits s.domain ∧ ∀ i k, vs[i]? = some k → v.bitAt i = ρ k := by
  obtain ⟨v, hv⟩ : ∃ v, a.decode s ρ = some v := by simp [decode, hs]
  have hval : (a.assignment ρ s.base s.generation).1 = v := by rw [assignment_val, hv, Option.getD_some]
  refine ⟨v, hv, hval ▸ (a.assignment ρ s.base s.generation).2, fun i k hk => ?_⟩
  rw [← hval]
  exact h.bitAt_assignment (h.owned s vs i k hs hk)

theorem Consistent.spelling_word (hs : a.get? s = some vs) (hk : vs[i]? = some k) (v : Value) :
    spelling vs (v.word s.domain.bits) k = some (v.bitAt i) := by
  have hi : i < vs.length := (List.getElem?_eq_some_iff.mp hk).1
  rw [h.length s vs hs] at hi
  exact spelling_eq_some (h.nodup hs) hk (Value.getElem?_word hi)

theorem Consistent.invertible (hs : a.get? s = some vs) : a.Invertible s vs where
  decode_spelling v hv := by
    obtain ⟨w, hw, hfits, hbits⟩ := h.exists_decode hs (completed (spelling vs (v.word s.domain.bits)))
    rw [hw, Value.eq_of_bitAt hfits hv fun i hi => ?_]
    rw [← h.length s vs hs] at hi
    have hk := List.getElem?_eq_getElem hi
    rw [hbits i _ hk, completed, h.spelling_word hs hk, Option.getD_some]
  spelling_decode α := by
    obtain ⟨v, hv, hfits, hbits⟩ := h.exists_decode hs (completed α)
    refine ⟨v, hv, hfits, fun k hk => ?_⟩
    obtain ⟨i, hi⟩ := List.mem_iff_getElem?.mp hk
    rw [h.spelling_word hs hi, hbits i k hi]

end Consistent

/-- Whatever symbols have been met, and in whatever order, the tables are inverse to each other, symbols keep what they
are given, and decoding is the inverse of spelling out the bits. -/
theorem after_bijective_and_invertible (ss : List Symbol) :
    (after ss).Bijective ∧
    (∀ s, (∃ vs, (after ss).get? s = some vs) ↔ s ∈ ss) ∧
    (∀ s ts, (after (ss ++ s :: ts)).get? s = some ((after ss).allot s).1) ∧
    ∀ s vs, (after ss).get? s = some vs → (after ss).Invertible s vs :=
  ⟨(consistent_after ss).bijective, fun _ => has_after_iff, fun s ts => get?_after_append_cons ss ts s,
    fun _ _ hs => (consistent_after ss).invertible hs⟩

private def nibble : Symbol :=
  ⟨⟨"x", .int ⟨4, by decide, by decide⟩⟩, 0⟩

private def flag : Symbol :=
  ⟨⟨"b", .bool⟩, 0⟩

/-- The bits of -3 are 1, 0, 1 and 1, from the least significant one to the sign. -/
theorem after_bijective_and_invertible_nibble :
    (after [nibble, flag, nibble]).get? nibble = some [1, 2, 3, 4] ∧
      (after [nibble, flag, nibble]).owner? 5 = some (flag, 0) ∧
      (after [nibble, flag, nibble]).decode nibble (completed (spelling [1, 2, 3, 4] [true, false, true, true]))
        = some (.int (-3)) := by
  obtain ⟨hbij, -, -, hinv⟩ := after_bijective_and_invertible [nibble, flag, nibble]
  have hflag : (after [nibble, flag, nibble]).get? flag = some [5] := rfl
  have hnibble : (after [nibble, flag, nibble]).get? nibble = some [1, 2, 3, 4] := rfl
  have hword : (Value.int (-3)).word nibble.domain.bits = [true, false, true, true] := by decide
  have hdecode := (hinv nibble _ hnibble).decode_spelling (.int (-3)) (by decide)
  rw [hword] at hdecode
  exact ⟨hnibble, (hbij.owner_iff 5 flag 0).mpr ⟨_, hflag, rfl⟩, hdecode⟩

end Allocation

end Bits

end Invariance
