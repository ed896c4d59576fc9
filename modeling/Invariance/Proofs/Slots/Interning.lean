import Invariance.Slots.Interning
import Mathlib.Tactic

/-!
Interning tables. Links lead from older to newer entries, so that chains end, and an entry made by `put` stays on the
chain of its slot. A value therefore gets one entry, whose number never changes.
-/

namespace Invariance.Slots.Interning

variable {α : Type} {t : Interning α} {v : α} {i j k : Nat}

/-- The entry after `i` on its chain, or 0. -/
def link (t : Interning α) (i : Nat) : Nat :=
  t.links.getD (i - 1) 0

/-- The links lead from the entry `i` to the entry `j`. -/
inductive OnChain (t : Interning α) : Nat → Nat → Prop
  | here (i : Nat) : OnChain t i i
  | next {i j : Nat} (hi : 0 < i) (hlink : t.link i ≠ 0) (h : OnChain t (t.link i) j) : OnChain t i j

/-- Links lead to newer entries, and slots to entries. -/
structure Linked (t : Interning α) : Prop where
  size_links : t.links.size = t.size
  link : ∀ i, 0 < i → i ≤ t.size → t.link i ≠ 0 → i < t.link i ∧ t.link i ≤ t.size
  heads : ∀ h, t.heads.getD h 0 ≤ t.size
  slots : 0 < t.heads.size ∧ t.heads.size < 2 ^ 64

/-- The entry is on the chain of the slot of its value. -/
def Findable [Coded α] (t : Interning α) (i : Nat) : Prop :=
  ∃ v, t.get i = .ok v ∧ t.OnChain (t.heads.getD (slot v t.heads.size) 0) i

theorem get_eq_ok_iff : t.get i = .ok v ↔ 0 < i ∧ t.values[i - 1]? = some v := by
  cases i with
  | zero => simp [get]
  | succ i =>
      rw [get, Nat.add_sub_cancel]
      cases t.values[i]? <;> simp

theorem exists_get (hi : 0 < i) (hle : i ≤ t.size) : ∃ v, t.get i = .ok v := by
  have hlt : i - 1 < t.values.size := by
    unfold size at hle
    omega
  exact ⟨t.values[i - 1], get_eq_ok_iff.mpr ⟨hi, Array.getElem?_eq_getElem hlt⟩⟩

theorem le_size_of_get (h : t.get i = .ok v) : i ≤ t.size := by
  obtain ⟨hi, hget⟩ := get_eq_ok_iff.mp h
  obtain ⟨hlt, -⟩ := Array.getElem?_eq_some_iff.mp hget
  unfold size
  omega

/-- Entries keep their values when one is added. -/
theorem get_of_push {t' : Interning α} {w : α} (hvalues : t'.values = t.values.push v) (h : t.get i = .ok w) :
    t'.get i = .ok w := by
  obtain ⟨hi, hval⟩ := get_eq_ok_iff.mp h
  obtain ⟨hlt, hval'⟩ := Array.getElem?_eq_some_iff.mp hval
  rw [get_eq_ok_iff, hvalues, Array.getElem?_push_lt hlt, hval']
  exact ⟨hi, rfl⟩

theorem get_push {t' : Interning α} (hvalues : t'.values = t.values.push v) : t'.get (t.size + 1) = .ok v := by
  rw [get_eq_ok_iff, hvalues]
  exact ⟨t.size.succ_pos, by rw [Nat.add_sub_cancel]; exact Array.getElem?_push_size⟩

/-- No link leads on from where there is no entry. -/
theorem Linked.link_eq_zero (ht : t.Linked) (hi : t.size < i) : t.link i = 0 := by
  have hsize := ht.size_links
  rw [Interning.link, Array.getD_eq_getD_getElem?, Array.getElem?_eq_none (by omega)]
  rfl

/-- A new entry is linked to nothing, as if it were not there. -/
theorem getD_push_links : (t.links.push 0).getD (i - 1) 0 = t.link i := by
  rw [link, Array.getD_eq_getD_getElem?, Array.getD_eq_getD_getElem?, Array.getElem?_push]
  split
  · next h => rw [Array.getElem?_eq_none (by omega)]; rfl
  · rfl

/-! ### Searching -/

section Search

variable [DecidableEq α] {last : Nat}

theorem search_found (h : t.search v last i = .found j) : t.get j = .ok v := by
  fun_induction search with
  | case1 last i hi heq =>
      cases h
      exact get_eq_ok_iff.mpr ⟨by omega, by rw [Array.getElem?_eq_getElem (by omega), heq]⟩
  | case2 last i hi hne ih => exact ih h
  | case3 last i hi => cases h

/-- A search fails at the end of the chain, having seen all of it. -/
theorem search_absent (ht : t.Linked) (hi : i ≠ 0 → last < i ∧ i ≤ t.size) (h : t.search v last i = .absent k) :
    (i = 0 → k = last) ∧
    (i ≠ 0 → t.OnChain i k ∧ 0 < k ∧ k ≤ t.size ∧ t.link k = 0 ∧ ∀ j, t.OnChain i j → t.get j ≠ .ok v) := by
  fun_induction search with
  | case1 => cases h
  | case2 last i hcond hne ih =>
      obtain ⟨hzero, hnext⟩ := ih (fun hlink => ht.link i (by omega) hcond.2 hlink) h
      have hget : t.get i ≠ .ok v := fun hget => by
        obtain ⟨-, hval⟩ := get_eq_ok_iff.mp hget
        exact hne (Array.getElem?_eq_some_iff.mp hval).2
      refine ⟨fun h => absurd h (by omega), fun _ => ?_⟩
      by_cases hlink : t.link i = 0
      · obtain rfl := hzero hlink
        refine ⟨.here _, by omega, hcond.2, hlink, fun j hj => ?_⟩
        cases hj with
        | here => exact hget
        | next _ hne' _ => exact absurd hlink hne'
      · obtain ⟨hon, hpos, hle, hend, hall⟩ := hnext hlink
        refine ⟨.next (by omega) hlink hon, hpos, hle, hend, fun j hj => ?_⟩
        cases hj with
        | here => exact hget
        | next _ _ hj => exact hall j hj
  | case3 last i hcond =>
      cases h
      have hzero : i = 0 := by
        by_contra hne
        exact hcond (hi hne)
      exact ⟨fun _ => rfl, fun hne => absurd hzero hne⟩

end Search

/-! ### Adding -/

section Add

variable [Coded α]

theorem slot_lt {n : Nat} (hn : 0 < n ∧ n < 2 ^ 64) : slot v n < n := by
  have hmod : (UInt64.ofNat n).toNat = n := by
    rw [UInt64.toNat_ofNat', Nat.mod_eq_of_lt hn.2]
  rw [slot, UInt64.toNat_mod, hmod]
  exact Nat.mod_lt _ hn.1

/-- The table with a new entry, linked to the end of a chain or, if that is empty, to its slot. -/
def append (t : Interning α) (v : α) (last : Nat) : Interning α :=
  if last = 0 then ⟨t.values.push v, t.links.push 0, t.heads.setIfInBounds (slot v t.heads.size) (t.size + 1)⟩
  else ⟨t.values.push v, (t.links.push 0).setIfInBounds (last - 1) (t.size + 1), t.heads⟩

theorem put_eq [DecidableEq α] : t.put v =
    match t.search v 0 (t.heads.getD (slot v t.heads.size) 0) with
    | .found i => (i, t)
    | .absent last => (t.size + 1, t.append v last) := by
  unfold put append
  dsimp only [add, size]
  cases t.search v 0 (t.heads.getD (slot v t.heads.size) 0) with
  | found i => rfl
  | absent last => by_cases h : last = 0 <;> simp [h]

@[simp] theorem values_append : (t.append v k).values = t.values.push v := by
  unfold append
  split <;> rfl

@[simp] theorem size_append : (t.append v k).size = t.size + 1 := by
  rw [size, values_append, Array.size_push, size]

@[simp] theorem size_heads_append : (t.append v k).heads.size = t.heads.size := by
  unfold append
  split
  · exact Array.size_setIfInBounds
  · rfl

theorem get_append_of_get {w : α} (h : t.get i = .ok w) : (t.append v k).get i = .ok w :=
  get_of_push values_append h

theorem get_append_new : (t.append v k).get (t.size + 1) = .ok v :=
  get_push values_append

theorem get_append_cases {w : α} (h : (t.append v k).get i = .ok w) : i = t.size + 1 ∧ w = v ∨ t.get i = .ok w := by
  by_cases hi : i = t.size + 1
  · subst hi
    cases h.symm.trans get_append_new
    exact .inl ⟨rfl, rfl⟩
  · have hle := le_size_of_get h
    rw [size_append] at hle
    obtain ⟨w', hw⟩ := exists_get (t := t) (get_eq_ok_iff.mp h).1 (by omega)
    cases h.symm.trans (get_append_of_get hw)
    exact .inr hw

variable {last : Nat}

/-- Links stay as they are, but for the one from the end of the chain. -/
theorem link_append (ht : t.Linked) (hlast : last ≤ t.size) (hi : 0 < i) :
    (t.append v last).link i = if i = last then t.size + 1 else t.link i := by
  unfold append
  by_cases h : last = 0
  · rw [if_pos h, if_neg (by omega)]
    exact getD_push_links
  · have hsize := ht.size_links
    rw [if_neg h]
    change ((t.links.push 0).setIfInBounds (last - 1) (t.size + 1)).getD (i - 1) 0 = _
    by_cases heq : i = last
    · subst heq
      rw [if_pos rfl, Array.getD_eq_getD_getElem?, Array.getElem?_setIfInBounds_self_of_lt]
      · rfl
      · rw [Array.size_push]
        omega
    · rw [if_neg heq, ← getD_push_links, Array.getD_eq_getD_getElem?, Array.getD_eq_getD_getElem?,
        Array.getElem?_setIfInBounds_ne (by omega)]

theorem heads_append (ht : t.Linked) {h : Nat} : (t.append v last).heads.getD h 0 =
    if last = 0 ∧ h = slot v t.heads.size then t.size + 1 else t.heads.getD h 0 := by
  unfold append
  by_cases hl : last = 0
  · rw [if_pos hl]
    change (t.heads.setIfInBounds (slot v t.heads.size) (t.size + 1)).getD h 0 = _
    by_cases hh : h = slot v t.heads.size
    · rw [if_pos ⟨hl, hh⟩, hh, Array.getD_eq_getD_getElem?,
        Array.getElem?_setIfInBounds_self_of_lt (slot_lt ht.slots)]
      rfl
    · rw [if_neg fun hand => hh hand.2, Array.getD_eq_getD_getElem?, Array.getD_eq_getD_getElem?,
        Array.getElem?_setIfInBounds_ne (Ne.symm hh)]
  · rw [if_neg hl, if_neg fun hand => hl hand.1]

/-- What a new entry is linked to: nothing yet, if its chain is empty, and else the end of its chain. -/
structure Ends (t : Interning α) (v : α) (last : Nat) : Prop where
  le : last ≤ t.size
  empty : last = 0 → t.heads.getD (slot v t.heads.size) 0 = 0
  chain : last ≠ 0 → t.OnChain (t.heads.getD (slot v t.heads.size) 0) last ∧ t.link last = 0

theorem linked_append (ht : t.Linked) (hlast : t.Ends v last) : (t.append v last).Linked where
  size_links := by
    have := ht.size_links
    unfold append
    split <;> simp only [size, Array.size_push, Array.size_setIfInBounds] at * <;> omega
  link i hi hle hne := by
    rw [size_append] at *
    rw [link_append ht hlast.le hi] at *
    split at hne
    · next heq =>
        have := hlast.le
        rw [if_pos heq]
        omega
    · next heq =>
        rw [if_neg heq]
        by_cases hold : i ≤ t.size
        · have := ht.link i hi hold hne
          omega
        · exact absurd (ht.link_eq_zero (Nat.lt_of_not_le hold)) hne
  heads h := by
    have := ht.heads h
    rw [heads_append ht, size_append]
    split <;> omega
  slots := by
    rw [size_heads_append]
    exact ht.slots

/-- Chains keep their entries. -/
theorem OnChain.append (ht : t.Linked) (hlast : t.Ends v last) (h : t.OnChain i j) (hi : 0 < i → i ≤ t.size) :
    (t.append v last).OnChain i j := by
  induction h with
  | here => exact .here _
  | @next i j hpos hlink _ ih =>
      have hkeep : (t.append v last).link i = t.link i := by
        rw [link_append ht hlast.le hpos, if_neg]
        rintro rfl
        exact hlink (hlast.chain hpos.ne').2
      refine .next hpos (by rwa [hkeep]) ?_
      rw [hkeep]
      exact ih fun _ => (ht.link _ hpos (hi hpos) hlink).2

omit [Coded α] in
theorem OnChain.trans (h : t.OnChain i j) (h' : t.OnChain j k) : t.OnChain i k := by
  induction h with
  | here => exact h'
  | next hpos hlink _ ih => exact .next hpos hlink (ih h')

theorem Findable.append (ht : t.Linked) (hlast : t.Ends v last) (h : t.Findable i) (hi : 0 < i) :
    (t.append v last).Findable i := by
  obtain ⟨w, hget, hon⟩ := h
  refine ⟨w, get_append_of_get hget, ?_⟩
  rw [size_heads_append, heads_append ht]
  split
  · next heq =>
      -- the chain was empty, and had no entry at all
      rw [heq.2, hlast.empty heq.1] at hon
      cases hon with
      | here => exact absurd hi (Nat.lt_irrefl 0)
      | next hpos => exact absurd hpos (Nat.lt_irrefl 0)
  · exact hon.append ht hlast fun _ => ht.heads _

theorem findable_append_new (ht : t.Linked) (hlast : t.Ends v last) : (t.append v last).Findable (t.size + 1) := by
  refine ⟨v, get_append_new, ?_⟩
  rw [size_heads_append, heads_append ht]
  by_cases h : last = 0
  · rw [if_pos ⟨h, rfl⟩]
    exact .here _
  · rw [if_neg fun hand => h hand.1]
    have hpos : 0 < last := Nat.pos_of_ne_zero h
    have hlink : (t.append v last).link last = t.size + 1 := by rw [link_append ht hlast.le hpos, if_pos rfl]
    refine ((hlast.chain h).1.append ht hlast fun _ => ht.heads _).trans (.next hpos ?_ ?_)
    · rw [hlink]
      exact Nat.succ_ne_zero _
    · rw [hlink]
      exact .here _

/-- A value is found if it has an entry on its chain, and else gets a new one. -/
theorem put_cases [DecidableEq α] (ht : t.Linked) (v : α) :
    (∃ i, t.put v = (i, t) ∧ t.get i = .ok v) ∨
    ∃ last, t.put v = (t.size + 1, t.append v last) ∧ t.Ends v last ∧ ∀ j, 0 < j → t.Findable j → t.get j ≠ .ok v := by
  rw [put_eq]
  have hhead := ht.heads (slot v t.heads.size)
  cases hsearch : t.search v 0 (t.heads.getD (slot v t.heads.size) 0) with
  | found i => exact .inl ⟨i, rfl, search_found hsearch⟩
  | absent last =>
      obtain ⟨hzero, hchain⟩ := search_absent ht (fun hne => ⟨by omega, hhead⟩) hsearch
      refine .inr ⟨last, rfl, ?_, fun j hj hfind hget => ?_⟩
      · by_cases h : t.heads.getD (slot v t.heads.size) 0 = 0
        · obtain rfl := hzero h
          exact ⟨Nat.zero_le _, fun _ => h, fun hne => absurd rfl hne⟩
        · obtain ⟨hon, hpos, hle, hend, -⟩ := hchain h
          exact ⟨hle, fun hl => absurd hl hpos.ne', fun _ => ⟨hon, hend⟩⟩
      · obtain ⟨w, hw, hon⟩ := hfind
        rw [hget] at hw
        cases hw
        by_cases h : t.heads.getD (slot v t.heads.size) 0 = 0
        · rw [h] at hon
          cases hon with
          | here => exact absurd hj (Nat.lt_irrefl 0)
          | next hpos => exact absurd hpos (Nat.lt_irrefl 0)
        · exact (hchain h).2.2.2.2 j hon hget

end Add

/-! ### New tables -/

theorem linked_ofBits {bits : Nat} (h : ofBits bits = .ok t) : t.Linked ∧ t.size = 0 := by
  unfold ofBits at h
  split at h
  · cases h
    have hpow : Nat.pow 2 (min bits 16) ≤ Nat.pow 2 16 := Nat.pow_le_pow_right (by decide) (Nat.min_le_right _ _)
    refine ⟨⟨rfl, fun i hi hle => absurd hle (by simp [size]; omega), fun h => ?_, ?_⟩, rfl⟩
    · rw [Array.getD_eq_getD_getElem?, Array.getElem?_replicate]
      split <;> exact Nat.le_refl 0
    · rw [Array.size_replicate]
      exact ⟨Nat.pow_pos (by decide), hpow.trans_lt (by decide)⟩
  · cases h

theorem link_add : (t.add v).2.link i = t.link i :=
  getD_push_links

theorem linked_add (ht : t.Linked) : (t.add v).2.Linked := by
  have hsize := ht.size_links
  have hsucc : (t.add v).2.size = t.size + 1 := Array.size_push ..
  refine ⟨by simp [add, size, hsize], fun i hi hle hne => ?_, fun h => (ht.heads h).trans (by omega), ht.slots⟩
  rw [link_add] at *
  by_cases hold : i ≤ t.size
  · have := ht.link i hi hold hne
    omega
  · exact absurd (ht.link_eq_zero (Nat.lt_of_not_le hold)) hne

end Invariance.Slots.Interning
