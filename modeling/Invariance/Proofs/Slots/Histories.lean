import Invariance.Proofs.Slots.Interning

/-!
Interning tables after any calls. The chain of a slot is a list, made of what was put there and of nothing else, and a
search walks it to its end. What a call returned is the number of its value from then on.
-/

namespace Invariance.Slots.Interning

variable {α : Type} {t t' : Interning α} {v w : α} {i j k n last : Nat} {l : List Nat}

/-! ### Chains as lists -/

/-- The entries that the links lead through from `i` on, to the last one. -/
inductive Chain (t : Interning α) : Nat → List Nat → Prop
  | done : Chain t 0 []
  | link {i : Nat} {l : List Nat} (hi : 0 < i) (rest : Chain t (t.link i) l) : Chain t i (i :: l)

namespace Chain

theorem congr (h : t.Chain i l) (hlink : ∀ j ∈ l, t'.link j = t.link j) : t'.Chain i l := by
  induction h with
  | done => exact .done
  | @link i l hi _ ih =>
      refine .link hi ?_
      rw [hlink i List.mem_cons_self]
      exact ih fun j hj => hlink j (List.mem_cons_of_mem _ hj)

/-- The chain after its last entry was linked to another chain. -/
theorem append {m : List Nat} (h : t.Chain i l) (hlast : l.getLast? = some k)
    (hlink : ∀ j ∈ l, j ≠ k → t'.link j = t.link j) (hnew : t'.Chain (t'.link k) m) (hnodup : l.Nodup) :
    t'.Chain i (l ++ m) := by
  induction h with
  | done => cases hlast
  | @link i l hi rest ih =>
      cases l with
      | nil =>
          cases hlast
          exact .link hi hnew
      | cons j l =>
          rw [List.getLast?_cons_cons] at hlast
          obtain ⟨hnot, hnodup⟩ := List.nodup_cons.mp hnodup
          have hne : i ≠ k := by
            rintro rfl
            exact hnot (List.mem_of_getLast? hlast)
          refine .link hi ?_
          rw [hlink i List.mem_cons_self hne]
          exact ih hlast (fun j hj => hlink j (List.mem_cons_of_mem _ hj)) hnodup

theorem onChain (h : t.Chain i l) (hj : j ∈ l) : t.OnChain i j := by
  induction h with
  | done => cases hj
  | @link i l hi rest ih =>
      rcases List.mem_cons.mp hj with rfl | hj
      · exact .here _
      · refine .next hi ?_ (ih hj)
        intro hzero
        rw [hzero] at rest
        cases rest
        · cases hj
        · omega

theorem link_last (h : t.Chain i l) (hlast : l.getLast? = some k) : t.link k = 0 := by
  induction h with
  | done => cases hlast
  | @link i l hi rest ih =>
      cases l with
      | nil =>
          obtain rfl : i = k := by simpa using hlast
          generalize t.link i = m at rest
          cases rest
          rfl
      | cons j l => exact ih (List.getLast?_cons_cons ▸ hlast)

/-- A chain starts at its oldest entry. -/
theorem bounds (ht : t.Linked) (h : t.Chain i l) (hi : i ≤ t.size) (hj : j ∈ l) : 0 < i ∧ i ≤ j ∧ j ≤ t.size := by
  induction h with
  | done => cases hj
  | @link i l hpos rest ih =>
      rcases List.mem_cons.mp hj with rfl | hj
      · exact ⟨hpos, Nat.le_refl _, hi⟩
      · have hne : t.link i ≠ 0 := by
          intro hzero
          rw [hzero] at rest
          cases rest with
          | done => cases hj
          | link hi => exact absurd hi (Nat.lt_irrefl 0)
        obtain ⟨hlt, hle⟩ := ht.link i hpos hi hne
        obtain ⟨-, hnext, hsize⟩ := ih hle hj
        exact ⟨hpos, by omega, hsize⟩

/-- Chains lead from older to newer entries. -/
theorem sorted (ht : t.Linked) (h : t.Chain i l) (hi : i ≤ t.size) : l.Pairwise (· < ·) := by
  induction h with
  | done => exact .nil
  | @link i l hpos rest ih =>
      have hle : t.link i ≤ t.size := by
        by_cases hne : t.link i = 0
        · omega
        · exact (ht.link i hpos hi hne).2
      refine List.pairwise_cons.mpr ⟨fun j hj => ?_, ih hle⟩
      obtain ⟨hnext, hlej, -⟩ := rest.bounds ht hle hj
      have := (ht.link i hpos hi hnext.ne').1
      omega

end Chain

/-! ### Walks -/

/-- A search that stops nowhere but at the value or after the last entry: from the entry `i`, having come from the entry
`last`. -/
inductive Walk (t : Interning α) (v : α) : (last i : Nat) → Search → Prop
  | absent (last : Nat) : Walk t v last 0 (.absent last)
  | found {last i : Nat} (hi : 0 < i) (hget : t.get i = .ok v) : Walk t v last i (.found i)
  | next {last i : Nat} {w : α} {o : Search} (hi : 0 < i) (hget : t.get i = .ok w) (hne : w ≠ v)
      (rest : Walk t v i (t.link i) o) : Walk t v last i o

namespace Walk

/-- The search is such a walk: where links lead from older to newer entries, it never stops before. -/
theorem of_search [DecidableEq α] (ht : t.Linked) (hi : i ≠ 0 → last < i ∧ i ≤ t.size) :
    t.Walk v last i (t.search v last i) := by
  fun_induction search with
  | case1 last i hcond heq =>
      exact .found (by omega) (get_eq_ok_iff.mpr ⟨by omega, by rw [Array.getElem?_eq_getElem (by omega), heq]⟩)
  | case2 last i hcond hne ih =>
      have hget : t.get i = .ok t.values[i - 1] :=
        get_eq_ok_iff.mpr ⟨by omega, Array.getElem?_eq_getElem (by omega)⟩
      exact .next (by omega) hget hne (ih fun hlink => ht.link i (by omega) hcond.2 hlink)
  | case3 last i hcond =>
      obtain rfl : i = 0 := by
        by_contra hne
        exact hcond (hi hne)
      exact .absent last

theorem found_mem (h : t.Walk v last i (.found j)) (hc : t.Chain i l) : j ∈ l ∧ t.get j = .ok v := by
  generalize ho : Search.found j = o at h
  induction h generalizing l with
  | absent => cases ho
  | found hi hget =>
      cases ho
      cases hc with
      | done => exact absurd hi (Nat.lt_irrefl 0)
      | link => exact ⟨List.mem_cons_self, hget⟩
  | next hi _ _ _ ih =>
      cases hc with
      | done => exact absurd hi (Nat.lt_irrefl 0)
      | link _ rest =>
          obtain ⟨hj, hget⟩ := ih rest ho
          exact ⟨List.mem_cons_of_mem _ hj, hget⟩

/-- A walk that finds nothing has seen the whole chain. -/
theorem absent_spec (h : t.Walk v last i (.absent k)) (hc : t.Chain i l) :
    (∀ j ∈ l, t.get j ≠ .ok v) ∧ k = l.getLast?.getD last := by
  generalize ho : Search.absent k = o at h
  induction h generalizing l with
  | absent =>
      cases ho
      cases hc with
      | done => exact ⟨nofun, rfl⟩
      | link hi => exact absurd hi (Nat.lt_irrefl 0)
  | found => cases ho
  | @next last i w o hi hget hne _ ih =>
      cases hc with
      | done => exact absurd hi (Nat.lt_irrefl 0)
      | @link _ l _ rest =>
          obtain ⟨hall, hk⟩ := ih rest ho
          refine ⟨List.forall_mem_cons.mpr ⟨?_, hall⟩, ?_⟩
          · rw [hget]
            exact fun heq => hne (Except.ok.inj heq)
          · rw [hk, List.getLast?_cons, Option.getD_some]

end Walk

/-! ### Histories -/

/-- A call that enters a value. -/
inductive Call (α : Type)
  /-- Into the chain of its slot, unless it is there. -/
  | put (v : α)
  /-- Beside the chains. -/
  | add (v : α)

def Call.value : Call α → α
  | .put v | .add v => v

/-- The empty table of `n` slots. -/
def ofSlots (n : Nat) : Interning α :=
  ⟨#[], #[], Array.replicate n 0⟩

theorem getD_replicate (n s : Nat) : (Array.replicate n 0).getD s 0 = 0 := by
  rw [Array.getD_eq_getD_getElem?, Array.getElem?_replicate]
  split <;> rfl

section Recorded

variable [Coded α] {c : Call α} {h : List (Call α × Nat)}

/-- What is true of a table after calls, given with the numbers that they returned. -/
structure Recorded (n : Nat) (t : Interning α) (h : List (Call α × Nat)) : Prop where
  linked : t.Linked
  slots : t.heads.size = n
  kept : ∀ c i, (c, i) ∈ h → t.get i = .ok c.value
  chain : ∀ s, ∃ l, t.Chain (t.heads.getD s 0) l ∧ ∀ i, i ∈ l ↔ ∃ v, slot v n = s ∧ (.put v, i) ∈ h
  unique : ∀ v i j, (.put v, i) ∈ h → (.put v, j) ∈ h → i = j
  apart : ∀ v w i j, (.add v, i) ∈ h → (.put w, j) ∈ h → i ≠ j

theorem recorded_new (hn : 0 < n ∧ n < 2 ^ 64) : (ofSlots n : Interning α).Recorded n [] where
  linked := {
    size_links := rfl
    link := fun i hi hle => absurd hle (by simp [size, ofSlots]; omega)
    heads := fun s => (getD_replicate n s).le
    slots := by simpa [ofSlots] using hn }
  slots := Array.size_replicate
  kept := nofun
  chain s := by
    refine ⟨[], ?_, by simp⟩
    have hhead : (ofSlots n : Interning α).heads.getD s 0 = 0 := getD_replicate n s
    rw [hhead]
    exact .done
  unique := nofun
  apart := nofun

namespace Recorded

theorem le_size (hr : t.Recorded n h) (hc : (c, i) ∈ h) : i ≤ t.size :=
  le_size_of_get (hr.kept c i hc)

theorem eq_of_put (hr : t.Recorded n h) (hv : (.put v, i) ∈ h) (hw : (.put w, i) ∈ h) : v = w :=
  Except.ok.inj ((hr.kept _ _ hv).symm.trans (hr.kept _ _ hw))

/-- To put a value again is to record nothing new. -/
theorem put_again (hr : t.Recorded n h) (hv : (.put v, i) ∈ h) : t.Recorded n (h ++ [(.put v, i)]) := by
  have hmem : ∀ x, x ∈ h ++ [(.put v, i)] ↔ x ∈ h := fun x => by
    simp only [List.mem_append, List.mem_singleton, or_iff_left_iff_imp]
    rintro rfl
    exact hv
  exact {
    linked := hr.linked
    slots := hr.slots
    kept := fun c i hc => hr.kept c i ((hmem _).mp hc)
    chain := fun s => by simpa only [hmem] using hr.chain s
    unique := fun v i j hi hj => hr.unique v i j ((hmem _).mp hi) ((hmem _).mp hj)
    apart := fun v w i j hi hj => hr.apart v w i j ((hmem _).mp hi) ((hmem _).mp hj) }

theorem add (hr : t.Recorded n h) (v : α) : (t.add v).2.Recorded n (h ++ [(.add v, t.size + 1)]) where
  linked := linked_add hr.linked
  slots := hr.slots
  kept c i hc := by
    rcases List.mem_append.mp hc with hc | hc
    · exact get_of_push rfl (hr.kept c i hc)
    · cases List.mem_singleton.mp hc
      exact get_push rfl
  chain s := by
    obtain ⟨l, hchain, hmem⟩ := hr.chain s
    refine ⟨l, hchain.congr fun j _ => link_add, fun i => ?_⟩
    simpa using hmem i
  unique u i j hi hj := by
    simp only [List.mem_append, List.mem_singleton, Prod.mk.injEq, reduceCtorEq, false_and, or_false] at hi hj
    exact hr.unique u i j hi hj
  apart u w i j hi hj := by
    simp only [List.mem_append, List.mem_singleton, Prod.mk.injEq, reduceCtorEq, false_and, or_false] at hi hj
    rcases hi with hi | ⟨-, rfl⟩
    · exact hr.apart u w i j hi hj
    · have := hr.le_size hj
      omega

/-- The end of the chain of a slot is what a new entry of the slot is linked to. -/
theorem ends (hr : t.Recorded n h) (hchain : t.Chain (t.heads.getD (slot v n) 0) l) (hk : k = l.getLast?.getD 0) :
    t.Ends v k := by
  cases hlast : l.getLast? with
  | none =>
      rw [hlast] at hk
      obtain rfl := List.getLast?_eq_none_iff.mp hlast
      subst hk
      refine ⟨Nat.zero_le _, fun _ => ?_, fun hne => absurd rfl hne⟩
      rw [hr.slots]
      generalize t.heads.getD (slot v n) 0 = i at hchain
      cases hchain
      rfl
  | some j =>
      rw [hlast] at hk
      obtain rfl : k = j := hk
      have hj := List.mem_of_getLast? hlast
      obtain ⟨hpos, hle, hsize⟩ := hchain.bounds hr.linked (hr.linked.heads _) hj
      refine ⟨hsize, fun hzero => absurd hzero (by omega), fun _ => ?_⟩
      rw [hr.slots]
      exact ⟨hchain.onChain hj, hchain.link_last hlast⟩

/-- The chain of a slot after a new entry of the slot: with that entry at its end. -/
theorem chain_append (hr : t.Recorded n h) (hchain : t.Chain (t.heads.getD (slot v n) 0) l)
    (hk : k = l.getLast?.getD 0) :
    (t.append v k).Chain ((t.append v k).heads.getD (slot v n) 0) (l ++ [t.size + 1]) := by
  have hends := hr.ends hchain hk
  have hnew : (t.append v k).Chain (t.size + 1) [t.size + 1] := by
    refine .link t.size.succ_pos ?_
    have := hends.le
    rw [link_append hr.linked hends.le t.size.succ_pos, if_neg (by omega), hr.linked.link_eq_zero (Nat.lt_succ_self _)]
    exact .done
  rw [heads_append hr.linked, hr.slots]
  cases hlast : l.getLast? with
  | none =>
      rw [hlast] at hk
      rw [if_pos ⟨hk, rfl⟩, List.getLast?_eq_none_iff.mp hlast]
      exact hnew
  | some j =>
      rw [hlast] at hk
      obtain rfl : k = j := hk
      have hhead := hr.linked.heads (slot v n)
      obtain ⟨hpos, hle, -⟩ := hchain.bounds hr.linked hhead (List.mem_of_getLast? hlast)
      rw [if_neg fun hand => absurd hand.1 (by omega)]
      refine hchain.append hlast (fun j hj hne => ?_) ?_ ((hchain.sorted hr.linked hhead).imp Nat.ne_of_lt)
      · obtain ⟨hi, hij, -⟩ := hchain.bounds hr.linked hhead hj
        rw [link_append hr.linked hends.le (by omega), if_neg hne]
      · rw [link_append hr.linked hends.le (by omega), if_pos rfl]
        exact hnew

/-- The chain of any other slot stays as it is. -/
theorem chain_append_ne (hr : t.Recorded n h) (hchain : t.Chain (t.heads.getD (slot v n) 0) l)
    (hk : k = l.getLast?.getD 0) {s : Nat} {m : List Nat} (hs : s ≠ slot v n) (hm : t.Chain (t.heads.getD s 0) m)
    (hdisjoint : ∀ j ∈ m, j ∉ l) : (t.append v k).Chain ((t.append v k).heads.getD s 0) m := by
  rw [heads_append hr.linked, hr.slots, if_neg fun hand => hs hand.2]
  refine hm.congr fun j hj => ?_
  obtain ⟨hi, hij, -⟩ := hm.bounds hr.linked (hr.linked.heads s) hj
  rw [link_append hr.linked (hr.ends hchain hk).le (by omega), if_neg]
  rintro rfl
  cases hlast : l.getLast? with
  | none =>
      rw [hlast] at hk
      exact absurd hk (by simp; omega)
  | some i =>
      rw [hlast] at hk
      obtain rfl : j = i := hk
      exact hdisjoint j hj (List.mem_of_getLast? hlast)

theorem put_next (hr : t.Recorded n h) (hv : ∀ i, (.put v, i) ∉ h) (hchain : t.Chain (t.heads.getD (slot v n) 0) l)
    (hmem : ∀ i, i ∈ l ↔ ∃ w, slot w n = slot v n ∧ (.put w, i) ∈ h) (hk : k = l.getLast?.getD 0) :
    (t.append v k).Recorded n (h ++ [(.put v, t.size + 1)]) where
  linked := linked_append hr.linked (hr.ends hchain hk)
  slots := size_heads_append.trans hr.slots
  kept c i hc := by
    rcases List.mem_append.mp hc with hc | hc
    · exact get_append_of_get (hr.kept c i hc)
    · cases List.mem_singleton.mp hc
      exact get_append_new
  chain s := by
    by_cases hs : s = slot v n
    · subst hs
      refine ⟨_, hr.chain_append hchain hk, fun i => ?_⟩
      simp only [List.mem_append, List.mem_singleton, Prod.mk.injEq, Call.put.injEq, hmem]
      constructor
      · rintro (⟨w, hw, hi⟩ | rfl)
        · exact ⟨w, hw, .inl hi⟩
        · exact ⟨v, rfl, .inr ⟨rfl, rfl⟩⟩
      · rintro ⟨w, hw, hi | ⟨-, rfl⟩⟩
        · exact .inl ⟨w, hw, hi⟩
        · exact .inr rfl
    · obtain ⟨m, hm, hmem'⟩ := hr.chain s
      refine ⟨m, hr.chain_append_ne hchain hk hs hm fun j hj hjl => ?_, fun i => ?_⟩
      · obtain ⟨w, hw, hjw⟩ := (hmem' j).mp hj
        obtain ⟨u, hu, hju⟩ := (hmem j).mp hjl
        cases hr.eq_of_put hjw hju
        exact hs (hw.symm.trans hu)
      · simp only [List.mem_append, List.mem_singleton, Prod.mk.injEq, Call.put.injEq, hmem']
        constructor
        · rintro ⟨w, hw, hi⟩
          exact ⟨w, hw, .inl hi⟩
        · rintro ⟨w, hw, hi | ⟨rfl, -⟩⟩
          · exact ⟨w, hw, hi⟩
          · exact absurd hw.symm hs
  unique u i j hi hj := by
    simp only [List.mem_append, List.mem_singleton, Prod.mk.injEq, Call.put.injEq] at hi hj
    rcases hi with hi | ⟨rfl, rfl⟩ <;> rcases hj with hj | ⟨heq, rfl⟩
    · exact hr.unique u i j hi hj
    · exact absurd (heq ▸ hi) (hv i)
    · exact absurd hj (hv j)
    · rfl
  apart u w i j hi hj := by
    simp only [List.mem_append, List.mem_singleton, Prod.mk.injEq, reduceCtorEq, false_and, or_false] at hi hj
    rcases hj with hj | ⟨-, rfl⟩
    · exact hr.apart u w i j hi hj
    · have := hr.le_size hi
      omega

end Recorded

end Recorded

section Histories

variable [DecidableEq α] [Coded α] {h : List (Call α × Nat)}

/-- The number that a call returns, and the table after it. -/
def perform (t : Interning α) : Call α → Nat × Interning α
  | .put v => t.put v
  | .add v => t.add v

/-- A table of `n` slots after calls, in order and with the numbers that they returned. -/
inductive History (n : Nat) : Interning α → List (Call α × Nat) → Prop
  | new : History n (ofSlots n) []
  | call {t t' : Interning α} {h : List (Call α × Nat)} {i : Nat} (past : History n t h) (c : Call α)
      (hcall : t.perform c = (i, t')) : History n t' (h ++ [(c, i)])

namespace Recorded

theorem walk (hr : t.Recorded n h) (v : α) :
    t.Walk v 0 (t.heads.getD (slot v n) 0) (t.search v 0 (t.heads.getD (slot v n) 0)) :=
  .of_search hr.linked fun hne => ⟨Nat.pos_of_ne_zero hne, hr.linked.heads _⟩

/-- The number of a value that was put is found again, and any other value is linked to the end of its chain. -/
theorem put_cases (hr : t.Recorded n h) (v : α) :
    (∃ i, (.put v, i) ∈ h ∧ t.put v = (i, t)) ∨
    (∀ i, (.put v, i) ∉ h) ∧ ∃ l, t.Chain (t.heads.getD (slot v n) 0) l ∧
      (∀ i, i ∈ l ↔ ∃ w, slot w n = slot v n ∧ (.put w, i) ∈ h) ∧
      t.put v = (t.size + 1, t.append v (l.getLast?.getD 0)) := by
  obtain ⟨l, hchain, hmem⟩ := hr.chain (slot v n)
  have hwalk := hr.walk v
  rw [put_eq, hr.slots]
  cases hsearch : t.search v 0 (t.heads.getD (slot v n) 0) with
  | found j =>
      rw [hsearch] at hwalk
      obtain ⟨hj, hget⟩ := hwalk.found_mem hchain
      obtain ⟨w, -, hw⟩ := (hmem j).mp hj
      cases hget.symm.trans (hr.kept _ _ hw)
      exact .inl ⟨j, hw, rfl⟩
  | absent k =>
      rw [hsearch] at hwalk
      obtain ⟨hall, rfl⟩ := hwalk.absent_spec hchain
      exact .inr ⟨fun i hi => hall i ((hmem i).mpr ⟨v, rfl, hi⟩) (hr.kept _ _ hi), l, hchain, hmem, rfl⟩

/-- A call keeps the record. -/
theorem perform (hr : t.Recorded n h) {c : Call α} (hcall : t.perform c = (i, t')) :
    t'.Recorded n (h ++ [(c, i)]) := by
  cases c with
  | put v =>
      change t.put v = (i, t') at hcall
      rcases hr.put_cases v with ⟨j, hj, hput⟩ | ⟨hv, l, hchain, hmem, hput⟩
      · cases hcall.symm.trans hput
        exact hr.put_again hj
      · cases hcall.symm.trans hput
        exact hr.put_next hv hchain hmem rfl
  | add v =>
      cases hcall
      exact hr.add v

end Recorded

theorem History.recorded (hist : History n t h) (hn : 0 < n ∧ n < 2 ^ 64) : t.Recorded n h := by
  induction hist with
  | new => exact recorded_new hn
  | call _ c hcall ih => exact ih.perform hcall

/-- What callers rely on after any calls. -/
structure Interned (n : Nat) (t : Interning α) (h : List (Call α × Nat)) : Prop where
  /-- The chain of a slot has the numbers of what was put there, in increasing order. -/
  chains : ∀ s, ∃ l, t.Chain (t.heads.getD s 0) l ∧ l.Pairwise (· < ·) ∧
    ∀ i, i ∈ l ↔ ∃ v, slot v n = s ∧ (.put v, i) ∈ h
  walks : ∀ v, t.Walk v 0 (t.heads.getD (slot v n) 0) (t.search v 0 (t.heads.getD (slot v n) 0))
  put_old : ∀ v i, (.put v, i) ∈ h → t.put v = (i, t)
  put_new : ∀ v, (∀ i, (.put v, i) ∉ h) → ∃ t', t.put v = (t.size + 1, t') ∧ t'.values = t.values.push v
  eq_iff : ∀ v w i j, (.put v, i) ∈ h → (.put w, j) ∈ h → (i = j ↔ v = w)
  apart : ∀ v w i j, (.add v, i) ∈ h → (.put w, j) ∈ h → i ≠ j
  kept : ∀ c i, (c, i) ∈ h → t.get i = .ok c.value

theorem Recorded.interned (hr : t.Recorded n h) : Interned n t h where
  chains s := by
    obtain ⟨l, hchain, hmem⟩ := hr.chain s
    exact ⟨l, hchain, hchain.sorted hr.linked (hr.linked.heads s), hmem⟩
  walks := hr.walk
  put_old v i hi := by
    rcases hr.put_cases v with ⟨j, hj, hput⟩ | ⟨hv, -⟩
    · rw [hput, hr.unique v i j hi hj]
    · exact absurd hi (hv i)
  put_new v hv := by
    rcases hr.put_cases v with ⟨j, hj, -⟩ | ⟨-, l, -, -, hput⟩
    · exact absurd hj (hv j)
    · exact ⟨_, hput, values_append⟩
  eq_iff v w i j hi hj := by
    constructor
    · rintro rfl
      exact hr.eq_of_put hi hj
    · rintro rfl
      exact hr.unique v i j hi hj
  apart := hr.apart
  kept := hr.kept

/-- Tables of any number of slots, and so those for any number of values, intern what is put into them, whatever else is
added between. -/
theorem histories_interned {bits : Nat} (hbits : bits ≤ 31) :
    ofBits bits = .ok (ofSlots (α := α) (2 ^ min bits 16)) ∧
    ∀ n, 0 < n → n < 2 ^ 64 → ∀ (t : Interning α) h, History n t h → Interned n t h :=
  ⟨if_pos hbits, fun _ hpos hlt _ _ hist => (hist.recorded ⟨hpos, hlt⟩).interned⟩

end Histories

/-- A second value of the only slot is linked to the first one. -/
theorem histories_interned_collision : ∃ t : Interning (UInt64 × UInt64),
    History 1 t [(.put (1, 0), 1), (.put (0, 1), 2)] ∧ Interned 1 t [(.put (1, 0), 1), (.put (0, 1), 2)] := by
  have hfresh : ∀ {t h} (v : UInt64 × UInt64), History 1 t h → (∀ i, (.put v, i) ∉ h) →
      ∃ t', History 1 t' (h ++ [(.put v, t.size + 1)]) ∧ t'.size = t.size + 1 := by
    intro t h v hist hv
    rcases (hist.recorded (by decide)).put_cases v with ⟨i, hi, -⟩ | ⟨-, l, -, -, hput⟩
    · exact absurd hi (hv i)
    · exact ⟨_, .call hist (.put v) hput, size_append⟩
  obtain ⟨t, hist, hsize⟩ := hfresh (1, 0) .new nofun
  obtain ⟨t', hist', -⟩ := hfresh (0, 1) hist (by simp)
  rw [hsize] at hist'
  exact ⟨t', hist', (histories_interned (show 0 ≤ 31 by decide)).2 1 (by decide) (by decide) _ _ hist'⟩

end Invariance.Slots.Interning
