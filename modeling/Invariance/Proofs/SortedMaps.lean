import Invariance.SortedMap
import Std.Data.TreeMap.Lemmas

/-!
Laws of sorted maps: what is found under a key after an insertion or a removal, and that entries found are those
listed. A list of entries in order is the list of the map made of it. Outcomes found so far are kept in trees, of which
one law is needed.
-/

namespace Invariance.SortedMap

variable {κ ν : Type} [Ord κ] {m : SortedMap κ ν} {k l : κ} {v w : ν}

@[simp] theorem get?_empty : (empty : SortedMap κ ν).get? k = none :=
  rfl

variable [Std.LawfulEqOrd κ]

private theorem compare_eq_iff' : compare k l = .eq ↔ k = l :=
  Std.LawfulEqOrd.compare_eq_iff_eq

theorem nodup_keys (m : SortedMap κ ν) : m.keys.Nodup := by
  refine List.pairwise_map.mpr (m.sorted.imp ?_)
  intro a b hlt heq
  simp [heq, Std.ReflOrd.compare_self] at hlt

theorem find?_put (k : κ) (v : ν) (l : κ) (es : List (κ × ν)) :
    find? l (put k v es) = if compare l k = .eq then some v else find? l es := by
  fun_induction put k v es with
  | case1 => rfl
  | case2 => rfl
  | case3 j w rest heq =>
      have hkj : k = j := compare_eq_iff'.mp heq
      simp only [find?, hkj]
      split <;> rfl
  | case4 j w rest hgt ih =>
      simp only [find?, ih]
      by_cases hj : compare l j = .eq
      · have hne : ¬ compare l k = .eq := by
          intro hk
          rw [compare_eq_iff'.mp hj] at hk
          rw [compare_eq_iff'.mp hk] at hgt
          simp [Std.ReflOrd.compare_self] at hgt
        simp [hj, hne]
      · simp [hj]

private theorem mem_of_find?_eq {es : List (κ × ν)} (h : find? k es = some v) : (k, v) ∈ es := by
  fun_induction find? with
  | case1 => simp at h
  | case2 j w rest heq =>
      cases compare_eq_iff'.mp heq
      cases h
      exact List.mem_cons_self
  | case3 j w rest hne ih => exact List.mem_cons_of_mem _ (ih h)

private theorem find?_eq_of_mem {es : List (κ × ν)} (hs : es.Pairwise fun a b => compare a.1 b.1 = .lt)
    (h : (k, v) ∈ es) : find? k es = some v := by
  induction es with
  | nil => simp at h
  | cons e rest ih =>
      obtain ⟨hhead, htail⟩ := List.pairwise_cons.mp hs
      rcases List.mem_cons.mp h with rfl | hmem
      · simp [find?, Std.ReflOrd.compare_self]
      · have hlt := hhead _ hmem
        have hne : ¬ compare k e.1 = .eq := by
          intro heq
          rw [compare_eq_iff'.mp heq] at hlt
          simp [Std.ReflOrd.compare_self] at hlt
        simp only [find?, if_neg hne]
        exact ih htail hmem

/-- What is found under a key is what is listed with it. -/
theorem mem_toList_iff : (k, v) ∈ m.toList ↔ m.get? k = some v :=
  ⟨find?_eq_of_mem m.sorted, mem_of_find?_eq⟩

theorem mem_keys_iff : k ∈ m.keys ↔ (m.get? k).isSome := by
  simp only [keys, List.mem_map, Option.isSome_iff_exists]
  constructor
  · rintro ⟨⟨_, v⟩, hmem, rfl⟩
    exact ⟨v, mem_toList_iff.mp hmem⟩
  · rintro ⟨v, h⟩
    exact ⟨(k, v), mem_toList_iff.mpr h, rfl⟩

theorem get?_eq_none_iff : m.get? k = none ↔ k ∉ m.keys := by
  rw [mem_keys_iff, Bool.not_eq_true, Option.isSome_eq_false_iff, Option.isNone_iff_eq_none]

theorem get?_erase [DecidableEq κ] : (m.erase k).get? l = if l = k then none else m.get? l := by
  have hiff : ∀ v, (m.erase k).get? l = some v ↔ l ≠ k ∧ m.get? l = some v := by
    intro v
    have hne : compare k l ≠ .eq ↔ l ≠ k := not_congr (compare_eq_iff'.trans eq_comm)
    rw [← mem_toList_iff, ← mem_toList_iff, erase, List.mem_filter, and_comm, decide_eq_true_iff, hne]
  by_cases h : l = k
  · rw [if_pos h, Option.eq_none_iff_forall_ne_some]
    intro v hv
    exact ((hiff v).mp hv).1 h
  · rw [if_neg h]
    exact Option.ext fun v => (hiff v).trans (by simp [h])

variable [Std.TransOrd κ]

theorem get?_insert [DecidableEq κ] : (m.insert k v).get? l = if l = k then some v else m.get? l := by
  simp only [get?, insert, find?_put, compare_eq_iff']

@[simp] theorem get?_insert_self : (m.insert k v).get? k = some v := by
  simp [get?, insert, find?_put, Std.ReflOrd.compare_self]

/-- Maps in which the same is found are the same. -/
theorem ext_get? {n : SortedMap κ ν} (h : ∀ k, m.get? k = n.get? k) : m = n := by
  have hsub : ∀ e, e ∈ m.toList ↔ e ∈ n.toList := fun e => by
    rw [show e = (e.1, e.2) from rfl, mem_toList_iff, mem_toList_iff, h]
  refine ext (List.Perm.eq_of_pairwise ?_ m.sorted n.sorted ?_)
  · intro a b _ _ hab hba
    have := Std.TransCmp.lt_trans hab hba
    simp [Std.ReflOrd.compare_self] at this
  · refine (List.perm_ext_iff_of_nodup ?_ ?_).mpr hsub
    all_goals
      refine List.Pairwise.imp ?_ (SortedMap.sorted _)
      intro a b hlt heq
      simp [heq, Std.ReflOrd.compare_self] at hlt

/-- Maps with entries under the same keys list them in the same order. -/
theorem keys_eq_of_mem {μ : Type} {n : SortedMap κ μ} (h : ∀ k, k ∈ m.keys ↔ k ∈ n.keys) : m.keys = n.keys := by
  have hsorted : ∀ {ι : Type} (n : SortedMap κ ι), n.keys.Pairwise fun a b => compare a b = .lt :=
    fun n => List.pairwise_map.mpr n.sorted
  apply List.Perm.eq_of_pairwise _ (hsorted m) (hsorted n)
  · exact (List.perm_ext_iff_of_nodup m.nodup_keys n.nodup_keys).mpr h
  · intro a b _ _ hab hba
    have := Std.TransCmp.lt_trans hab hba
    simp [Std.ReflOrd.compare_self] at this

theorem get?_foldl_insert {α : Type} (key : α → κ) (value : α → ν) (l : List α) (m : SortedMap κ ν) :
    (l.foldl (fun m a => m.insert (key a) (value a)) m).get? k =
      ((l.reverse.find? fun a => compare k (key a) = .eq).map value).or (m.get? k) := by
  induction l generalizing m with
  | nil => simp
  | cons a rest ih =>
      rw [List.foldl_cons, ih, List.reverse_cons, List.find?_append]
      cases rest.reverse.find? _ with
      | some b => rfl
      | none =>
          simp only [get?, insert, find?_put, List.find?_cons, List.find?_nil, Option.map_none,
            Option.none_or]
          by_cases h : compare k (key a) = .eq <;> simp [h]

/-- A map made of the values that a function has at the given keys. -/
theorem get?_ofList_filterMap (f : κ → Option ν) {l : List κ} (hl : ∀ k, (f k).isSome → k ∈ l) :
    (ofList (l.filterMap fun k => (f k).map (k, ·))).get? k = f k := by
  have hmem : ∀ {j v}, (j, v) ∈ l.filterMap (fun k => (f k).map (k, ·)) → f j = some v := by
    intro j v h
    obtain ⟨i, -, hi⟩ := List.mem_filterMap.mp h
    obtain ⟨u, hu, heq⟩ := Option.map_eq_some_iff.mp hi
    cases heq
    exact hu
  rw [ofList, get?_foldl_insert, get?_empty, Option.or_none]
  cases h : (l.filterMap fun k => (f k).map (k, ·)).reverse.find? fun e => compare k e.1 = .eq with
  | some e =>
      have hfound := hmem (List.mem_reverse.mp (List.mem_of_find?_eq_some h))
      have heq := List.find?_some h
      rw [decide_eq_true_iff, compare_eq_iff'] at heq
      rw [heq, hfound, Option.map_some]
  | none =>
      rw [List.find?_eq_none] at h
      cases hk : f k with
      | none => rfl
      | some v =>
          have hin : (k, v) ∈ l.filterMap fun k => (f k).map (k, ·) :=
            List.mem_filterMap.mpr ⟨k, hl k (by simp [hk]), by simp [hk]⟩
          exact absurd (by simp [Std.ReflOrd.compare_self]) (h (k, v) (List.mem_reverse.mpr hin))

end Invariance.SortedMap

namespace Invariance.SortedSet

variable {κ : Type} [Ord κ] [Std.LawfulEqOrd κ] {k : κ} {s : SortedSet κ}

@[simp] theorem contains_iff : s.contains k ↔ k ∈ s.elements :=
  SortedMap.mem_keys_iff.symm

theorem nodup_elements (s : SortedSet κ) : s.elements.Nodup :=
  SortedMap.nodup_keys s

/-- The last element is the largest. -/
theorem le_of_getLast? {s : SortedSet Nat} {d w : Nat} (hd : s.elements.getLast? = some d) (hw : w ∈ s.elements) :
    w ≤ d := by
  have hsorted : s.elements.Pairwise (· < ·) :=
    List.pairwise_map.mpr (s.sorted.imp fun h => Nat.compare_eq_lt.mp h)
  obtain ⟨ws, heq⟩ := List.getLast?_eq_some_iff.mp hd
  rw [heq] at hsorted hw
  rcases List.mem_append.mp hw with hmem | hmem
  · exact Nat.le_of_lt ((List.pairwise_append.mp hsorted).2.2 w hmem d List.mem_cons_self)
  · exact Nat.le_of_eq (List.mem_singleton.mp hmem)

@[simp] theorem mem_elements_ofList [Std.TransOrd κ] {l : List κ} : k ∈ (ofList l).elements ↔ k ∈ l := by
  rw [elements, SortedMap.mem_keys_iff, ofList, SortedMap.get?_foldl_insert]
  cases h : l.reverse.find? fun a => compare k a = .eq with
  | some a =>
      have hmem := List.mem_of_find?_eq_some h
      have heq := List.find?_some h
      rw [decide_eq_true_iff, Std.LawfulEqOrd.compare_eq_iff_eq] at heq
      subst heq
      simpa using hmem
  | none =>
      rw [List.find?_eq_none] at h
      have hnot : k ∉ l := fun hmem => by
        have := h k (List.mem_reverse.mpr hmem)
        simp [Std.ReflOrd.compare_self] at this
      simp [hnot]

/-- Sets with the same elements are the same. -/
theorem ext_elements [Std.TransOrd κ] {t : SortedSet κ} (h : ∀ k, k ∈ s.elements ↔ k ∈ t.elements) : s = t := by
  refine SortedMap.ext_get? fun k => ?_
  have hk := h k
  rw [elements, elements, SortedMap.mem_keys_iff, SortedMap.mem_keys_iff] at hk
  cases hs : s.get? k <;> cases ht : t.get? k <;> simp_all

end Invariance.SortedSet

namespace Invariance

/-- What is true of all entries, and of a new one, is true of all entries with the new one. -/
theorem forall_getElem?_insert {κ ν : Type} [Ord κ] [Std.TransOrd κ] [Std.LawfulEqOrd κ] {t : Std.TreeMap κ ν}
    {P : κ → ν → Prop} {k : κ} {v : ν} (h : ∀ l w, t[l]? = some w → P l w) (hv : P k v) (l : κ) (w : ν)
    (hw : (t.insert k v)[l]? = some w) : P l w := by
  rw [Std.TreeMap.getElem?_insert] at hw
  split at hw
  · next heq =>
      cases hw
      rwa [← Std.LawfulEqOrd.eq_of_compare heq]
  · exact h l w hw

end Invariance
