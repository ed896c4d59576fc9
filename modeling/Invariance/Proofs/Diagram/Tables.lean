import Invariance.Proofs.Diagram.Manager

/-!
Tables of nodes, in whatever order their variables come. A node has one number, under which it is found again, and its
children are older than it.
-/

namespace Invariance.Diagram.Manager

open Slots

variable {m : Manager} {n : Node} {e : Edge} {i last bits : Nat} {x : Memo Choice Edge} {t : Interning Node}

/-- The terminal comes first, and then come nodes that decide between older ones, each of them once. -/
structure Stored (m : Manager) : Prop where
  linked : m.nodes.Linked
  terminal : m.node 1 = .ok .terminal
  findable : ∀ i, 1 < i → i ≤ m.size → m.nodes.Findable i
  older : ∀ i n, 1 < i → m.node i = .ok n → 0 < n.var ∧ ∀ b, 0 < (n.child b).index ∧ (n.child b).index < i
  unique : ∀ i j n, m.node i = .ok n → m.node j = .ok n → i = j

theorem Tabled.stored (h : m.Tabled) : m.Stored where
  linked := h.linked
  terminal := h.terminal
  findable := h.findable
  older i n hi hn := ⟨(h.proper i n hi hn).var_pos, fun b =>
    ⟨(h.contains_of_under ((h.proper i n hi hn).child b).1).1, ((h.proper i n hi hn).child b).2⟩⟩
  unique := h.unique

namespace Stored

variable (h : m.Stored)

include h

theorem contains_one : m.Contains .one :=
  ⟨Nat.one_pos, Interning.le_size_of_get h.terminal⟩

theorem ne_one (hn : 0 < n.var) (hi : m.node i = .ok n) : i ≠ 1 := by
  rintro rfl
  cases h.terminal.symm.trans hi
  exact absurd hn (Nat.lt_irrefl 0)

/-- A node gets a new number only if there is none like it. -/
theorem put_cases (hn : 0 < n.var) :
    (∃ i, m.nodes.put n = (i, m.nodes) ∧ m.node i = .ok n) ∨
    ∃ last, m.nodes.put n = (m.size + 1, m.nodes.append n last) ∧ m.nodes.Ends n last ∧ ∀ i, m.node i ≠ .ok n := by
  rcases Interning.put_cases h.linked n with hfound | ⟨last, hput, hends, hnew⟩
  · exact .inl hfound
  · refine .inr ⟨last, hput, hends, fun i hi => ?_⟩
    have hpos := (Interning.get_eq_ok_iff.mp hi).1
    have hone := h.ne_one hn hi
    exact hnew i hpos (h.findable i (by omega) (Interning.le_size_of_get hi)) hi

/-- The table with a node more, linked to the end of a chain. -/
theorem append (hlast : m.nodes.Ends n last) (hn : 0 < n.var) (hchild : ∀ b, m.Contains (n.child b))
    (hnew : ∀ i, m.node i ≠ .ok n) : Stored ⟨m.nodes.append n last, x⟩ := by
  have hold : ∀ i k, (m.nodes.append n last).get i = .ok k → i = m.size + 1 ∧ k = n ∨ m.node i = .ok k :=
    fun _ _ => Interning.get_append_cases
  refine ⟨Interning.linked_append h.linked hlast, Interning.get_append_of_get h.terminal, fun i hi hle => ?_,
    fun i k hi hk => ?_, fun i j k hi hj => ?_⟩
  · by_cases hnewi : i = m.size + 1
    · exact hnewi ▸ Interning.findable_append_new h.linked hlast
    · refine (h.findable i hi ?_).append h.linked hlast (by omega)
      have hle : i ≤ (m.nodes.append n last).size := hle
      rw [Interning.size_append] at hle
      change i ≠ m.nodes.size + 1 at hnewi
      change i ≤ m.nodes.size
      omega
  · rcases hold i k hk with ⟨rfl, rfl⟩ | hk
    · exact ⟨hn, fun b => ⟨(hchild b).1, Nat.lt_succ_of_le (hchild b).2⟩⟩
    · exact h.older i k hi hk
  · rcases hold i k hi with ⟨rfl, rfl⟩ | hi <;> rcases hold j k hj with ⟨rfl, hjk⟩ | hj
    · rfl
    · exact absurd hj (hnew j)
    · exact absurd (hjk ▸ hi) (hnew i)
    · exact h.unique i j k hi hj

end Stored

/-- A new table holds the terminal alone. -/
theorem stored_new (ht : Interning.ofBits bits = .ok t) :
    Stored ⟨(t.add .terminal).2, x⟩ ∧ (t.add .terminal).2.values = #[.terminal] := by
  obtain ⟨hlinked, hsize⟩ := Interning.linked_ofBits ht
  have hvalues : (t.add .terminal).2.values = #[.terminal] := by
    change t.values.push .terminal = _
    rw [Array.eq_empty_of_size_eq_zero hsize]
    rfl
  have hnode : ∀ i n, (t.add .terminal).2.get i = .ok n → i = 1 ∧ n = .terminal := by
    intro i n hn
    obtain ⟨hi, hval⟩ := Interning.get_eq_ok_iff.mp hn
    rw [hvalues] at hval
    obtain ⟨hlt, hval⟩ := Array.getElem?_eq_some_iff.mp hval
    simp at hlt
    obtain rfl : i = 1 := by omega
    exact ⟨rfl, hval.symm⟩
  have hone : (t.add .terminal).2.get 1 = .ok .terminal :=
    Interning.get_eq_ok_iff.mpr ⟨Nat.one_pos, by rw [hvalues]; rfl⟩
  refine ⟨⟨Interning.linked_add hlinked, hone, fun i hi hle => ?_, fun i n hi hn => ?_, fun i j n hi hj => ?_⟩, hvalues⟩
  · have hle : i ≤ (t.add .terminal).2.values.size := hle
    rw [hvalues] at hle
    exact absurd hle (Nat.not_le.mpr hi)
  · exact absurd (hnode i n hn).1 (by omega)
  · rw [(hnode i n hi).1, (hnode j n hj).1]

end Invariance.Diagram.Manager
