import Invariance.Proofs.Diagram.Operations

/-!
What the connectives compute, and what they leave alone. On a valid manager they end with an edge that denotes the
connective of its operands, and leave a memo that is right about every choice in it. The functions below the terminal
make no difference to them: the terminal decides nothing, and nobody goes below it.
-/

namespace Invariance

/-! ### The first entry of a table -/

namespace Slots.Interning

variable {α : Type} [DecidableEq α] {t : Interning α} {u v w : α} {last i : Nat}

/-- The table with another value in its first entry. -/
def withFirst (t : Interning α) (w : α) : Interning α :=
  { t with values := t.values.setIfInBounds 0 w }

omit [DecidableEq α] in
theorem get_withFirst (hi : i ≠ 1) : (t.withFirst w).get i = t.get i := by
  cases i with
  | zero => rfl
  | succ i =>
      have hne : 0 ≠ i := by omega
      simp only [get, withFirst, Array.getElem?_setIfInBounds_ne hne]

omit [DecidableEq α] in
theorem get_one_withFirst (h : t.get 1 = .ok u) : (t.withFirst w).get 1 = .ok w := by
  obtain ⟨hlt, -⟩ := Array.getElem?_eq_some_iff.mp (get_eq_ok_iff.mp h).2
  simp [get, withFirst, Array.getElem?_setIfInBounds_self_of_lt hlt]

/-- A search passes the first entry, whatever it is, if it is not what is sought. -/
private theorem search_withFirst (h : t.get 1 = .ok u) (hu : u ≠ v) (hw : w ≠ v) :
    (t.withFirst w).search v last i = t.search v last i := by
  have hsize : (t.withFirst w).values.size = t.values.size := Array.size_setIfInBounds
  fun_induction search t v last i with
  | case1 last i hi heq =>
      have hlt : i - 1 < (t.withFirst w).values.size := by omega
      have hi' : last < i ∧ i ≤ (t.withFirst w).values.size := by omega
      have hne : 0 ≠ i - 1 := by
        intro hzero
        have hfirst := (get_eq_ok_iff.mp h).2
        rw [Nat.sub_self, Array.getElem?_eq_some_iff] at hfirst
        obtain ⟨hlt, hfirst⟩ := hfirst
        simp only [← hzero] at heq
        exact hu (hfirst.symm.trans heq)
      have hval : (t.withFirst w).values[i - 1] = v := by
        rw [← heq]
        exact Array.getElem_setIfInBounds_ne _ hne
      rw [search, dif_pos hi', if_pos hval]
  | case2 last i hi hne ih =>
      have hlt : i - 1 < (t.withFirst w).values.size := by omega
      have hi' : last < i ∧ i ≤ (t.withFirst w).values.size := by omega
      have hval : (t.withFirst w).values[i - 1] ≠ v := by
        by_cases hzero : 0 = i - 1
        · have heq : (t.withFirst w).values[i - 1] = w := by
            simp only [← hzero]
            exact Array.getElem_setIfInBounds_self _
          rw [heq]
          exact hw
        · have heq : (t.withFirst w).values[i - 1] = t.values[i - 1] := Array.getElem_setIfInBounds_ne _ hzero
          rw [heq]
          exact hne
      rw [search, dif_pos hi', if_neg hval]
      exact ih
  | case3 last i hi =>
      have hi' : ¬ (last < i ∧ i ≤ (t.withFirst w).values.size) := by omega
      rw [search, dif_neg hi']

/-- A value gets its number, whatever else the first entry is. -/
theorem put_withFirst [Coded α] (h : t.get 1 = .ok u) (hu : u ≠ v) (hw : w ≠ v) :
    (t.withFirst w).put v = ((t.put v).1, (t.put v).2.withFirst w) := by
  have hsize : (t.withFirst w).size = t.size := Array.size_setIfInBounds
  have hpos : 0 < t.values.size := le_size_of_get h
  have happend : ∀ k, (t.withFirst w).append v k = (t.append v k).withFirst w := by
    intro k
    have hpush : (t.values.setIfInBounds 0 w).push v = (t.values.push v).setIfInBounds 0 w := by
      refine Array.ext_getElem? fun i => ?_
      simp only [Array.getElem?_push, Array.getElem?_setIfInBounds, Array.size_setIfInBounds, Array.size_push]
      grind
    unfold append
    rw [hsize]
    split <;> simp only [withFirst, hpush]
  have hheads : (t.withFirst w).heads = t.heads := rfl
  rw [put_eq, put_eq, hheads, search_withFirst h hu hw, hsize]
  simp only [happend]
  cases t.search v 0 (t.heads.getD (slot v t.heads.size) 0) <;> rfl

end Slots.Interning

/-! ### Below the terminal -/

namespace Diagram

open Slots

namespace Manager

variable {m : Manager} {low high : Edge}

/-- The manager with other functions below the terminal, which decides nothing all the same. -/
def redirect (m : Manager) (low high : Edge) : Manager where
  nodes := m.nodes.withFirst ⟨0, low, high⟩
  choices := m.choices

/-- The first node is the terminal. -/
def Terminated (m : Manager) : Prop :=
  m.node 1 = .ok .terminal

section Terminated

variable (h : m.Terminated) (v : Nat) (e : Edge) (c : Choice)

include h

private theorem Terminated.var_redirect : (m.redirect low high).var e = m.var e := by
  unfold var
  by_cases hone : e.index = 1
  · have hnew : (m.redirect low high).node 1 = .ok ⟨0, low, high⟩ := Interning.get_one_withFirst h
    rw [hone, hnew, show m.node 1 = _ from h]
    rfl
  · rw [show (m.redirect low high).node e.index = m.node e.index from Interning.get_withFirst hone]

omit h in
private theorem cofactors_redirect : (m.redirect low high).cofactors v e = m.cofactors v e := by
  unfold cofactors
  split
  · rfl
  · next hconst =>
      have hone : e.index ≠ 1 := mt Edge.isConst_iff.mpr hconst
      rw [show (m.redirect low high).node e.index = m.node e.index from Interning.get_withFirst hone]

/-- A choice is split without a look below the terminal. -/
theorem Terminated.split_redirect : (m.redirect low high).split c = m.split c := by
  simp only [split, top, above, h.var_redirect, cofactors_redirect]

end Terminated

end Manager

namespace Build

variable {α β : Type} {m : Manager} {low high : Edge}

/-- The work leaves the terminal alone, and is the same whatever the functions below the terminal are. -/
def Blind (work : Build α) : Prop :=
  ∀ m : Manager, m.Terminated → (work.run.run m).2.Terminated ∧ ∀ low high,
    work.run.run (m.redirect low high) = ((work.run.run m).1, (work.run.run m).2.redirect low high)

theorem blind_pure {a : α} : Blind (pure a) :=
  fun _ h => ⟨h, fun _ _ => rfl⟩

theorem blind_throw {f : Fault} : Blind (throw f : Build α) :=
  fun _ h => ⟨h, fun _ _ => rfl⟩

theorem Blind.bind {x : Build α} {f : α → Build β} (hx : Blind x) (hf : ∀ a, Blind (f a)) : Blind (x >>= f) := by
  intro m hm
  obtain ⟨hend, hsame⟩ := hx m hm
  simp only [run_bind, hsame]
  rcases hrun : x.run.run m with ⟨r, m'⟩
  rw [hrun] at hend
  cases r with
  | error e => exact ⟨hend, fun _ _ => rfl⟩
  | ok a => exact hf a m' hend

theorem blind_ask_split (c : Choice) : Blind (ask (·.split c)) := by
  intro m hm
  refine ⟨hm, fun low high => ?_⟩
  change ((m.redirect low high).split c, m.redirect low high) = (m.split c, m.redirect low high)
  rw [hm.split_redirect]

theorem blind_remembered (c : Choice) : Blind (remembered c) := by
  intro m hm
  have hrun : ∀ nodes, (remembered c).run.run ⟨nodes, m.choices⟩ =
      (.ok (m.choices.find c).1, ⟨nodes, (m.choices.find c).2⟩) := fun _ => rfl
  rw [show m = ⟨m.nodes, m.choices⟩ from rfl, hrun]
  exact ⟨hm, fun low high => hrun _⟩

theorem blind_remember (c : Choice) (r : Edge) : Blind (remember c r) :=
  fun _ hm => ⟨hm, fun _ _ => rfl⟩

/-- A node that decides a variable is not the terminal, whatever is below that. -/
theorem blind_intern {n : Node} (hn : n.var ≠ 0) : Blind (intern n) := by
  intro m hm
  have hterminal : Node.terminal ≠ n := fun heq => hn (heq ▸ rfl)
  refine ⟨?_, fun low high => ?_⟩
  · rw [run_intern]
    change (m.nodes.put n).2.get 1 = .ok .terminal
    rw [Interning.put_eq]
    cases m.nodes.search n 0 (m.nodes.heads.getD (slot n m.nodes.heads.size) 0) with
    | found i => exact hm
    | absent last => exact Interning.get_append_of_get hm
  · have hput := Interning.put_withFirst (w := ⟨0, low, high⟩) hm hterminal fun heq => hn (heq ▸ rfl)
    rw [run_intern, run_intern]
    change (Except.ok (Edge.ofNode ((m.nodes.withFirst ⟨0, low, high⟩).put n).1 false), _) = _
    simp only [Manager.redirect, hput]

theorem compositional_blind : Compositional Blind where
  pure := blind_pure
  throw := blind_throw
  bind := Blind.bind
  intern _ := blind_intern
  split := blind_ask_split
  remembered := blind_remembered
  remember := blind_remember

/-! ### Connectives -/

variable {es : List Edge} {e f g h acc : Edge}

/-- The work ends with an edge for the function, in a valid manager that has all nodes it had and a memo that is right
about every choice in it. It is the same work whatever the functions below the terminal are. -/
def Computes (work : Build Edge) (m : Manager) (a : (Nat → Bool) → Bool) : Prop :=
  ∃ r m', work.run.run m = (.ok r, m') ∧ m'.Denotes r a ∧ m.Grows m' ∧
    (∀ c o, .taken c o ∈ m'.choices.slots → m'.Includes c ∧ m'.Denotes o fun ρ => m'.choiceValue ρ c) ∧
    ∀ low high, work.run.run (m.redirect low high) = (.ok r, m'.redirect low high)

private theorem computes_of_meets {work : Build Edge} {a : (Nat → Bool) → Bool} (hm : m.Valid)
    (h : Meets work m (fun r m' => m.Grows m' ∧ m'.Denotes r a) fun _ _ => False) (hblind : Blind work) :
    Computes work m a := by
  obtain ⟨r, m', hrun, hgrows, hr⟩ := h.exists_ok
  have hsame := (hblind m hm.tabled.terminal).2
  rw [hrun] at hsame
  exact ⟨r, m', hrun, hr, hgrows, hgrows.valid.choices, hsame⟩

/-- Once a conjunction is false, nothing more is conjoined. -/
private theorem run_andFrom_append {bs cs : List (Build Edge)} {m' : Manager} (hacc : acc ≠ .zero)
    (hrun : (andFrom acc bs).run.run m = (.ok .zero, m')) :
    (andFrom acc (bs ++ cs)).run.run m = (.ok .zero, m') := by
  induction bs generalizing acc m with
  | nil =>
      cases hrun
      exact absurd rfl hacc
  | cons b bs ih =>
      rw [List.cons_append]
      simp only [andFrom, run_bind] at hrun ⊢
      rcases hb : b.run.run m with ⟨_ | e, m₁⟩
      · rw [hb] at hrun
        cases hrun
      · rw [hb] at hrun
        dsimp only at hrun ⊢
        rcases hand : (and acc e).run.run m₁ with ⟨_ | r, m₂⟩
        · rw [hand] at hrun
          cases hrun
        · rw [hand] at hrun
          by_cases hzero : r = .zero
          · simp only [if_pos hzero] at hrun ⊢
            exact hrun
          · simp only [if_neg hzero] at hrun ⊢
            exact ih hzero hrun

/-- The choice between two functions by a third, and the connectives made of it, compute what they are named for, for
all functions of a valid manager. The conjunction of a list stops where it is false: what comes later is not looked
at, be it a function of the manager or not. -/
theorem computes_connectives (hm : m.Valid) (hf : m.Contains f) (hg : m.Contains g) (hh : m.Contains h)
    (hes : ∀ e ∈ es, m.Contains e) :
    (Computes (ite f g h) m fun ρ => if m.value ρ f then m.value ρ g else m.value ρ h) ∧
    (Computes (and f g) m fun ρ => m.value ρ f && m.value ρ g) ∧
    (Computes (or f g) m fun ρ => m.value ρ f || m.value ρ g) ∧
    (Computes (xor f g) m fun ρ => m.value ρ f ^^ m.value ρ g) ∧
    (Computes (eq f g) m fun ρ => m.value ρ f == m.value ρ g) ∧
    (Computes (imply f g) m fun ρ => !m.value ρ f || m.value ρ g) ∧
    (Computes (andMany es) m fun ρ => es.all fun e => m.value ρ e) ∧
    ((∀ ρ, (es.all fun e => m.value ρ e) = false) →
      ∀ fs, (andMany (es ++ fs)).run.run m = (andMany es).run.run m) := by
  have hf := hf.denotes
  have hg := hg.denotes
  have hall := meets_andMany hm hes
  refine ⟨?_, ?_, ?_, ?_, ?_, ?_, ?_, ?_⟩
  · exact computes_of_meets hm (meets_ite hm hf hg hh.denotes) (compositional_blind.ite f g h)
  · exact computes_of_meets hm (meets_and hm hf hg) (compositional_blind.ite f g .zero)
  · exact computes_of_meets hm (meets_or hm hf hg) (compositional_blind.ite f .one g)
  · exact computes_of_meets hm (meets_xor hm hf hg) (compositional_blind.ite f g.not g)
  · exact computes_of_meets hm (meets_eq hm hf hg) (compositional_blind.ite f g g.not)
  · exact computes_of_meets hm (meets_imply hm hf hg) (compositional_blind.ite f g .one)
  · exact computes_of_meets hm hall (compositional_blind.andMany es)
  · intro hfalse fs
    obtain ⟨r, m', hrun, hgrows, hr⟩ := hall.exists_ok
    obtain rfl : r = .zero := (hr.eq_zero_iff hgrows.valid).mpr hfalse
    rw [hrun]
    unfold andMany at hrun ⊢
    rw [List.map_append]
    exact run_andFrom_append (by decide) hrun

/-- Two variables of a new manager: a choice by the first, and a conjunction that is false before it gets to the
second. -/
theorem computes_connectives_variables : ∃ m₀ m x y, Manager.ofBits 3 = .ok m₀ ∧
    (do return (← mkVar 1, ← mkVar 2) : Build (Edge × Edge)).run.run m₀ = (.ok (x, y), m) ∧
    (Computes (ite x y x.not) m fun ρ => if m.value ρ x then m.value ρ y else m.value ρ x.not) ∧
    (andMany [x, x.not, y]).run.run m = (andMany [x, x.not]).run.run m := by
  have hvars : ∀ m₀, Manager.ofBits 3 = .ok m₀ →
      Meets (do return (← mkVar 1, ← mkVar 2) : Build (Edge × Edge)) m₀
        (fun p m => m.Valid ∧ m.Contains p.1 ∧ m.Contains p.2) fun _ _ => False := by
    intro m₀ h₀
    refine (meets_mkVar (Manager.valid_ofBits h₀) Nat.one_pos).bind fun x m₁ hx => ?_
    refine (meets_mkVar hx.1.valid Nat.two_pos).bind fun y m₂ hy => ?_
    exact ⟨hy.1.valid, hy.1.contains hx.2.contains, hy.2.contains⟩
  obtain ⟨⟨x, y⟩, m, hrun, hm, hx, hy⟩ := (hvars _ rfl).exists_ok
  have hes : ∀ e ∈ [x, x.not], m.Contains e := by simp [hx]
  obtain ⟨hite, -, -, -, -, -, -, hstops⟩ := computes_connectives hm hx hy (Manager.contains_not.mpr hx) hes
  exact ⟨_, m, x, y, rfl, hrun, hite, hstops (fun ρ => by simp [Manager.value_not hx]) [y]⟩

end Build

end Diagram

end Invariance
