import Invariance.Proofs.Diagram.Splits

/-!
Choices made once more. The outcome of a choice stays in the table with all the nodes that lead to it, so that making the
choice again finds every node and stores none, whatever the memo has forgotten in between. What a memo remembers are
such outcomes.
-/

namespace Invariance.Diagram

open Slots

variable {m m' : Manager} {c : Choice} {F : Choice.Form} {e r s low high : Edge} {n : Node} {i k v : Nat}

namespace Manager

/-- What joining two functions by a variable leads to, if the node for it is there. -/
inductive Joins (m : Manager) (v : Nat) (low high : Edge) : Edge → Prop
  | same (heq : low = high) : Joins m v low high low
  | plain (i : Nat) (hne : low ≠ high) (hregular : high.negated = false) (hn : m.node i = .ok ⟨v, low, high⟩) :
      Joins m v low high (.ofNode i false)
  | flipped (i : Nat) (hne : low ≠ high) (hnegated : high.negated = true)
      (hn : m.node i = .ok ⟨v, low.not, high.not⟩) : Joins m v low high (Edge.ofNode i false).not

/-- The outcome of a form, if all nodes that lead to it are there. -/
inductive Settles (m : Manager) : Choice.Form → Edge → Prop
  | settled (e : Edge) : Settles m (.settled e) e
  | split (flip : Bool) (c : Choice) {v : Nat} {c₀ c₁ : Choice} {low high r : Edge}
      (hsplit : m.split c = .ok (v, c₀, c₁)) (hlow : Settles m c₀.reduce low) (hhigh : Settles m c₁.reduce high)
      (hjoin : m.Joins v low high r) : Settles m (.split flip c) (r.flipIf flip)

/-- A table of nodes, and a memo that holds outcomes of choices. -/
structure Sound (m : Manager) : Prop where
  stored : m.Stored
  recalls : ∀ c r, .taken c r ∈ m.choices.slots → m.Settles (.split false c) r

/-- A sound manager with the nodes of another one. -/
structure Rests (m m' : Manager) : Prop where
  sound : m'.Sound
  nodes_eq : m'.nodes = m.nodes

/-! ### Outcomes -/

namespace Keeps

variable (h : m.Keeps m')

include h

theorem joins (hj : m.Joins v low high r) : m'.Joins v low high r := by
  cases hj with
  | same heq => exact .same heq
  | plain i hne hregular hn => exact .plain i hne hregular (h i _ hn)
  | flipped i hne hnegated hn => exact .flipped i hne hnegated (h i _ hn)

theorem settles (hs : m.Settles F r) : m'.Settles F r := by
  induction hs with
  | settled e => exact .settled e
  | split flip c hsplit _ _ hjoin ihl ihh => exact .split flip c (h.split_eq hsplit) ihl ihh (h.joins hjoin)

end Keeps

/-- The outcome does not depend on whether it is to be negated, but for being negated. -/
theorem Settles.flip (h : m.Settles (.split false c) r) (flip : Bool) : m.Settles (.split flip c) (r.flipIf flip) := by
  cases h with
  | split _ _ hsplit hlow hhigh hjoin => exact .split flip c hsplit hlow hhigh hjoin

namespace Stored

variable (h : m.Stored)

include h

theorem joins_unique (hr : m.Joins v low high r) (hs : m.Joins v low high s) : r = s := by
  cases hr with
  | same heq =>
      cases hs with
      | same => rfl
      | plain _ hne => exact absurd heq hne
      | flipped _ hne => exact absurd heq hne
  | plain i hne hregular hn =>
      cases hs with
      | same heq => exact absurd heq hne
      | plain j _ _ hn' => rw [h.unique i j _ hn hn']
      | flipped _ _ hnegated => exact absurd (hregular.symm.trans hnegated) Bool.false_ne_true
  | flipped i hne hnegated hn =>
      cases hs with
      | same heq => exact absurd heq hne
      | plain _ _ hregular => exact absurd (hregular.symm.trans hnegated) Bool.false_ne_true
      | flipped j _ _ hn' => rw [h.unique i j _ hn hn']

/-- A form has one outcome. -/
theorem settles_unique (hr : m.Settles F r) (hs : m.Settles F s) : r = s := by
  induction hr generalizing s with
  | settled e =>
      cases hs
      rfl
  | split flip c hsplit _ _ hjoin ihl ihh =>
      cases hs with
      | split _ _ hsplit' hlow hhigh hjoin' =>
          cases hsplit.symm.trans hsplit'
          obtain rfl := ihl hlow
          obtain rfl := ihh hhigh
          rw [h.joins_unique hjoin hjoin']

omit h in
theorem contains_of_joins (hlow : m.Contains low) (hj : m.Joins v low high r) : m.Contains r := by
  cases hj with
  | same => exact hlow
  | plain i _ _ hn => exact contains_ofNode hn
  | flipped i _ _ hn => exact contains_not.mpr (contains_ofNode hn)

theorem contains_of_settles (hF : F.Within m c) (hs : m.Settles F r) : m.Contains r := by
  induction hs generalizing c with
  | settled e => exact hF
  | split flip d hsplit _ _ hjoin ihl _ =>
      obtain ⟨hd, htest, -⟩ := hF
      obtain ⟨u, c₀, c₁, hsplits⟩ := h.exists_splits hd htest
      cases hsplit.symm.trans hsplits.split_eq
      have hlow := ihl (Choice.within_reduce h.contains_one hsplits.includes.1)
      exact contains_flipIf.mpr (contains_of_joins hlow hjoin)

end Stored

/-! ### Managers at rest -/

/-- A memo may come to hold more outcomes. -/
theorem Sound.rests (h : m.Sound) (hnodes : m'.nodes = m.nodes)
    (hslots : ∀ c r, .taken c r ∈ m'.choices.slots → .taken c r ∈ m.choices.slots ∨ m.Settles (.split false c) r) :
    m.Rests m' := by
  obtain ⟨t, x⟩ := m
  obtain ⟨t', y⟩ := m'
  obtain rfl : t' = t := hnodes
  have hkeeps : Keeps ⟨t', x⟩ ⟨t', y⟩ := fun _ _ => id
  refine ⟨⟨⟨h.stored.linked, h.stored.terminal, h.stored.findable, h.stored.older, h.stored.unique⟩, ?_⟩, rfl⟩
  intro c r hmem
  exact hkeeps.settles ((hslots c r hmem).elim (h.recalls c r) id)

theorem Sound.rests_self (h : m.Sound) : m.Rests m :=
  ⟨h, rfl⟩

namespace Rests

variable {m'' : Manager} (h : m.Rests m')

include h

theorem keeps : m.Keeps m' := by
  intro i n hn
  rw [node, h.nodes_eq]
  exact hn

theorem trans (h' : m'.Rests m'') : m.Rests m'' :=
  ⟨h'.sound, h'.nodes_eq.trans h.nodes_eq⟩

end Rests

end Manager

/-! ### Work that stores nothing -/

namespace Build

open Manager

theorem meets_intern_of_node (hm : m.Stored) (hvar : 0 < n.var) (hn : m.node i = .ok n) :
    Meets (intern n) m (fun r m' => r = .ofNode i false ∧ m' = m) fun _ _ => False := by
  have hrun : (intern n).run.run m = _ := run_intern
  rcases hm.put_cases hvar with ⟨j, hput, hj⟩ | ⟨last, hput, hends, hnew⟩
  · rw [hput] at hrun
    exact meets_of_run_ok hrun ⟨by rw [hm.unique i j n hn hj], rfl⟩
  · exact absurd hn (hnew i)

theorem meets_mkNode_of_joins (hm : m.Stored) (hv : 0 < v) (h : m.Joins v low high r) :
    Meets (mkNode v low high) m (fun a m' => a = r ∧ m' = m) fun _ _ => False := by
  rw [mkNode, if_neg hv.ne']
  cases h with
  | same heq =>
      rw [if_pos heq]
      exact ⟨rfl, rfl⟩
  | plain i hne hregular hn =>
      simp only [if_neg hne, hregular, Bool.false_eq_true, if_false]
      exact meets_intern_of_node hm hv hn
  | flipped i hne hnegated hn =>
      simp only [if_neg hne, hnegated, if_true]
      refine (meets_intern_of_node (n := ⟨v, low.not, high.not⟩) hm hv hn).bind ?_
      rintro _ _ ⟨rfl, rfl⟩
      exact ⟨rfl, rfl⟩

theorem meets_remembered_of_sound (hm : m.Sound) :
    Meets (remembered c) m (fun o m' => m.Rests m' ∧ ∀ r, o = some r → m.Settles (.split false c) r)
      fun _ _ => False := by
  obtain ⟨t, x⟩ := m
  refine ⟨hm.rests rfl fun d r hmem => .inl (Memo.slots_find (m := x) (k := c) ▸ hmem), fun r hr => ?_⟩
  exact hm.recalls c r (Memo.mem_slots_of_peek (Memo.find_fst.symm.trans hr))

theorem meets_remember_of_settles (hm : m.Sound) (hr : m.Settles (.split false c) r) :
    Meets (remember c r) m (fun _ m' => m.Rests m') fun _ _ => False := by
  obtain ⟨t, x⟩ := m
  refine hm.rests rfl fun d s hmem => ?_
  rcases Memo.mem_slots_insert hmem with hold | ⟨rfl, rfl⟩
  · exact .inl hold
  · exact .inr hr

/-- A choice whose outcome is in the table is found there, the induction being on the bound for the depth. -/
theorem meets_chooseWithin_of_settles (k : Nat) (hm : m.Sound) (hc : m.Includes c) (hk : c.depth < k)
    (h : m.Settles c.reduce r) :
    Meets (chooseWithin k c) m (fun a m' => a = r ∧ m.Rests m') fun _ _ => False := by
  induction k generalizing m c r with
  | zero => exact absurd hk (Nat.not_lt_zero _)
  | succ k ih =>
      have hwithin := Choice.within_reduce hm.stored.contains_one hc
      rw [chooseWithin]
      generalize c.reduce = F at h hwithin
      cases h with
      | settled e => exact ⟨rfl, hm.rests_self⟩
      | @split flip d v c₀ c₁ low high s hsplit hlow hhigh hjoin =>
          obtain ⟨hd, htest, hdepth⟩ := hwithin
          obtain ⟨u, _, _, hsplits⟩ := hm.stored.exists_splits hd htest
          cases hsplit.symm.trans hsplits.split_eq
          obtain ⟨hc₀, hc₁⟩ := hsplits.includes
          have hd' : m.Settles (.split false d) s := .split false d hsplit hlow hhigh hjoin
          refine (meets_remembered_of_sound (c := d) hm).bind ?_
          rintro (_ | a) m₁ ⟨h₁, ha⟩
          · -- forgotten: both halves and the node are found
            simp only [meets_bind]
            rw [meets_ask (h₁.keeps.split_eq hsplit)]
            refine (ih h₁.sound (h₁.keeps.includes hc₀) (by have := hsplits.depth.1; omega) (h₁.keeps.settles hlow)).imp ?_
            rintro _ m₂ ⟨rfl, h₂⟩
            have h₁₂ := h₁.trans h₂
            refine (ih h₂.sound (h₁₂.keeps.includes hc₁) (by have := hsplits.depth.2; omega)
              (h₁₂.keeps.settles hhigh)).imp ?_
            rintro _ m₃ ⟨rfl, h₃⟩
            have h₁₃ := h₁₂.trans h₃
            refine (meets_mkNode_of_joins h₃.sound.stored u.succ_pos (h₁₃.keeps.joins hjoin)).imp ?_
            rintro _ _ ⟨rfl, rfl⟩
            refine (meets_remember_of_settles h₃.sound (h₁₃.keeps.settles hd')).imp ?_
            exact fun _ m₄ h₄ => ⟨rfl, h₁₃.trans h₄⟩
          · rw [hm.stored.settles_unique (ha a rfl) hd']
            exact ⟨rfl, h₁⟩

end Build

end Invariance.Diagram
