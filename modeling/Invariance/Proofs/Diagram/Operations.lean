import Invariance.Proofs.Bits.Encoding
import Invariance.Proofs.Diagram.Quantifier
import Mathlib.Data.List.Sort

/-!
Managers in use. Whatever operations are performed, the nodes stay reduced, ordered and different from each other, no
edge changes its meaning, and equal functions have equal edges.
-/

namespace Invariance.Diagram

open Manager

variable {m m' : Manager} {e : Edge} {a : (Nat → Bool) → Bool} {l : Int} {ls : List Int}

/-! ### Conjunctions of literals -/

namespace Build

/-- The first literal is on the deeper variable, or on the same one. -/
private abbrev Deeper (k l : Int) : Prop :=
  l.natAbs ≤ k.natAbs

private theorem placeLiteral_eq : placeLiteral l ls = ls.orderedInsert Deeper l := by
  induction ls with
  | nil => rfl
  | cons k ks ih => rw [placeLiteral, List.orderedInsert_cons, ih]

private theorem deepestFirst_eq : deepestFirst ls = ls.insertionSort Deeper := by
  induction ls with
  | nil => rfl
  | cons l ls ih => rw [deepestFirst, List.insertionSort_cons, ih, placeLiteral_eq]

theorem deepestFirst_perm (ls : List Int) : (deepestFirst ls).Perm ls := by
  rw [deepestFirst_eq]
  exact List.perm_insertionSort _ ls

/-- No literal comes before one on a deeper variable. -/
theorem pairwise_le_deepestFirst (ls : List Int) : (deepestFirst ls).Pairwise fun k l => l.natAbs ≤ k.natAbs := by
  have htotal : Std.Total Deeper := ⟨fun k l => Nat.le_total l.natAbs k.natAbs⟩
  have htrans : IsTrans Int Deeper := ⟨fun _ _ _ h h' => Nat.le_trans h' h⟩
  rw [deepestFirst_eq]
  exact List.pairwise_insertionSort _ ls

/-- Literals on different variables come from the deepest one up. -/
theorem pairwise_deepestFirst (hls : (ls.map Int.natAbs).Nodup) :
    (deepestFirst ls).Pairwise fun k l => l.natAbs < k.natAbs := by
  have hnodup : ((deepestFirst ls).map Int.natAbs).Nodup := ((deepestFirst_perm ls).map _).nodup_iff.mpr hls
  have hne : (deepestFirst ls).Pairwise fun k l => k.natAbs ≠ l.natAbs := List.pairwise_map.mp hnodup
  exact (pairwise_le_deepestFirst ls).imp₂ (fun k l hkl hne => lt_of_le_of_ne hkl hne.symm) hne

/-- A literal on top of a function. -/
def stackLiteral (e : Edge) (l : Int) : Build Edge :=
  if l = 0 then throw .zeroVariable
  else if 0 < l then mkNode l.natAbs .zero e
  else mkNode l.natAbs e .zero

theorem cube_eq (ls : List Int) : cube ls = (deepestFirst ls).foldlM stackLiteral .one :=
  rfl

/-- A literal is put above a function of deeper variables. -/
theorem meets_stackLiteral (hm : m.Valid) (hl : l ≠ 0) (he : m.Denotes e a) (hunder : m.Under l.natAbs e) :
    Meets (stackLiteral e l) m
      (fun r m' => m.Grows m' ∧ (m'.Denotes r fun ρ => (ρ l.natAbs == decide (0 < l)) && a ρ) ∧
        ∀ v < l.natAbs, m'.Under v r) fun _ _ => False := by
  have hpos : 0 < l.natAbs := Int.natAbs_pos.mpr hl
  have hnode : Meets (stackLiteral e l) m
      (fun r m' => m.Grows m' ∧ m'.Denotes r fun ρ => (ρ l.natAbs == decide (0 < l)) && a ρ) fun _ _ => False := by
    rw [stackLiteral, if_neg hl]
    split
    · next hpositive =>
        apply (meets_mkNode hm hpos under_zero hunder).imp
        rintro r m' ⟨hgrows, hr⟩
        refine ⟨hgrows, hr.congr fun ρ => ?_⟩
        rw [he.value, hm.tabled.value_zero]
        cases ρ l.natAbs <;> simp [hpositive]
    · next hnegative =>
        apply (meets_mkNode hm hpos hunder under_zero).imp
        rintro r m' ⟨hgrows, hr⟩
        refine ⟨hgrows, hr.congr fun ρ => ?_⟩
        rw [he.value, hm.tabled.value_zero]
        cases ρ l.natAbs <;> simp [hnegative]
  apply hnode.imp
  rintro r m' ⟨hgrows, hr⟩
  refine ⟨hgrows, hr, fun v hv => hgrows.valid.tabled.under_of_independent hr.contains fun ρ ρ' hρ => ?_⟩
  have hvalue : a ρ = a ρ' := by
    rw [← he.value, ← he.value]
    exact hm.tabled.value_congr hunder fun w hw => hρ w (hv.trans hw)
  rw [hr.value, hr.value, hρ _ hv, hvalue]

private theorem meets_stackLiterals (hm : m.Valid) (hls : ls.Pairwise fun k l => l.natAbs < k.natAbs)
    (hne : ∀ l ∈ ls, l ≠ 0) (he : m.Denotes e a) (hunder : ∀ l ∈ ls, m.Under l.natAbs e) :
    Meets (ls.foldlM stackLiteral e) m
      (fun r m' => m.Grows m' ∧ m'.Denotes r fun ρ => (ls.all fun l => ρ l.natAbs == decide (0 < l)) && a ρ)
      fun _ _ => False := by
  induction ls generalizing m e a with
  | nil => exact ⟨hm.grows, he⟩
  | cons l ls ih =>
      obtain ⟨hl, hls⟩ := List.pairwise_cons.mp hls
      obtain ⟨hlne, hne⟩ := List.forall_mem_cons.mp hne
      rw [List.foldlM_cons]
      apply (meets_stackLiteral hm hlne he (hunder l List.mem_cons_self)).bind
      rintro r m₁ ⟨hg₁, hr, hroot⟩
      apply (ih hg₁.valid hls hne hr fun k hk => hroot _ (hl k hk)).imp
      rintro r' m₂ ⟨hg₂, hr'⟩
      refine ⟨hg₁.trans hg₂, hr'.congr fun ρ => ?_⟩
      rw [List.all_cons, ← Bool.and_assoc, Bool.and_comm (List.all _ _)]

/-- A conjunction of literals on different variables. -/
theorem meets_cube (hm : m.Valid) (hne : ∀ l ∈ ls, l ≠ 0) (hls : (ls.map Int.natAbs).Nodup) :
    Meets (cube ls) m
      (fun r m' => m.Grows m' ∧ m'.Denotes r fun ρ => ls.all fun l => ρ l.natAbs == decide (0 < l))
      fun _ _ => False := by
  have hperm := deepestFirst_perm ls
  rw [cube_eq]
  apply (meets_stackLiterals hm (pairwise_deepestFirst hls) (fun l hl => hne l (hperm.mem_iff.mp hl)) hm.denotes_one
    fun _ _ => under_one).imp
  rintro r m' ⟨hgrows, hr⟩
  refine ⟨hgrows, hr.congr fun ρ => ?_⟩
  rw [Bool.and_true, Bool.eq_iff_iff, List.all_eq_true, List.all_eq_true]
  exact forall_congr' fun l => by rw [hperm.mem_iff]

end Build

/-! ### Operations -/

/-- An operation on a manager. -/
inductive Operation where
  | mkVar (v : Nat)
  | mkNode (v : Nat) (low high : Edge)
  | cube (literals : List Int)
  | ite (f g h : Edge)
  | and (f g : Edge)
  | or (f g : Edge)
  | xor (f g : Edge)
  | eq (f g : Edge)
  | imply (f g : Edge)
  | andMany (fs : List Edge)
  | project (f : Edge) (vars : SortedSet Nat)
  | encode (symbols : Bits.Allocation) (e : Formula)

namespace Operation

/-- The edges lead to nodes of the manager, and variables and literals are as the operation wants them. -/
def Admissible (m : Manager) : Operation → Prop
  | mkVar v => 0 < v
  | mkNode v low high => 0 < v ∧ m.Under v low ∧ m.Under v high
  | cube literals => (∀ l ∈ literals, l ≠ 0) ∧ (literals.map Int.natAbs).Nodup
  | ite f g h => m.Contains f ∧ m.Contains g ∧ m.Contains h
  | and f g | or f g | xor f g | eq f g | imply f g => m.Contains f ∧ m.Contains g
  | andMany fs => ∀ f ∈ fs, m.Contains f
  | project f _ => m.Contains f
  | encode symbols _ => symbols.Consistent

/-- The edge that the work ends with, unless it faults, and the manager afterwards. -/
def built (work : Build Edge) (m : Manager) : Option Edge × Manager :=
  match work.run.run m with
  | (answer, m) => (answer.toOption, m)

/-- The edge made by an operation, unless it is refused, and the manager afterwards. -/
def perform (m : Manager) : Operation → Option Edge × Manager
  | mkVar v => built (Build.mkVar v) m
  | mkNode v low high => built (Build.mkNode v low high) m
  | cube literals => built (Build.cube literals) m
  | ite f g h => built (Build.ite f g h) m
  | and f g => built (Build.and f g) m
  | or f g => built (Build.or f g) m
  | xor f g => built (Build.xor f g) m
  | eq f g => built (Build.eq f g) m
  | imply f g => built (Build.imply f g) m
  | andMany fs => built (Build.andMany fs) m
  | project f vars => built (Build.project f vars) m
  | encode symbols e =>
      match (Bits.encode e).run.run ⟨m, symbols⟩ with
      | (answer, w) => (answer.toOption, w.manager)

variable {op : Operation} {r : Edge}

/-- The manager grows, and an edge that is made leads to one of its nodes. -/
private structure Sound (m : Manager) (outcome : Option Edge × Manager) : Prop where
  grows : m.Grows outcome.2
  contains : ∀ r, outcome.1 = some r → outcome.2.Contains r

private theorem sound_built {work : Build Edge}
    (h : Meets work m (fun r m' => m.Grows m' ∧ m'.Contains r) fun _ _ => False) : Sound m (built work m) := by
  obtain ⟨r, m', hrun, hgrows, hr⟩ := h.exists_ok
  rw [built, hrun]
  exact ⟨hgrows, fun _ heq => Option.some.inj heq ▸ hr⟩

private theorem sound_of_denotes {work : Build Edge}
    (h : Meets work m (fun r m' => m.Grows m' ∧ m'.Denotes r a) fun _ _ => False) : Sound m (built work m) :=
  sound_built (h.imp fun _ _ hr => ⟨hr.1, hr.2.contains⟩)

private theorem sound_encode {symbols : Bits.Allocation} {f : Formula} (hm : m.Valid) (hs : symbols.Consistent) :
    Sound m ((encode symbols f).perform m) := by
  have hmeets := Bits.meets_encode (e := f) (w := ⟨m, symbols⟩) ⟨hm, hs⟩
  unfold Meets at hmeets
  rw [perform]
  rcases hrun : (Bits.encode f).run.run ⟨m, symbols⟩ with ⟨_ | r, w⟩ <;> rw [hrun] at hmeets
  · exact ⟨hmeets.1.manager, nofun⟩
  · exact ⟨hmeets.1.manager, fun _ heq => Option.some.inj heq ▸ hmeets.2.within⟩

/-- The one step of any use of a manager. -/
private theorem sound_perform (hm : m.Valid) (hop : op.Admissible m) : Sound m (op.perform m) := by
  cases op with
  | mkVar v => exact sound_of_denotes (Build.meets_mkVar hm hop)
  | mkNode v low high => exact sound_of_denotes (Build.meets_mkNode hm hop.1 hop.2.1 hop.2.2)
  | cube literals => exact sound_of_denotes (Build.meets_cube hm hop.1 hop.2)
  | ite f g h => exact sound_of_denotes (Build.meets_ite hm hop.1.denotes hop.2.1.denotes hop.2.2.denotes)
  | and f g => exact sound_of_denotes (Build.meets_and hm hop.1.denotes hop.2.denotes)
  | or f g => exact sound_of_denotes (Build.meets_or hm hop.1.denotes hop.2.denotes)
  | xor f g => exact sound_of_denotes (Build.meets_xor hm hop.1.denotes hop.2.denotes)
  | eq f g => exact sound_of_denotes (Build.meets_eq hm hop.1.denotes hop.2.denotes)
  | imply f g => exact sound_of_denotes (Build.meets_imply hm hop.1.denotes hop.2.denotes)
  | andMany fs => exact sound_of_denotes (Build.meets_andMany hm hop)
  | project f vars => exact sound_built ((Build.meets_project hm hop).imp fun _ _ hr => ⟨hr.1, hr.2.contains⟩)
  | encode symbols f => exact sound_encode hm hop

end Operation

/-! ### Managers in use -/

namespace Manager

/-- Operations lead from one manager to the other. -/
inductive Leads (m : Manager) : Manager → Prop
  | refl : Leads m m
  | step {m' : Manager} (op : Operation) (h : Leads m m') (hop : op.Admissible m') : Leads m (op.perform m').2

theorem Leads.grows (h : m.Leads m') (hm : m.Valid) : m.Grows m' := by
  induction h with
  | refl => exact hm.grows
  | step op _ hop ih => exact ih.trans (Operation.sound_perform ih.valid hop).grows

/-- The nodes above the terminal decide between two functions of deeper variables that were there before, and are not
negated where the variable is true; none of them is there twice, and equal functions have equal edges. -/
structure Canonical (m : Manager) : Prop where
  reduced : ∀ i n, 1 < i → m.node i = .ok n → n.low ≠ n.high ∧ n.high.negated = false
  ordered : ∀ i n, 1 < i → m.node i = .ok n → ∀ b, (n.child b).index < i ∧ m.Under n.var (n.child b)
  unique : ∀ i j n, m.node i = .ok n → m.node j = .ok n → i = j
  eq_iff : ∀ e f, m.Contains e → m.Contains f → (e = f ↔ ∀ ρ, m.value ρ e = m.value ρ f)
  eq_zero_iff : ∀ e, m.Contains e → (e = .zero ↔ ∀ ρ, m.value ρ e = false)

theorem Valid.canonical (hm : m.Valid) : m.Canonical where
  reduced i n hi hn := ⟨(hm.tabled.proper i n hi hn).ne, (hm.tabled.proper i n hi hn).regular⟩
  ordered i n hi hn b := ((hm.tabled.proper i n hi hn).child b).symm
  unique := hm.tabled.unique
  eq_iff _ _ he hf := ⟨fun heq _ => heq ▸ rfl, hm.tabled.eq_of_value_eq he hf⟩
  eq_zero_iff _ he := he.denotes.eq_zero_iff hm

/-- A manager that operations lead to from a new one is canonical, and all that it holds stays as it is under any further
operations. -/
theorem canonical_of_leads {bits : Nat} {m₀ : Manager} (h₀ : ofBits bits = .ok m₀) (h : m₀.Leads m) (h' : m.Leads m') :
    m.Canonical ∧ m.Keeps m' ∧ ∀ e, m.Contains e → ∀ ρ, m'.value ρ e = m.value ρ e := by
  have hm : m.Valid := (h.grows (valid_ofBits h₀)).valid
  have hgrows := h'.grows hm
  exact ⟨hm.canonical, hgrows.keeps, fun _ he _ => hgrows.value hm he⟩

/-- A variable, a conjunction of literals, and the encoding of a symbol by the first variable. -/
theorem canonical_of_leads_three : ∃ m₀, ofBits 3 = .ok m₀ ∧ ∃ m, m₀.Leads m ∧ m.Canonical := by
  have hleads : ∀ m₀, ofBits 3 = .ok m₀ → ∃ m, m₀.Leads m ∧ m.Canonical := by
    intro m₀ h₀
    have h₁ : m₀.Leads _ := .step (.mkVar 2) .refl (show 0 < 2 by decide)
    have h₂ : m₀.Leads _ := h₁.step (.cube [-2, 1]) ⟨by decide, by decide⟩
    have h₃ : m₀.Leads _ := h₂.step (.encode .empty (.sym ⟨⟨"x", .bool⟩, 0⟩)) Bits.Allocation.consistent_empty
    exact ⟨_, h₃, (canonical_of_leads h₀ h₃ .refl).1⟩
  exact ⟨_, rfl, hleads _ rfl⟩

end Manager

end Invariance.Diagram
