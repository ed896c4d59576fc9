import Invariance.Proofs.Computation
import Invariance.Proofs.Diagram.Tables

/-!
Work on a valid manager. It leads to a valid manager with more nodes, in which all earlier edges keep their values,
and never faults. What an operation makes is said by the function that the edge denotes.
-/

namespace Invariance.Diagram

open Slots

namespace Manager

variable {m m' m'' : Manager} {ρ : Nat → Bool} {e f : Edge} {n : Node} {i v : Nat} {a b : (Nat → Bool) → Bool}

/-- The value of a choice between functions. -/
def choiceValue (m : Manager) (ρ : Nat → Bool) (c : Choice) : Bool :=
  if m.value ρ c.test then m.value ρ c.yes else m.value ρ c.no

/-- The edge stands for the function. -/
structure Denotes (m : Manager) (e : Edge) (a : (Nat → Bool) → Bool) : Prop where
  contains : m.Contains e
  value : ∀ ρ, m.value ρ e = a ρ

/-- All three functions of the choice are in the manager. -/
structure Includes (m : Manager) (c : Choice) : Prop where
  test : m.Contains c.test
  yes : m.Contains c.yes
  no : m.Contains c.no

/-- A manager with a proper table, whose memo holds outcomes of choices. -/
structure Valid (m : Manager) : Prop where
  tabled : m.Tabled
  choices : ∀ c r, .taken c r ∈ m.choices.slots → m.Includes c ∧ m.Denotes r fun ρ => m.choiceValue ρ c

/-- All nodes stay. -/
def Keeps (m m' : Manager) : Prop :=
  ∀ i n, m.node i = .ok n → m'.node i = .ok n

/-- A valid manager that has all nodes of another one. -/
structure Grows (m m' : Manager) : Prop where
  valid : m'.Valid
  keeps : m.Keeps m'

namespace Keeps

theorem trans (h : m.Keeps m') (h' : m'.Keeps m'') : m.Keeps m'' :=
  fun i n hn => h' i n (h i n hn)

theorem contains (h : m.Keeps m') (he : m.Contains e) : m'.Contains e := by
  obtain ⟨n, hn⟩ := he.exists_node
  exact contains_of_node (h _ n hn)

theorem includes {c : Choice} (h : m.Keeps m') (hc : m.Includes c) : m'.Includes c :=
  ⟨h.contains hc.test, h.contains hc.yes, h.contains hc.no⟩

theorem var_eq (h : m.Keeps m') (hv : m.var e = .ok v) : m'.var e = .ok v :=
  bind_mono (h e.index) (fun _ => id) hv

theorem low_eq (h : m.Keeps m') (hf : m.low e = .ok f) : m'.low e = .ok f :=
  bind_mono (h e.index) (fun _ => id) hf

theorem high_eq (h : m.Keeps m') (hf : m.high e = .ok f) : m'.high e = .ok f :=
  bind_mono (h e.index) (fun _ => id) hf

theorem under (h : m.Keeps m') (he : m.Under v e) : m'.Under v e :=
  he.imp_right fun ⟨n, hn, hv⟩ => ⟨n, h _ n hn, hv⟩

theorem proper (h : m.Keeps m') (hp : m.Proper i n) : m'.Proper i n :=
  ⟨hp.var_pos, hp.ne, hp.regular, ⟨h.under hp.low.1, hp.low.2⟩, ⟨h.under hp.high.1, hp.high.2⟩⟩

theorem value (h : m.Keeps m') (hm : m.Tabled) (hm' : m'.Tabled) (he : m.Contains e) :
    m'.value ρ e = m.value ρ e := by
  induction e, he using hm.induction with
  | const e _ hconst => rcases hconst with rfl | rfl <;> simp [hm.value_one, hm'.value_one, hm.value_zero, hm'.value_zero]
  | node e _ n hone hn hp ihl ihh =>
      rw [hm.value_of_node hone hn, hm'.value_of_node hone (h _ n hn), ihl (hm.contains_of_under hp.low.1),
        ihh (hm.contains_of_under hp.high.1)]

end Keeps

theorem Valid.grows (h : m.Valid) : m.Grows m :=
  ⟨h, fun _ _ => id⟩

theorem Grows.trans (h : m.Grows m') (h' : m'.Grows m'') : m.Grows m'' :=
  ⟨h'.valid, h.keeps.trans h'.keeps⟩

section Grows

variable (hm : m.Valid) (h : m.Grows m')

include h

theorem Grows.contains (he : m.Contains e) : m'.Contains e :=
  h.keeps.contains he

theorem Grows.includes {c : Choice} (hc : m.Includes c) : m'.Includes c :=
  h.keeps.includes hc

include hm

theorem Grows.value (he : m.Contains e) : m'.value ρ e = m.value ρ e :=
  h.keeps.value hm.tabled h.valid.tabled he

theorem Grows.denotes (he : m.Denotes e a) : m'.Denotes e a :=
  ⟨h.contains he.contains, fun ρ => (h.value hm he.contains).trans (he.value ρ)⟩

theorem Grows.choiceValue {c : Choice} (hc : m.Includes c) : m'.choiceValue ρ c = m.choiceValue ρ c := by
  rw [Manager.choiceValue, h.value hm hc.test, h.value hm hc.yes, h.value hm hc.no, Manager.choiceValue]

end Grows

theorem Contains.denotes (he : m.Contains e) : m.Denotes e fun ρ => m.value ρ e :=
  ⟨he, fun _ => rfl⟩

theorem Denotes.not (h : m.Denotes e a) : m.Denotes e.not fun ρ => !a ρ :=
  ⟨contains_not.mpr h.contains, fun ρ => by rw [value_not h.contains, h.value]⟩

theorem Denotes.flipIf {t : Bool} (h : m.Denotes e a) : m.Denotes (e.flipIf t) fun ρ => t ^^ a ρ :=
  ⟨contains_flipIf.mpr h.contains, fun ρ => by rw [value_flipIf h.contains, h.value]⟩

theorem Denotes.congr (h : m.Denotes e a) (hab : ∀ ρ, a ρ = b ρ) : m.Denotes e b :=
  ⟨h.contains, fun ρ => (h.value ρ).trans (hab ρ)⟩

theorem Valid.denotes_one (hm : m.Valid) : m.Denotes .one fun _ => true :=
  ⟨hm.tabled.contains_one, fun _ => hm.tabled.value_one⟩

theorem Valid.denotes_zero (hm : m.Valid) : m.Denotes .zero fun _ => false :=
  ⟨hm.tabled.contains_zero, fun _ => hm.tabled.value_zero⟩

/-- An edge is determined by what it denotes. -/
theorem Denotes.eq (hm : m.Valid) (he : m.Denotes e a) (hf : m.Denotes f a) : e = f :=
  hm.tabled.eq_of_value_eq he.contains hf.contains fun ρ => (he.value ρ).trans (hf.value ρ).symm

theorem Denotes.eq_zero_iff (hm : m.Valid) (he : m.Denotes e a) : e = .zero ↔ ∀ ρ, a ρ = false := by
  constructor
  · rintro rfl ρ
    rw [← he.value ρ, hm.tabled.value_zero]
  · exact fun h => he.eq hm (hm.denotes_zero.congr fun ρ => (h ρ).symm)

/-! ### Decisions -/

/-- The edge decides the variable `v` between two functions. -/
structure Decides (m : Manager) (e : Edge) (v : Nat) (low high : Edge) : Prop where
  var_eq : m.var e = .ok v
  low_eq : m.low e = .ok low
  high_eq : m.high e = .ok high
  pos : 0 < v
  root : m.Under (v - 1) e
  under : m.Under v low ∧ m.Under v high
  index : low.index < e.index ∧ high.index < e.index
  ne : low ≠ high
  value : ∀ ρ, m.value ρ e = if ρ v then m.value ρ high else m.value ρ low

theorem exists_decides (hm : m.Valid) (he : m.Contains e) (hone : e.index ≠ 1) :
    ∃ v low high, m.Decides e v low high ∧ ∃ n, m.node e.index = .ok n ∧ n.var = v ∧ n.low.index = low.index ∧
      n.high.index = high.index := by
  obtain ⟨n, hn⟩ := he.exists_node
  have hp := hm.tabled.proper _ n (by have := he.1; omega) hn
  have hl := hm.tabled.contains_of_under hp.low.1
  have hh := hm.tabled.contains_of_under hp.high.1
  have hpos := hp.var_pos
  refine ⟨n.var, n.low.flipIf e.negated, n.high.flipIf e.negated, ?_, n, hn, rfl, by simp, by simp⟩
  refine ⟨var_of_node hn, low_of_node hn, high_of_node hn, hpos, .inr ⟨n, hn, by omega⟩,
    ⟨under_flipIf.mpr hp.low.1, under_flipIf.mpr hp.high.1⟩, ⟨by simpa using hp.low.2, by simpa using hp.high.2⟩,
    fun heq => hp.ne ?_, fun ρ => ?_⟩
  · refine hm.tabled.eq_of_value_eq hl hh fun ρ => ?_
    have hvalue := congrArg (m.value ρ) heq
    rw [value_flipIf hl, value_flipIf hh] at hvalue
    simpa using hvalue
  · rw [hm.tabled.value_of_node hone hn, value_flipIf hl, value_flipIf hh]
    split <;> rfl

/-- A node decides between its children. -/
theorem decides_of_node (hm : m.Valid) (hn : m.node i = .ok n) (hi : i ≠ 1) :
    m.Decides (.ofNode i false) n.var n.low n.high := by
  have hn' : m.node (Edge.ofNode i false).index = .ok n := by rwa [Edge.index_ofNode]
  obtain ⟨v, low, high, hdec, n', hn'', rfl, -⟩ := exists_decides hm (contains_of_node hn') (by simpa using hi)
  cases hn'.symm.trans hn''
  have hlow := hdec.low_eq
  have hhigh := hdec.high_eq
  rw [Manager.low, hn', Edge.negated_ofNode] at hlow
  rw [Manager.high, hn', Edge.negated_ofNode] at hhigh
  cases hlow
  cases hhigh
  exact hdec

section Decides

variable {low high : Edge}

theorem Decides.contains (hm : m.Valid) (h : m.Decides e v low high) : m.Contains low ∧ m.Contains high :=
  ⟨hm.tabled.contains_of_under h.under.1, hm.tabled.contains_of_under h.under.2⟩

theorem Decides.grows (hm : m.Valid) (h : m.Decides e v low high) (hg : m.Grows m') : m'.Decides e v low high where
  var_eq := hg.keeps.var_eq h.var_eq
  low_eq := hg.keeps.low_eq h.low_eq
  high_eq := hg.keeps.high_eq h.high_eq
  pos := h.pos
  root := hg.keeps.under h.root
  under := h.under.imp hg.keeps.under hg.keeps.under
  index := h.index
  ne := h.ne
  value ρ := by
    have hc := h.contains hm
    rw [hg.value hm (hm.tabled.contains_of_under h.root), hg.value hm hc.1, hg.value hm hc.2, h.value]

/-- The variable decides between two different functions of the variables below it. -/
theorem Decides.exists_value_ne (hm : m.Valid) (h : m.Decides e v low high) :
    ∃ ρ, m.value (Function.update ρ v false) e ≠ m.value (Function.update ρ v true) e := by
  by_contra hall
  simp only [ne_eq, not_exists, not_not] at hall
  have hc := h.contains hm
  refine h.ne (hm.tabled.eq_of_value_eq hc.1 hc.2 fun ρ => ?_)
  have hcongr : ∀ b f, m.Under v f → m.value (Function.update ρ v b) f = m.value ρ f :=
    fun b f hf => hm.tabled.value_congr hf fun w hw => Function.update_of_ne (by omega) _ _
  have hρ := hall ρ
  simp only [h.value, Function.update_self, hcongr _ _ h.under.1, hcongr _ _ h.under.2] at hρ
  simpa using hρ

end Decides

end Manager

/-! ### Making nodes -/

namespace Build

open Manager

variable {α : Type} {m : Manager} {Q : α → Manager → Prop} {E : Fault → Manager → Prop} {n : Node} {v : Nat}
variable {low high e : Edge}

theorem meets_ask {question : Manager → Except Fault α} {x : α} (h : question m = .ok x) :
    Meets (ask question) m Q E ↔ Q x m := by
  have hrun : (ask question).run.run m = (question m, m) := rfl
  unfold Meets
  rw [hrun, h]

/-- The manager with a node more, linked to the end of a chain. -/
private theorem grows_append {last : Nat} (hm : m.Valid) (hlast : m.nodes.Ends n last) (hp : m.Proper (m.size + 1) n)
    (hnew : ∀ i, m.node i ≠ .ok n) : m.Grows ⟨m.nodes.append n last, m.choices⟩ := by
  obtain ⟨ht, hc⟩ := hm
  have hkeeps : m.Keeps ⟨m.nodes.append n last, m.choices⟩ :=
    fun i k h => Interning.get_append_of_get (t := m.nodes) h
  have hstored : Stored ⟨m.nodes.append n last, m.choices⟩ :=
    ht.stored.append hlast hp.var_pos (fun b => ht.contains_of_under (hp.child b).1) hnew
  have ht' : Tabled ⟨m.nodes.append n last, m.choices⟩ := {
    linked := hstored.linked
    terminal := hstored.terminal
    findable := hstored.findable
    proper := fun i k hi hk => by
      rcases Interning.get_append_cases hk with ⟨rfl, rfl⟩ | hk
      · exact hkeeps.proper hp
      · exact hkeeps.proper (ht.proper i k hi hk)
    unique := hstored.unique }
  refine ⟨⟨ht', fun c r hmem => ?_⟩, hkeeps⟩
  obtain ⟨hin, hr⟩ := hc c r hmem
  have hvalue : ∀ {ρ e}, m.Contains e → Manager.value ⟨m.nodes.append n last, m.choices⟩ ρ e = m.value ρ e :=
    fun he => hkeeps.value ht ht' he
  refine ⟨hkeeps.includes hin, hkeeps.contains hr.contains, ?_⟩
  intro ρ
  rw [hvalue hr.contains, hr.value, choiceValue, choiceValue, hvalue hin.test, hvalue hin.yes, hvalue hin.no]

theorem run_intern : (intern n).run.run m = (.ok (.ofNode (m.nodes.put n).1 false), ⟨(m.nodes.put n).2, m.choices⟩) :=
  rfl

theorem meets_intern (hm : m.Valid) (hvar : 0 < n.var) (hne : n.low ≠ n.high) (hreg : n.high.negated = false)
    (hl : m.Under n.var n.low) (hh : m.Under n.var n.high) :
    Meets (intern n) m (fun r m' => m.Grows m' ∧
      m'.Denotes r fun ρ => if ρ n.var then m.value ρ n.high else m.value ρ n.low) fun _ _ => False := by
  have hp : m.Proper (m.size + 1) n :=
    ⟨hvar, hne, hreg, ⟨hl, Nat.lt_succ_of_le (hm.tabled.contains_of_under hl).2⟩,
      ⟨hh, Nat.lt_succ_of_le (hm.tabled.contains_of_under hh).2⟩⟩
  have hvalue : ∀ {m' : Manager} {i : Nat}, m.Grows m' → m'.node i = .ok n →
      m'.Denotes (.ofNode i false) fun ρ => if ρ n.var then m.value ρ n.high else m.value ρ n.low := by
    intro m' i hgrows hn
    have hn' : m'.node (Edge.ofNode i false).index = .ok n := by rwa [Edge.index_ofNode]
    refine ⟨contains_of_node hn', fun ρ => ?_⟩
    have hone : (Edge.ofNode i false).index ≠ 1 := by
      intro hone
      rw [hone, hgrows.valid.tabled.terminal] at hn'
      cases hn'
      exact absurd hvar (Nat.lt_irrefl 0)
    rw [hgrows.valid.tabled.value_of_node hone hn', hgrows.value hm (hm.tabled.contains_of_under hh),
      hgrows.value hm (hm.tabled.contains_of_under hl), Edge.negated_ofNode, Bool.false_xor]
  have hrun : (intern n).run.run m = _ := run_intern
  rcases hm.tabled.stored.put_cases hvar with ⟨i, hput, hget⟩ | ⟨last, hput, hends, hnew⟩
  · rw [hput] at hrun
    exact meets_of_run_ok hrun ⟨hm.grows, hvalue hm.grows hget⟩
  · rw [hput] at hrun
    have hgrows := grows_append hm hends hp hnew
    exact meets_of_run_ok hrun ⟨hgrows, hvalue hgrows Interning.get_append_new⟩

/-- A node is made for the function that is `high` where `v` is true and `low` elsewhere. -/
theorem meets_mkNode (hm : m.Valid) (hv : 0 < v) (hl : m.Under v low) (hh : m.Under v high) :
    Meets (mkNode v low high) m (fun r m' => m.Grows m' ∧
      m'.Denotes r fun ρ => if ρ v then m.value ρ high else m.value ρ low) fun _ _ => False := by
  have hcl := hm.tabled.contains_of_under hl
  have hch := hm.tabled.contains_of_under hh
  rw [mkNode, if_neg hv.ne']
  by_cases heq : low = high
  · subst heq
    rw [if_pos rfl]
    exact ⟨hm.grows, hcl, fun ρ => by split <;> rfl⟩
  · simp only [heq, ite_false]
    by_cases hneg : high.negated = true
    · rw [if_pos hneg]
      have hne : low.not ≠ high.not := fun h => heq <| by
        rw [← Edge.not_not hcl.1, h, Edge.not_not hch.1]
      have hreg : high.not.negated = false := by rw [Edge.negated_not hch.1, hneg]; rfl
      refine (meets_intern (n := ⟨v, low.not, high.not⟩) hm hv hne hreg (under_not.mpr hl) (under_not.mpr hh)).bind ?_
      rintro r m' ⟨hgrows, hr⟩
      refine ⟨hgrows, hr.not.congr fun ρ => ?_⟩
      rw [value_not hcl, value_not hch]
      split <;> simp
    · rw [if_neg hneg]
      exact meets_intern (n := ⟨v, low, high⟩) hm hv heq (by simpa using hneg) hl hh

theorem meets_mkVar (hm : m.Valid) (hv : 0 < v) :
    Meets (mkVar v) m (fun r m' => m.Grows m' ∧ m'.Denotes r fun ρ => ρ v) fun _ _ => False := by
  refine (meets_mkNode hm hv under_zero under_one).imp ?_
  rintro r m' ⟨hgrows, hr⟩
  refine ⟨hgrows, hr.congr fun ρ => ?_⟩
  rw [hm.tabled.value_one, hm.tabled.value_zero]
  cases ρ v <;> rfl

/-- Work on two variables. -/
theorem meets_ofVars {f : Edge → Edge → Build α} {u : Nat} (hm : m.Valid) (hu : 0 < u) (hv : 0 < v)
    (hf : ∀ m' x y, m.Grows m' → m'.Denotes x (fun ρ => ρ u) → m'.Denotes y (fun ρ => ρ v) → Meets (f x y) m' Q E) :
    Meets (do f (← mkVar u) (← mkVar v)) m Q E := by
  refine ((meets_mkVar hm hu).mono (fun _ _ => id) fun _ _ => False.elim).bind fun x m₁ hx => ?_
  refine ((meets_mkVar hx.1.valid hv).mono (fun _ _ => id) fun _ _ => False.elim).bind fun y m₂ hy => ?_
  exact hf m₂ x y (hx.1.trans hy.1) (hy.1.denotes hx.1.valid hx.2) hy.2

end Build

/-! ### New managers -/

theorem Manager.valid_ofBits {bits : Nat} {m : Manager} (h : Manager.ofBits bits = .ok m) : m.Valid := by
  rw [ofBits] at h
  cases ht : Interning.ofBits (α := Node) bits with
  | error => simp [ht, bind, Except.bind] at h
  | ok t =>
      cases hc : Memo.ofBits (κ := Choice) (ν := Edge) (min bits 16) with
      | error => simp [ht, hc, bind, Except.bind] at h
      | ok choices =>
          simp only [ht, hc, bind, Except.bind, pure, Except.pure, Except.ok.injEq] at h
          subst h
          obtain ⟨hstored, hvalues⟩ := stored_new (x := choices) ht
          refine ⟨⟨hstored.linked, hstored.terminal, hstored.findable, fun i n hi hn => ?_, hstored.unique⟩, ?_⟩
          · have hle : i ≤ (t.add .terminal).2.values.size := Interning.le_size_of_get hn
            rw [hvalues] at hle
            exact absurd hle (Nat.not_le.mpr hi)
          · exact fun c r hmem => absurd hmem (Memo.slots_ofBits hc)

end Invariance.Diagram
