import Invariance.Proofs.Computation
import Invariance.Proofs.Formula.Structure
import Mathlib.Algebra.Ring.Nat

/-!
Reading the children of a formula and rebuilding it from them list the same operands in the same order. A recursion that
rebuilds formulas from what it makes of their children therefore arrives at exactly the leaves, left to right.
-/

namespace Invariance.Formula

variable {e f : Formula}

/-! ### Children -/

/-- The formula with other children, as many as it has. -/
def withChildren : Formula → List Formula → Formula
  | .prime _, [d] => .prime d
  | .not _, [d] => .not d
  | .neg _, [d] => .neg d
  | .bit _ i, [d] => .bit d i
  | .and _, ds => .and ds
  | .or _, ds => .or ds
  | .imply _ _, [a, b] => .imply a b
  | .add _ _, [a, b] => .add a b
  | .sub _ _, [a, b] => .sub a b
  | .eq _ _, [a, b] => .eq a b
  | .lt _ _, [a, b] => .lt a b
  | .le _ _, [a, b] => .le a b
  | .ite _ _ _, [c, a, b] => .ite c a b
  | e, _ => e

/-- The same constructor with the same payload, whatever the operands are. -/
inductive SameHead : Formula → Formula → Prop where
  | bool (b) : SameHead (.bool b) (.bool b)
  | int (v) : SameHead (.int v) (.int v)
  | var (x) : SameHead (.var x) (.var x)
  | prime (a a') : SameHead (.prime a) (.prime a')
  | sym (s) : SameHead (.sym s) (.sym s)
  | not (a a') : SameHead (.not a) (.not a')
  | and (as as') : SameHead (.and as) (.and as')
  | or (as as') : SameHead (.or as) (.or as')
  | imply (a b a' b') : SameHead (.imply a b) (.imply a' b')
  | ite (c a b c' a' b') : SameHead (.ite c a b) (.ite c' a' b')
  | add (a b a' b') : SameHead (.add a b) (.add a' b')
  | sub (a b a' b') : SameHead (.sub a b) (.sub a' b')
  | neg (a a') : SameHead (.neg a) (.neg a')
  | eq (a b a' b') : SameHead (.eq a b) (.eq a' b')
  | lt (a b a' b') : SameHead (.lt a b) (.lt a' b')
  | le (a b a' b') : SameHead (.le a b) (.le a' b')
  | bit (a a') (i) : SameHead (.bit a i) (.bit a' i)

theorem SameHead.refl (e : Formula) : e.SameHead e := by
  cases e <;> constructor

theorem sameHead_withChildren (ds : List Formula) : e.SameHead (e.withChildren ds) := by
  fun_cases withChildren e ds
  case case14 => exact .refl e
  all_goals constructor

theorem children_withChildren {ds : List Formula} (h : ds.length = e.children.length) :
    (e.withChildren ds).children = ds := by
  cases e with
  | and | or => rfl
  | bool | int | var | sym => exact (List.eq_nil_of_length_eq_zero h).symm
  | prime | not | neg | bit =>
      obtain ⟨d, rfl⟩ := List.length_eq_one_iff.mp h
      rfl
  | imply | add | sub | eq | lt | le =>
      obtain ⟨a, b, rfl⟩ := List.length_eq_two.mp h
      rfl
  | ite =>
      obtain ⟨c, a, b, rfl⟩ := List.length_eq_three.mp h
      rfl

theorem withChildren_children : e.withChildren e.children = e := by
  cases e <;> rfl

section Lawful

variable {m : Type → Type} [Monad m] [LawfulMonad m]

/-- To map the children is to visit them as a list, and to put the results in their places. -/
theorem mapChildrenM_eq (g : Formula → m Formula) : e.mapChildrenM g = e.withChildren <$> e.children.mapM g := by
  cases e with
  | and | or =>
      simp only [mapChildrenM, children, bind_pure_comp]
      rfl
  | _ => simp [mapChildrenM, children, withChildren]

theorem mapChildrenM_pure : e.mapChildrenM (pure : Formula → m Formula) = pure e := by
  rw [mapChildrenM_eq, List.mapM_pure, List.map_id', map_pure, withChildren_children]

end Lawful

/-! ### Calls, one after the other -/

section Calls

variable {ε σ : Type} {g : Formula → ExceptT ε (StateM σ) Formula} {s s' : σ} {es calls : List Formula}
  {outcome : Except ε (List Formula)}

/-- A callback that can fail, called on formulas left to right from a state until it fails: the formulas it is called
on, its results or its failure, and the state it leaves. -/
inductive Sweep (g : Formula → ExceptT ε (StateM σ) Formula) :
    σ → List Formula → List Formula → Except ε (List Formula) → σ → Prop where
  | done (s : σ) : Sweep g s [] [] (.ok []) s
  | fails {s s' : σ} {e : Formula} {x : ε} (es : List Formula) (call : (g e).run.run s = (.error x, s')) :
      Sweep g s (e :: es) [e] (.error x) s'
  | goesOn {s s' s'' : σ} {e d : Formula} {es calls : List Formula} {outcome : Except ε (List Formula)}
      (call : (g e).run.run s = (.ok d, s')) (rest : Sweep g s' es calls outcome s'') :
      Sweep g s (e :: es) (e :: calls) ((d :: ·) <$> outcome) s''

theorem exists_sweep (g : Formula → ExceptT ε (StateM σ) Formula) (s : σ) (es : List Formula) :
    ∃ calls outcome s', Sweep g s es calls outcome s' := by
  induction es generalizing s with
  | nil => exact ⟨[], .ok [], s, .done s⟩
  | cons e es ih =>
      rcases hcall : (g e).run.run s with ⟨x | d, t⟩
      · exact ⟨[e], .error x, t, .fails es hcall⟩
      · obtain ⟨calls, outcome, s', rest⟩ := ih t
        exact ⟨_, _, _, .goesOn hcall rest⟩

theorem Sweep.run_mapM (h : Sweep g s es calls outcome s') : (es.mapM g).run.run s = (outcome, s') := by
  induction h with
  | done s => rfl
  | fails es call => rw [List.mapM_cons, run_bind, call]
  | @goesOn s s' s'' e d es calls outcome call rest ih =>
      rw [List.mapM_cons, run_bind, call]
      simp only [run_bind, ih]
      cases outcome <;> rfl

theorem Sweep.length_eq {ds : List Formula} (h : Sweep g s es calls (.ok ds) s') : ds.length = es.length := by
  generalize hok : Except.ok ds = outcome at h
  induction h generalizing ds with
  | done s =>
      cases hok
      rfl
  | fails es call => cases hok
  | @goesOn s s' s'' e d es calls outcome call rest ih =>
      cases outcome with
      | error x => cases hok
      | ok fs =>
          cases hok
          rw [List.length_cons, List.length_cons, ih rfl]

/-- The callback, with a record of what it is called on. -/
def recorded (g : Formula → ExceptT ε (StateM σ) Formula) (e : Formula) :
    ExceptT ε (StateM (σ × List Formula)) Formula :=
  ExceptT.mk fun (s, calls) =>
    match (g e).run.run s with
    | (r, s') => (r, s', calls ++ [e])

theorem run_recorded {r : Except ε Formula} (h : (g e).run.run s = (r, s')) (before : List Formula) :
    (recorded g e).run.run (s, before) = (r, s', before ++ [e]) := by
  change (match (g e).run.run s with | (r, s') => (r, s', before ++ [e])) = _
  rw [h]

theorem Sweep.recorded (h : Sweep g s es calls outcome s') (before : List Formula) :
    Sweep (recorded g) (s, before) es calls outcome (s', before ++ calls) := by
  induction h generalizing before with
  | done s =>
      rw [List.append_nil]
      exact .done _
  | fails es call => exact .fails es (run_recorded call before)
  | @goesOn s s' s'' e d es calls outcome call rest ih =>
      rw [List.append_cons]
      exact .goesOn (run_recorded call before) (ih _)

/-- What rebuilding gives after the calls on the children: the same constructor and payload over their results, or
their failure. -/
def Rebuilds (e : Formula) : Except ε (List Formula) → Except ε Formula → Prop
  | .ok ds, .ok f => e.SameHead f ∧ f.children = ds
  | .error x, .error y => y = x
  | _, _ => False

theorem Sweep.run_mapChildrenM (h : Sweep g s e.children calls outcome s') :
    (e.mapChildrenM g).run.run s = (e.withChildren <$> outcome, s') := by
  rw [mapChildrenM_eq, map_eq_pure_bind, run_bind, h.run_mapM]
  cases outcome <;> rfl

theorem Sweep.rebuilds (h : Sweep g s e.children calls outcome s') :
    e.Rebuilds outcome (e.withChildren <$> outcome) := by
  cases outcome with
  | error x => rfl
  | ok ds => exact ⟨sameHead_withChildren ds, children_withChildren h.length_eq⟩

end Calls

/-! ### Leaves -/

/-- Induction over the children. -/
@[elab_as_elim]
theorem inductChildren {P : Formula → Prop} (leaf : ∀ e, e.children = [] → P e)
    (node : ∀ e, e.children ≠ [] → (∀ c ∈ e.children, P c) → P e) (e : Formula) : P e := by
  have hnode : ∀ e, (∀ c ∈ e.children, P c) → P e := fun e ih =>
    if h : e.children = [] then leaf e h else node e h ih
  induction e with
  | and es ih | or es ih => exact hnode _ ih
  | _ =>
      refine hnode _ ?_
      clear hnode leaf node
      simp_all [children]

/-- The subformulas without children, left to right. -/
def leaves (e : Formula) : List Formula :=
  e.subformulas.filter (·.children.isEmpty)

theorem leaves_of_leaf (h : e.children = []) : e.leaves = [e] := by
  simp [leaves, subformulas_eq, h]

theorem leaves_of_node (h : e.children ≠ []) : e.leaves = e.children.flatMap leaves := by
  have hself : e.children.isEmpty = false := by simpa using h
  rw [leaves, subformulas_eq, List.filter_cons_of_neg (by simp [hself]), List.filter_flatMap]
  rfl

theorem leaves_prime (e : Formula) : leaves (.prime e) = e.leaves := by
  rw [leaves_of_node (e := .prime e) (List.cons_ne_nil e [])]
  exact List.append_nil _

theorem size_eq (e : Formula) : e.size = 1 + (e.children.map size).sum := by
  rw [size, subformulas_eq, List.length_cons, List.length_flatMap, Nat.add_comm]
  rfl

/-- What only leaves have is found among the leaves. -/
theorem filterMap_leaves {α : Type} {p : Formula → Option α} (h : ∀ e, e.children ≠ [] → p e = none) (e : Formula) :
    e.leaves.filterMap p = e.subformulas.filterMap p := by
  rw [leaves, List.filterMap_filter]
  refine List.filterMap_congr fun d _ => ?_
  by_cases hd : d.children = []
  · simp [hd]
  · simp [hd, h d hd]

theorem vars_eq (e : Formula) : e.vars = .ofList (e.leaves.filterMap var?) := by
  rw [vars, filterMap_leaves]
  intro d hd
  cases d <;> first | rfl | exact absurd rfl hd

theorem symbols_eq (e : Formula) : e.symbols = .ofList (e.leaves.filterMap sym?) := by
  rw [symbols, filterMap_leaves]
  intro d hd
  cases d <;> first | rfl | exact absurd rfl hd

theorem sizeOf_lt_of_mem_children {c : Formula} (h : c ∈ e.children) : sizeOf c < sizeOf e := by
  cases e with
  | and es | or es =>
      have hlt : sizeOf c < sizeOf es := List.sizeOf_lt_of_mem h
      simp only [Formula.and.sizeOf_spec, Formula.or.sizeOf_spec]
      omega
  | bool | int | var | sym => nomatch h
  | _ =>
      simp only [children, List.mem_cons, List.not_mem_nil, or_false] at h
      rcases h with rfl | rfl | rfl <;> simp <;> omega

/-- The leaves, each with the number of primes above it. The formula itself stands under `n` primes. -/
def leavesUnder (n : Nat) (e : Formula) : List (Nat × Formula) :=
  match e with
  | .prime d => leavesUnder (n + 1) d
  | e => if e.children.isEmpty then [(n, e)] else e.children.attach.flatMap fun ⟨c, _⟩ => leavesUnder n c
termination_by sizeOf e
decreasing_by
  · simp
  · exact sizeOf_lt_of_mem_children ‹_›

section LeavesUnder

variable {n : Nat}

theorem leavesUnder_prime : leavesUnder n (.prime e) = leavesUnder (n + 1) e := by
  rw [leavesUnder]

theorem leavesUnder_of_leaf (h : e.children = []) : e.leavesUnder n = [(n, e)] := by
  have hp : ∀ d, e ≠ .prime d := by
    rintro d rfl
    cases h
  rw [leavesUnder, if_pos (List.isEmpty_iff.mpr h)]
  exact fun d hd => hp d hd

theorem leavesUnder_of_node (h : e.children ≠ []) (hp : ∀ d, e ≠ .prime d) :
    e.leavesUnder n = e.children.flatMap (leavesUnder n) := by
  rw [leavesUnder, if_neg (mt List.isEmpty_iff.mp h)]
  · simp
  · exact fun d hd => hp d hd

theorem map_snd_leavesUnder (n : Nat) (e : Formula) : (e.leavesUnder n).map Prod.snd = e.leaves := by
  induction e using inductChildren generalizing n with
  | leaf e h => rw [leavesUnder_of_leaf h, leaves_of_leaf h, List.map_singleton]
  | node e h ih =>
      by_cases hp : ∃ d, e = .prime d
      · obtain ⟨d, rfl⟩ := hp
        rw [leavesUnder_prime, ih d List.mem_cons_self, leaves_prime]
      · rw [leavesUnder_of_node h (not_exists.mp hp), leaves_of_node h, List.map_flatMap]
        exact List.flatMap_congr fun c hc => ih c hc n

theorem exists_mem_leavesUnder (n : Nat) (e : Formula) : ∃ l ∈ e.leavesUnder n, n ≤ l.1 := by
  induction e using inductChildren generalizing n with
  | leaf e h => exact ⟨(n, e), by simp [leavesUnder_of_leaf h], Nat.le_refl n⟩
  | node e h ih =>
      by_cases hp : ∃ d, e = .prime d
      · obtain ⟨d, rfl⟩ := hp
        obtain ⟨l, hl, hle⟩ := ih d List.mem_cons_self (n + 1)
        exact ⟨l, leavesUnder_prime ▸ hl, Nat.le_of_succ_le hle⟩
      · obtain ⟨c, hc⟩ := List.exists_mem_of_ne_nil _ h
        obtain ⟨l, hl, hle⟩ := ih c hc n
        rw [leavesUnder_of_node h (not_exists.mp hp)]
        exact ⟨l, List.mem_flatMap.mpr ⟨c, hc, hl⟩, hle⟩

/-- Variables and primes show at the leaves: in what stands there and in the number of primes above. -/
theorem isUnindexed_iff_leavesUnder (n : Nat) (e : Formula) :
    e.isUnindexed ↔ ∃ l ∈ e.leavesUnder n, n < l.1 ∨ l.2.isStateful := by
  induction e using inductChildren generalizing n with
  | leaf e h => simp [isUnindexed, subformulas_eq, leavesUnder_of_leaf h, h]
  | node e h ih =>
      by_cases hp : ∃ d, e = .prime d
      · obtain ⟨d, rfl⟩ := hp
        obtain ⟨l, hl, hle⟩ := exists_mem_leavesUnder (n + 1) d
        rw [leavesUnder_prime]
        exact iff_of_true rfl ⟨l, hl, .inl hle⟩
      · have hp := not_exists.mp hp
        have hself : e.isStateful = false := by
          cases e with
          | var => exact absurd rfl h
          | prime d => exact absurd rfl (hp d)
          | _ => rfl
        have hany : e.isUnindexed ↔ ∃ c ∈ e.children, c.isUnindexed := by
          simp [isUnindexed, subformulas_eq e, hself]
        rw [hany, leavesUnder_of_node h hp]
        constructor
        · rintro ⟨c, hc, hu⟩
          obtain ⟨l, hl, hs⟩ := (ih c hc n).mp hu
          exact ⟨l, List.mem_flatMap.mpr ⟨c, hc, hl⟩, hs⟩
        · rintro ⟨l, hl, hs⟩
          obtain ⟨c, hc, hl⟩ := List.mem_flatMap.mp hl
          exact ⟨c, hc, (ih c hc n).mpr ⟨l, hl, hs⟩⟩

end LeavesUnder

/-! ### Recursions -/

section Recursions

variable {m : Type → Type} [Monad m] [LawfulMonad m]

/-- Recursions that rebuild a formula from what they make of its children, one for each number of primes above it. They
drop a prime or rebuild it as well; what they do with leaves is free. -/
structure Descends (F : Nat → Formula → m Formula) : Prop where
  prime : ∀ n e, F n (.prime e) = F (n + 1) e ∨ F n (.prime e) = .prime <$> F (n + 1) e
  node : ∀ n e, e.children ≠ [] → (∀ d, e ≠ .prime d) → F n e = e.mapChildrenM (F n)

theorem mapM_congr {α β : Type} {p q : α → m β} {l : List α} (h : ∀ a ∈ l, p a = q a) : l.mapM p = l.mapM q := by
  induction l with
  | nil => rfl
  | cons a l ih =>
      rw [List.mapM_cons, List.mapM_cons, h a List.mem_cons_self, ih fun b hb => h b (List.mem_cons_of_mem _ hb)]

theorem map_mapM_congr {α β γ : Type} {φ ψ : List β → γ} {p : α → m β} {l : List α}
    (h : ∀ bs, bs.length = l.length → φ bs = ψ bs) : φ <$> l.mapM p = ψ <$> l.mapM p := by
  induction l generalizing φ ψ with
  | nil => simp [h []]
  | cons a l ih =>
      simp only [List.mapM_cons, map_bind, bind_pure_comp, Functor.map_map]
      exact bind_congr fun b => ih fun bs hbs => h (b :: bs) (congrArg Nat.succ hbs)

theorem map_flatten_mapM {α β γ : Type} {p : α → m β} {q : β → List γ} (l : List α) :
    (fun bs => bs.flatMap q) <$> l.mapM p = List.flatten <$> l.mapM fun a => q <$> p a := by
  induction l with
  | nil => simp
  | cons a l ih =>
      simp only [List.mapM_cons, map_bind, bind_pure_comp, Functor.map_map, bind_map_left, List.flatMap_cons,
        List.flatten_cons]
      refine bind_congr fun b => ?_
      have hcons := congrArg (Functor.map (q b ++ ·)) ih
      simpa only [Functor.map_map] using hcons

theorem map_flatten_mapM_flatMap {α β γ : Type} {q : α → List β} {p : β → m (List γ)} (l : List α) :
    List.flatten <$> (l.flatMap q).mapM p = List.flatten <$> l.mapM fun a => List.flatten <$> (q a).mapM p := by
  induction l with
  | nil => simp
  | cons a l ih =>
      simp only [List.flatMap_cons, List.mapM_append, List.mapM_cons, map_bind, bind_pure_comp, Functor.map_map,
        bind_map_left, List.flatten_append, List.flatten_cons]
      refine bind_congr fun bs => ?_
      have happend := congrArg (Functor.map (bs.flatten ++ ·)) ih
      simpa only [Functor.map_map] using happend

/-- The leaves of the result are those of the results at the leaves, which the recursion reaches left to right. -/
theorem Descends.leaves_eq {F : Nat → Formula → m Formula} (hF : Descends F) (n : Nat) (e : Formula) :
    leaves <$> F n e = List.flatten <$> (e.leavesUnder n).mapM fun l => leaves <$> F l.1 l.2 := by
  induction e using inductChildren generalizing n with
  | leaf e h => simp [leavesUnder_of_leaf h]
  | node e h ih =>
      by_cases hp : ∃ d, e = .prime d
      · obtain ⟨d, rfl⟩ := hp
        rw [leavesUnder_prime, ← ih d List.mem_cons_self]
        rcases hF.prime n d with hdrop | hkeep
        · rw [hdrop]
        · simp only [hkeep, Functor.map_map, leaves_prime]
      · have hp := not_exists.mp hp
        calc leaves <$> F n e
            = (fun ds => (e.withChildren ds).leaves) <$> e.children.mapM (F n) := by
              rw [hF.node n e h hp, mapChildrenM_eq, Functor.map_map]
          _ = (fun ds => ds.flatMap leaves) <$> e.children.mapM (F n) := by
              refine map_mapM_congr fun ds hds => ?_
              have hnode : (e.withChildren ds).children ≠ [] := by
                rw [children_withChildren hds]
                rintro rfl
                exact h (List.eq_nil_of_length_eq_zero hds.symm)
              rw [leaves_of_node hnode, children_withChildren hds]
          _ = List.flatten <$> e.children.mapM fun c => leaves <$> F n c := map_flatten_mapM _
          _ = List.flatten <$> e.children.mapM fun c =>
                List.flatten <$> (c.leavesUnder n).mapM fun l => leaves <$> F l.1 l.2 := by
              rw [mapM_congr fun c hc => ih c hc n]
          _ = List.flatten <$> (e.leavesUnder n).mapM fun l => leaves <$> F l.1 l.2 := by
              rw [leavesUnder_of_node h hp, map_flatten_mapM_flatMap]

theorem descends_unfoldFrom (c : Clock) : Descends (unfoldFrom c) where
  prime _ _ := .inl rfl
  node n e h hp := unfoldFrom_operator (by
    cases e with
    | var | sym => exact absurd rfl h
    | prime d => exact absurd rfl (hp d)
    | _ => rfl)

theorem descends_fold (c : Clock) : Descends fun _ e => e.fold c where
  prime _ _ := .inr (by rw [fold]; rfl)
  node n e h hp := fold_operator (by
    cases e with
    | var | sym => exact absurd rfl h
    | prime d => exact absurd rfl (hp d)
    | _ => rfl)

end Recursions

/-- Reading and rebuilding children agree. Mapping the children calls a callback on exactly the children, left to right
and until it fails; it puts the results in their places, and each child in its own. The counts of a formula are those of
its children, and every recursion over rebuilt children reaches the same leaves in the same order, unfolding and folding
among them. -/
theorem children_rebuilt (e : Formula) :
    (∀ {ε σ : Type} (g : Formula → ExceptT ε (StateM σ) Formula) (s : σ), ∃ calls outcome s' result,
      Sweep g s e.children calls outcome s' ∧ (e.mapChildrenM g).run.run s = (result, s') ∧
        (e.mapChildrenM (recorded g)).run.run (s, []) = (result, s', calls) ∧ e.Rebuilds outcome result) ∧
    (∀ {m : Type → Type} [Monad m] [LawfulMonad m], e.mapChildrenM (pure : Formula → m Formula) = pure e) ∧
    e.subformulas = e :: e.children.flatMap subformulas ∧ e.size = 1 + (e.children.map size).sum ∧
    e.vars = .ofList (e.leaves.filterMap var?) ∧ e.symbols = .ofList (e.leaves.filterMap sym?) ∧
    (e.leavesUnder 0).map Prod.snd = e.leaves ∧
    (e.isUnindexed ↔ ∃ l ∈ e.leavesUnder 0, 0 < l.1 ∨ l.2.isStateful) ∧
    (∀ {m : Type → Type} [Monad m] [LawfulMonad m] (F : Nat → Formula → m Formula), Descends F → ∀ n,
      leaves <$> F n e = List.flatten <$> (e.leavesUnder n).mapM fun l => leaves <$> F l.1 l.2) ∧
    (∀ c, leaves <$> e.unfold c = List.flatten <$> (e.leavesUnder 0).mapM fun l => leaves <$> l.2.unfoldFrom c l.1) ∧
    ∀ c, leaves <$> e.fold c = List.flatten <$> e.leaves.mapM fun l => leaves <$> l.fold c := by
  refine ⟨fun {ε σ} g s => ?_, fun {m} _ _ => mapChildrenM_pure, subformulas_eq e, size_eq e, vars_eq e, symbols_eq e,
    map_snd_leavesUnder 0 e, isUnindexed_iff_leavesUnder 0 e, fun {m} _ _ F hF n => hF.leaves_eq n e,
    fun c => (descends_unfoldFrom c).leaves_eq 0 e, fun c => ?_⟩
  · obtain ⟨calls, outcome, s', hsweep⟩ := exists_sweep g s e.children
    exact ⟨calls, outcome, s', _, hsweep, hsweep.run_mapChildrenM, (hsweep.recorded []).run_mapChildrenM,
      hsweep.rebuilds⟩
  · rw [← map_snd_leavesUnder 0 e, List.mapM_map]
    exact (descends_fold c).leaves_eq 0 e

private def tally : Variable :=
  ⟨"n", .int ⟨7, by decide, by decide⟩⟩

/-- The leaves of a step, counted past its prime and unfolded. -/
theorem children_rebuilt_step :
    let e : Formula := .eq (.prime (.add (.var tally) (.int 1))) (.ite (.and []) (.var tally) (.int 0))
    Descends (unfoldFrom (.all 2)) ∧
      e.leavesUnder 0 = [(1, .var tally), (1, .int 1), (0, .and []), (0, .var tally), (0, .int 0)] ∧
      leaves <$> e.unfoldFrom (.all 2) 0 = .ok [.sym ⟨tally, 3⟩, .int 1, .and [], .sym ⟨tally, 2⟩, .int 0] := by
  intro e
  have hF := descends_unfoldFrom (.all 2)
  have hleaves : e.leavesUnder 0 = [(1, .var tally), (1, .int 1), (0, .and []), (0, .var tally), (0, .int 0)] := by
    simp [e, leavesUnder, children]
  obtain ⟨-, -, -, -, -, -, -, -, hreach, -, -⟩ := children_rebuilt e
  refine ⟨hF, hleaves, (hreach _ hF 0).trans ?_⟩
  rw [hleaves]
  rfl

end Invariance.Formula
