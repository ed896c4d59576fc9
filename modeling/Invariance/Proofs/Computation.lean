/-!
Contracts of stateful computations. A computation started in a state either ends with a result, or stops for a
reason; a contract says which results and which reasons are possible, and in which states they come about.
-/

namespace Invariance

/-- Two questions asked one after the other, whose answers are found elsewhere too. -/
theorem bind_mono {ε α β : Type} {x y : Except ε α} {f g : α → Except ε β} {b : β} (hxy : ∀ a, x = .ok a → y = .ok a)
    (hfg : ∀ a, f a = .ok b → g a = .ok b) (h : (x >>= f) = .ok b) : (y >>= g) = .ok b := by
  cases hx : x with
  | error => simp [hx, bind, Except.bind] at h
  | ok a =>
      rw [hx] at h
      rw [hxy a hx]
      exact hfg a h

/-- Started in `s`, the computation ends as `Q` says, or stops as `E` says. -/
def Meets {ε σ α : Type} (x : ExceptT ε (StateM σ) α) (s : σ) (Q : α → σ → Prop)
    (E : ε → σ → Prop) : Prop :=
  match x.run.run s with
  | (.ok a, t) => Q a t
  | (.error e, t) => E e t

variable {ε σ α β : Type} {s : σ} {Q : α → σ → Prop} {E : ε → σ → Prop}

instance {x : ExceptT ε (StateM σ) α} [∀ a t, Decidable (Q a t)] [∀ e t, Decidable (E e t)] :
    Decidable (Meets x s Q E) :=
  match h : x.run.run s with
  | (.ok a, t) => decidable_of_iff (Q a t) (by rw [Meets, h])
  | (.error e, t) => decidable_of_iff (E e t) (by rw [Meets, h])

theorem Meets.mono {x : ExceptT ε (StateM σ) α} {Q' : α → σ → Prop} {E' : ε → σ → Prop}
    (h : Meets x s Q E) (hQ : ∀ a t, Q a t → Q' a t) (hE : ∀ e t, E e t → E' e t) :
    Meets x s Q' E' := by
  unfold Meets at *
  split
  · next a t hx =>
      rw [hx] at h
      exact hQ a t h
  · next e t hx =>
      rw [hx] at h
      exact hE e t h

/-- A contract with fewer results, the reasons to stop being the same. -/
theorem Meets.imp {x : ExceptT ε (StateM σ) α} {Q' : α → σ → Prop} (h : Meets x s Q E)
    (hQ : ∀ a t, Q a t → Q' a t) : Meets x s Q' E :=
  h.mono hQ fun _ _ => id

theorem Meets.and {x : ExceptT ε (StateM σ) α} {Q' : α → σ → Prop} {E' : ε → σ → Prop}
    (h : Meets x s Q E) (h' : Meets x s Q' E') :
    Meets x s (fun a t => Q a t ∧ Q' a t) (fun e t => E e t ∧ E' e t) := by
  unfold Meets at *
  split
  · next a t hx =>
      rw [hx] at h h'
      exact ⟨h, h'⟩
  · next e t hx =>
      rw [hx] at h h'
      exact ⟨h, h'⟩

theorem Meets.of_run_ok {x : ExceptT ε (StateM σ) α} {a : α} {t : σ}
    (h : Meets x s Q E) (hx : x.run.run s = (.ok a, t)) : Q a t := by
  unfold Meets at h
  rwa [hx] at h

theorem Meets.of_run_error {x : ExceptT ε (StateM σ) α} {e : ε} {t : σ}
    (h : Meets x s Q E) (hx : x.run.run s = (.error e, t)) : E e t := by
  unfold Meets at h
  rwa [hx] at h

theorem meets_of_run_ok {x : ExceptT ε (StateM σ) α} {a : α} {t : σ}
    (hx : x.run.run s = (.ok a, t)) (h : Q a t) : Meets x s Q E := by
  unfold Meets
  rwa [hx]

theorem meets_of_run_error {x : ExceptT ε (StateM σ) α} {e : ε} {t : σ}
    (hx : x.run.run s = (.error e, t)) (h : E e t) : Meets x s Q E := by
  unfold Meets
  rwa [hx]

/-- A computation that cannot stop has a result. -/
theorem Meets.exists_ok {x : ExceptT ε (StateM σ) α} (h : Meets x s Q fun _ _ => False) :
    ∃ a t, x.run.run s = (.ok a, t) ∧ Q a t := by
  unfold Meets at h
  split at h
  · next a t hx => exact ⟨a, t, hx, h⟩
  · exact h.elim

/-- A computation that cannot succeed stops for a reason. -/
theorem Meets.exists_error {x : ExceptT ε (StateM σ) α} (h : Meets x s (fun _ _ => False) E) :
    ∃ e t, x.run.run s = (.error e, t) ∧ E e t := by
  unfold Meets at h
  split at h
  · exact h.elim
  · next e t hx => exact ⟨e, t, hx, h⟩

/-- What is true of all ends is true of the end of a computation. -/
theorem meets_of_forall {x : ExceptT ε (StateM σ) α} (hQ : ∀ a t, Q a t) (hE : ∀ e t, E e t) : Meets x s Q E := by
  unfold Meets
  split
  · exact hQ _ _
  · exact hE _ _

/-! ### Rules -/

@[simp] theorem meets_pure {a : α} : Meets (pure a : ExceptT ε (StateM σ) α) s Q E ↔ Q a s :=
  Iff.rfl

@[simp] theorem meets_throw {e : ε} : Meets (throw e : ExceptT ε (StateM σ) α) s Q E ↔ E e s :=
  Iff.rfl

@[simp] theorem meets_get {Q : σ → σ → Prop} :
    Meets (get : ExceptT ε (StateM σ) σ) s Q E ↔ Q s s :=
  Iff.rfl

@[simp] theorem meets_modify {f : σ → σ} {Q : Unit → σ → Prop} :
    Meets (modify f : ExceptT ε (StateM σ) Unit) s Q E ↔ Q () (f s) :=
  Iff.rfl

@[simp] theorem meets_modifyGet {f : σ → α × σ} :
    Meets (modifyGet f : ExceptT ε (StateM σ) α) s Q E ↔ Q (f s).1 (f s).2 :=
  Iff.rfl

theorem run_bind {x : ExceptT ε (StateM σ) α} {f : α → ExceptT ε (StateM σ) β} :
    (x >>= f).run.run s = match x.run.run s with
      | (.ok a, t) => (f a).run.run t
      | (.error e, t) => (.error e, t) := by
  simp only [ExceptT.run_bind, StateT.run_bind]
  cases x.run.run s with
  | mk r t => cases r <;> rfl

@[simp] theorem meets_bind {x : ExceptT ε (StateM σ) α} {f : α → ExceptT ε (StateM σ) β}
    {Q : β → σ → Prop} :
    Meets (x >>= f) s Q E ↔ Meets x s (fun a t => Meets (f a) t Q E) E := by
  unfold Meets
  rw [run_bind]
  rcases x.run.run s with ⟨e | a, t⟩ <;> rfl

@[simp] theorem meets_map {x : ExceptT ε (StateM σ) α} {f : α → β} {Q : β → σ → Prop} :
    Meets (f <$> x) s Q E ↔ Meets x s (fun a t => Q (f a) t) E := by
  rw [map_eq_pure_bind, meets_bind]
  rfl

/-- The two steps of a computation, the second from whatever state the first leads to. -/
theorem Meets.bind {x : ExceptT ε (StateM σ) α} {f : α → ExceptT ε (StateM σ) β}
    {R : β → σ → Prop} (h : Meets x s Q E) (hf : ∀ a t, Q a t → Meets (f a) t R E) :
    Meets (x >>= f) s R E :=
  meets_bind.mpr (h.imp hf)

theorem run_tryCatch {x : ExceptT ε (StateM σ) α} {f : ε → ExceptT ε (StateM σ) α} :
    (tryCatch x f).run.run s = match x.run.run s with
      | (.ok a, t) => (.ok a, t)
      | (.error e, t) => (f e).run.run t := by
  simp only [tryCatch, tryCatchThe, MonadExceptOf.tryCatch, ExceptT.tryCatch, ExceptT.run_mk, StateT.run_bind]
  rw [show StateT.run x s = x.run.run s from rfl]
  cases x.run.run s with
  | mk r t => cases r <;> rfl

/-- A handler takes over where a computation stops. -/
theorem meets_tryCatch {x : ExceptT ε (StateM σ) α} {f : ε → ExceptT ε (StateM σ) α} :
    Meets (tryCatch x f) s Q E ↔ Meets x s Q (fun e t => Meets (f e) t Q E) := by
  unfold Meets
  rw [run_tryCatch]
  rcases x.run.run s with ⟨e | a, t⟩ <;> rfl

/-! ### Two runs -/

/-- Started in `s` and in `t`, the computation ends with the same result, in states that `Q` relates. -/
def Concur (x : ExceptT ε (StateM σ) α) (s t : σ) (Q : α → σ → σ → Prop) : Prop :=
  ∃ a s' t', x.run.run s = (.ok a, s') ∧ x.run.run t = (.ok a, t') ∧ Q a s' t'

section Concur

variable {t : σ} {x : ExceptT ε (StateM σ) α} {Q : α → σ → σ → Prop}

theorem concur_pure {a : α} (h : Q a s t) : Concur (pure a : ExceptT ε (StateM σ) α) s t Q :=
  ⟨a, s, t, rfl, rfl, h⟩

theorem Concur.imp {Q' : α → σ → σ → Prop} (h : Concur x s t Q) (hQ : ∀ a s' t', Q a s' t' → Q' a s' t') :
    Concur x s t Q' := by
  obtain ⟨a, s', t', hs, ht, hq⟩ := h
  exact ⟨a, s', t', hs, ht, hQ a s' t' hq⟩

theorem Concur.bind {f : α → ExceptT ε (StateM σ) β} {R : β → σ → σ → Prop} (h : Concur x s t Q)
    (hf : ∀ a s' t', Q a s' t' → Concur (f a) s' t' R) : Concur (x >>= f) s t R := by
  obtain ⟨a, s', t', hs, ht, hq⟩ := h
  obtain ⟨b, s'', t'', hs', ht', hr⟩ := hf a s' t' hq
  refine ⟨b, s'', t'', ?_, ?_, hr⟩
  · rw [run_bind, hs]
    exact hs'
  · rw [run_bind, ht]
    exact ht'

/-- Two runs that have one result each concur if the results are equal. -/
theorem Meets.concur {r : α} {P P' : σ → Prop} (h : Meets x s (fun a s' => a = r ∧ P s') fun _ _ => False)
    (h' : Meets x t (fun a t' => a = r ∧ P' t') fun _ _ => False) :
    Concur x s t fun a s' t' => a = r ∧ P s' ∧ P' t' := by
  obtain ⟨a, s', hs, rfl, hp⟩ := h.exists_ok
  obtain ⟨b, t', ht, rfl, hp'⟩ := h'.exists_ok
  exact ⟨b, s', t', hs, ht, rfl, hp, hp'⟩

end Concur

/-! ### Invariants -/

/-- What holds before the computation holds after it, whether it ends or stops. -/
def Maintains (I : σ → Prop) (x : ExceptT ε (StateM σ) α) : Prop :=
  ∀ s, I s → Meets x s (fun _ t => I t) fun _ t => I t

section Maintains

variable {I : σ → Prop}

theorem maintains_pure {a : α} : Maintains I (pure a : ExceptT ε (StateM σ) α) :=
  fun _ h => h

theorem maintains_throw {e : ε} : Maintains I (throw e : ExceptT ε (StateM σ) α) :=
  fun _ h => h

theorem Maintains.bind {x : ExceptT ε (StateM σ) α} {f : α → ExceptT ε (StateM σ) β} (h : Maintains I x)
    (hf : ∀ a, Maintains I (f a)) : Maintains I (x >>= f) :=
  fun s hs => (h s hs).bind fun a t ht => hf a t ht

/-- A computation that leaves the state as it is. -/
theorem maintains_of_unchanged {x : ExceptT ε (StateM σ) α} (h : ∀ s, (x.run.run s).2 = s) : Maintains I x := by
  intro s hs
  have hend := h s
  cases hrun : x.run.run s with
  | mk r t =>
      rw [hrun] at hend
      subst hend
      cases r with
      | ok a => exact meets_of_run_ok hrun hs
      | error e => exact meets_of_run_error hrun hs

theorem maintains_mapM {f : α → ExceptT ε (StateM σ) β} (h : ∀ a, Maintains I (f a)) (l : List α) :
    Maintains I (l.mapM f) := by
  induction l with
  | nil => exact maintains_pure
  | cons a l ih =>
      rw [List.mapM_cons]
      apply (h a).bind
      intro b
      exact ih.bind fun _ => maintains_pure

end Maintains

/-! ### Loops -/

/-- A round of a loop over a list leads from what is known before an element to what is known after it. -/
theorem meets_forM {l : List α} {f : α → ExceptT ε (StateM σ) Unit} {E : ε → σ → Prop}
    (I : List α → σ → Prop)
    (hstep : ∀ done a rest t, l = done ++ a :: rest → I done t →
      Meets (f a) t (fun _ u => I (done ++ [a]) u) E)
    (h : I [] s) : Meets (l.forM f) s (fun _ t => I l t) E := by
  suffices hgen : ∀ rest done t, l = done ++ rest → I done t →
      Meets (rest.forM f) t (fun _ u => I l u) E from hgen l [] s rfl h
  intro rest
  induction rest with
  | nil =>
      intro done t hl hI
      rw [List.append_nil] at hl
      rw [hl]
      exact hI
  | cons a rest ih =>
      intro done t hl hI
      refine (hstep done a rest t hl hI).bind fun _ u hu => ?_
      exact ih (done ++ [a]) u (by rw [hl, List.append_assoc]; rfl) hu

end Invariance
