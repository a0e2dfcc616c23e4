/-
  How a computation with a state ends.

  * `Ends x s Q E`: from the state `s`, the computation `x` ends with a value and a state
    that satisfy `Q`, or stops with an exception and a state that satisfy `E`;
  * `EndsIn x s P`: whichever way it ends, the state then satisfies `P`;
  * one equivalence for each way to build a computation takes such a statement apart, and
    `Ends.imp` weakens its two conditions.

  Parsers and evaluation are computations of this kind.
-/

namespace BoxScript

variable {ε σ α β : Type}

/-- From `s`, the computation `x` gives a value with `Q` or stops with `E`. -/
def Ends (x : EStateM ε σ α) (s : σ) (Q : α → σ → Prop) (E : ε → σ → Prop) : Prop :=
  match x s with
  | .ok a s' => Q a s'
  | .error e s' => E e s'

variable {s : σ} {Q : α → σ → Prop} {E : ε → σ → Prop}

theorem ends_of_ok {x : EStateM ε σ α} {a : α} {s' : σ} (h : x s = .ok a s') :
    Ends x s Q E ↔ Q a s' := by
  simp only [Ends, h]

theorem ends_of_error {x : EStateM ε σ α} {e : ε} {s' : σ} (h : x s = .error e s') :
    Ends x s Q E ↔ E e s' := by
  simp only [Ends, h]

theorem Ends.imp {x : EStateM ε σ α} {Q' : α → σ → Prop} {E' : ε → σ → Prop}
    (h : Ends x s Q E) (hQ : ∀ a s', Q a s' → Q' a s') (hE : ∀ e s', E e s' → E' e s') :
    Ends x s Q' E' := by
  unfold Ends at h ⊢
  split
  · next a s' hx => exact hQ a s' (by rwa [hx] at h)
  · next e s' hx => exact hE e s' (by rwa [hx] at h)

/-- Whether `x` gives a value or stops, the state is then one with `P`. -/
def EndsIn (x : EStateM ε σ α) (s : σ) (P : σ → Prop) : Prop := Ends x s (fun _ => P) fun _ => P

theorem EndsIn.of_ok {x : EStateM ε σ α} {P : σ → Prop} {a : α} {s' : σ} (h : EndsIn x s P)
    (hx : x s = .ok a s') : P s' :=
  (ends_of_ok hx).1 h

/-! ## Building blocks -/

theorem bind_of_ok {x : EStateM ε σ α} {f : α → EStateM ε σ β} {a : α} {s' : σ}
    (h : x s = .ok a s') : (x >>= f) s = f a s' := by
  show EStateM.bind x f s = _
  rw [EStateM.bind, h]

theorem bind_of_error {x : EStateM ε σ α} {f : α → EStateM ε σ β} {e : ε} {s' : σ}
    (h : x s = .error e s') : (x >>= f) s = .error e s' := by
  show EStateM.bind x f s = _
  rw [EStateM.bind, h]

/-- Computations that begin alike and go on alike from where they then are. -/
theorem bind_eq_bind {x y : EStateM ε σ α} {f g : α → EStateM ε σ β} (hxy : x s = y s)
    (h : ∀ a s', x s = .ok a s' → f a s' = g a s') : (x >>= f) s = (y >>= g) s := by
  cases hx : x s with
  | ok a s' => rw [bind_of_ok hx, bind_of_ok (hxy.symm.trans hx), h a s' hx]
  | error e s' => rw [bind_of_error hx, bind_of_error (hxy.symm.trans hx)]

theorem map_of_error {x : EStateM ε σ β} {f : β → α} {e : ε} {s' : σ} (h : x s = .error e s') :
    (f <$> x) s = .error e s' := by
  show EStateM.map f x s = _
  rw [EStateM.map, h]

@[simp] theorem ends_pure {a : α} : Ends (pure a : EStateM ε σ α) s Q E ↔ Q a s := Iff.rfl

@[simp] theorem ends_throw {e : ε} : Ends (throw e : EStateM ε σ α) s Q E ↔ E e s := Iff.rfl

@[simp] theorem ends_get {Q : σ → σ → Prop} : Ends (get : EStateM ε σ σ) s Q E ↔ Q s s := Iff.rfl

@[simp] theorem ends_modifyGet {f : σ → α × σ} :
    Ends (modifyGet f : EStateM ε σ α) s Q E ↔ Q (f s).1 (f s).2 := Iff.rfl

@[simp] theorem ends_bind {x : EStateM ε σ β} {f : β → EStateM ε σ α} :
    Ends (x >>= f) s Q E ↔ Ends x s (fun b s' => Ends (f b) s' Q E) E := by
  show Ends (EStateM.bind x f) s Q E ↔ _
  unfold Ends EStateM.bind
  cases x s <;> exact Iff.rfl

/-- What the second computation says of its values, from whatever state it starts. -/
theorem ends_bind_of_forall {x : EStateM ε σ β} {f : β → EStateM ε σ α}
    (h : ∀ b s', Ends (f b) s' Q fun _ _ => True) : Ends (x >>= f) s Q fun _ _ => True := by
  rw [ends_bind]
  unfold Ends
  split
  · next b s' _ => exact h b s'
  · trivial

@[simp] theorem ends_map {x : EStateM ε σ β} {f : β → α} :
    Ends (f <$> x) s Q E ↔ Ends x s (fun b => Q (f b)) E := by
  show Ends (EStateM.map f x) s Q E ↔ _
  unfold Ends EStateM.map
  cases x s <;> exact Iff.rfl

@[simp] theorem ends_discard {x : EStateM ε σ β} {Q : PUnit → σ → Prop} :
    Ends (discard x) s Q E ↔ Ends x s (fun _ => Q ⟨⟩) E :=
  ends_map

/-! ## Lists -/

/-- What a computation does for every element of a list.  `I` holds throughout, and `R` of
    each result from when it is there to the end. -/
theorem ends_mapM {f : β → EStateM ε σ α} {I : σ → Prop} {R : σ → α → Prop} {l : List β}
    (hf : ∀ b ∈ l, ∀ s, I s →
      Ends (f b) s (fun a s' => I s' ∧ R s' a ∧ ∀ a', R s a' → R s' a') E) :
    ∀ {s : σ}, I s → Ends (l.mapM f) s
      (fun as s' => I s' ∧ (∀ a ∈ as, R s' a) ∧ ∀ a', R s a' → R s' a') E := by
  induction l with
  | nil => intro s hs; simpa using hs
  | cons b l ih =>
    intro s hs
    rw [List.mapM_cons, ends_bind]
    refine (hf b (by simp) s hs).imp (fun a s₁ ⟨h₁, ha, hm₁⟩ => ?_) fun _ _ h => h
    rw [ends_bind]
    refine (ih (fun b' hb' => hf b' (by simp [hb'])) h₁).imp (fun as s₂ ⟨h₂, has, hm₂⟩ => ?_)
      fun _ _ h => h
    rw [ends_pure]
    refine ⟨h₂, fun a' ha' => ?_, fun a' ha' => hm₂ a' (hm₁ a' ha')⟩
    rcases List.mem_cons.1 ha' with rfl | ha'
    · exact hm₂ a' ha
    · exact has a' ha'

/-- What is done in turn for the elements of a list: `I` holds of the state and the value that
    was reached last. -/
theorem ends_foldlM {f : α → β → EStateM ε σ α} {I : σ → α → Prop} {l : List β}
    (hf : ∀ b ∈ l, ∀ a s, I s a → Ends (f a b) s (fun a' s' => I s' a') E) :
    ∀ {a : α} {s : σ}, I s a → Ends (l.foldlM f a) s (fun a' s' => I s' a') E := by
  induction l with
  | nil => intro a s h; exact h
  | cons b l ih =>
    intro a s h
    rw [List.foldlM_cons, ends_bind]
    exact (hf b (by simp) a s h).imp
      (fun a' s' h' => ih (fun b' hb' => hf b' (by simp [hb'])) h') fun _ _ h => h

end BoxScript
