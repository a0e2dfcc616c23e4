/-
  Two computations that go the same way.

  The second computation is to do as the first, from a state that corresponds to that of the
  first.  The first one may be cut off, by a limit that the second does not have; from there on
  nothing is said.

  * `Agrees Cut E R V`: how the results of the two agree, with values related by `V`, exceptions
    by `E` and states by `R`.  Exceptions with `Cut` mean that the first one was cut off;
  * `Follows Cut E R V x y`: from related states, the result of `y` agrees with that of `x`;
  * `Matches E V`: the same for checks, which have no state;
  * one lemma for each way to build a computation, so that a program follows another one if its
    parts follow those of the other.
-/
import Mathlib.Data.List.Forall2
import BoxScript.Proofs.Outcome

namespace BoxScript

variable {ε σ α β γ δ : Type}

/-- The results of two computations agree, or the first one was cut off. -/
inductive Agrees (Cut : ε → Prop) (E : ε → ε → Prop) (R : σ → σ → Prop) (V : α → β → Prop) :
    EStateM.Result ε σ α → EStateM.Result ε σ β → Prop
  | cut {e : ε} {s : σ} {y : EStateM.Result ε σ β} (h : Cut e) : Agrees Cut E R V (.error e s) y
  | ok {a : α} {b : β} {s s' : σ} (hV : V a b) (hR : R s s') : Agrees Cut E R V (.ok a s) (.ok b s')
  | error {e e' : ε} {s s' : σ} (hE : E e e') (hR : R s s') :
      Agrees Cut E R V (.error e s) (.error e' s')

/-- From related states, `y` does as `x` does, unless `x` is cut off. -/
def Follows (Cut : ε → Prop) (E : ε → ε → Prop) (R : σ → σ → Prop) (V : α → β → Prop)
    (x : EStateM ε σ α) (y : EStateM ε σ β) : Prop :=
  ∀ s s', R s s' → Agrees Cut E R V (x s) (y s')

/-- The results of two checks agree. -/
inductive Matches (E : ε → ε → Prop) (V : α → β → Prop) : Except ε α → Except ε β → Prop
  | ok {a : α} {b : β} (h : V a b) : Matches E V (.ok a) (.ok b)
  | error {e e' : ε} (h : E e e') : Matches E V (.error e) (.error e')

variable {Cut : ε → Prop} {E : ε → ε → Prop} {R : σ → σ → Prop} {V : α → β → Prop}
  {W : γ → δ → Prop}

/-- A result that is a value was not cut off, whatever cuts off. -/
theorem Agrees.of_ok {Cut' : ε → Prop} {a : α} {s : σ} {y : EStateM.Result ε σ β}
    (h : Agrees Cut E R V (.ok a s) y) : Agrees Cut' E R V (.ok a s) y := by
  cases h with
  | ok hV hR => exact .ok hV hR

/-- Where no exception cuts the first computation off, the second one ends as it does. -/
theorem Follows.ends {x : EStateM ε σ α} {y : EStateM ε σ β}
    (h : Follows (fun _ => False) E R V x y) {s s' : σ} (hR : R s s') :
    Ends x s (fun a s₁ => ∃ b s₂, y s' = .ok b s₂ ∧ V a b ∧ R s₁ s₂)
      fun e s₁ => ∃ e' s₂, y s' = .error e' s₂ ∧ E e e' ∧ R s₁ s₂ := by
  have hagrees := h s s' hR
  revert hagrees
  unfold Ends
  generalize x s = result, y s' = result'
  rintro (hno | ⟨hV, hR⟩ | ⟨hE, hR⟩)
  · exact hno.elim
  · exact ⟨_, _, rfl, hV, hR⟩
  · exact ⟨_, _, rfl, hE, hR⟩

theorem follows_pure {a : α} {b : β} (h : V a b) : Follows Cut E R V (pure a) (pure b) :=
  fun _ _ hR => .ok h hR

theorem follows_throw {e e' : ε} (h : E e e') : Follows Cut E R V (throw e) (throw e') :=
  fun _ _ hR => .error h hR

/-- A computation that is cut off is followed by any other. -/
theorem follows_cut {e : ε} (h : Cut e) {y : EStateM ε σ β} : Follows Cut E R V (throw e) y :=
  fun _ _ _ => .cut h

theorem Follows.bind {x : EStateM ε σ α} {y : EStateM ε σ β} {f : α → EStateM ε σ γ}
    {g : β → EStateM ε σ δ} (hx : Follows Cut E R V x y)
    (hf : ∀ a b, V a b → Follows Cut E R W (f a) (g b)) :
    Follows Cut E R W (x >>= f) (y >>= g) := by
  intro s s' hR
  have h := hx s s' hR
  cases hrun : x s with
  | ok a s₁ =>
    rw [bind_of_ok hrun]
    rw [hrun] at h
    cases hrun' : y s' with
    | ok b s₂ =>
      rw [bind_of_ok hrun']
      rw [hrun'] at h
      cases h with
      | ok hV hR' => exact hf a b hV s₁ s₂ hR'
    | error e s₂ =>
      rw [hrun'] at h
      cases h
  | error e s₁ =>
    rw [bind_of_error hrun]
    rw [hrun] at h
    cases hrun' : y s' with
    | ok b s₂ =>
      rw [hrun'] at h
      cases h with
      | cut hcut => exact .cut hcut
    | error e' s₂ =>
      rw [bind_of_error hrun']
      rw [hrun'] at h
      cases h with
      | cut hcut => exact .cut hcut
      | error hE hR' => exact .error hE hR'

/-- After values that are the same. -/
theorem Follows.bind_same {x y : EStateM ε σ α} {f : α → EStateM ε σ γ} {g : α → EStateM ε σ δ}
    (hx : Follows Cut E R Eq x y) (hf : ∀ a, Follows Cut E R W (f a) (g a)) :
    Follows Cut E R W (x >>= f) (y >>= g) :=
  hx.bind fun a _ h => h ▸ hf a

theorem Follows.map {x : EStateM ε σ α} {y : EStateM ε σ β} {f : α → γ} {g : β → δ}
    (hx : Follows Cut E R V x y) (hf : ∀ a b, V a b → W (f a) (g b)) :
    Follows Cut E R W (f <$> x) (g <$> y) := by
  rw [← bind_pure_comp, ← bind_pure_comp]
  exact hx.bind fun a b h => follows_pure (hf a b h)

theorem Follows.discard {x : EStateM ε σ α} {y : EStateM ε σ β} (hx : Follows Cut E R V x y) :
    Follows Cut E R Eq (discard x) (discard y) :=
  hx.map fun _ _ _ => rfl

/-! ## Lists -/

theorem Follows.mapM {T : α → β → Prop} {l : List α} {l' : List β} {f : α → EStateM ε σ γ}
    {g : β → EStateM ε σ δ} (hl : List.Forall₂ T l l')
    (hf : ∀ a b, T a b → Follows Cut E R W (f a) (g b)) :
    Follows Cut E R (List.Forall₂ W) (l.mapM f) (l'.mapM g) := by
  induction hl with
  | nil => exact follows_pure .nil
  | cons h _ ih =>
    rw [List.mapM_cons, List.mapM_cons]
    refine (hf _ _ h).bind fun c d hc => ih.bind fun cs ds hcs => ?_
    exact follows_pure (.cons hc hcs)

theorem Follows.foldlM {T : α → β → Prop} {l : List α} {l' : List β} {f : γ → α → EStateM ε σ γ}
    {g : δ → β → EStateM ε σ δ} (hl : List.Forall₂ T l l')
    (hf : ∀ c d a b, W c d → T a b → Follows Cut E R W (f c a) (g d b)) {c : γ} {d : δ}
    (hc : W c d) : Follows Cut E R W (l.foldlM f c) (l'.foldlM g d) := by
  induction hl generalizing c d with
  | nil => exact follows_pure hc
  | cons h _ ih =>
    rw [List.foldlM_cons, List.foldlM_cons]
    exact (hf _ _ _ _ hc h).bind fun c' d' hc' => ih hc'

end BoxScript
