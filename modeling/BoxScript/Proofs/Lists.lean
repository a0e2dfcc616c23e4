/-
  Lists.

  * `span_eq`: the longest part of a list whose elements satisfy a condition, and what is left;
  * `List.Forall₂` relates the elements of two lists one by one.  What is done to the elements of
    both keeps it, and `exists_forall₂_iff` tells when there is such a list;
  * `mapM_eq_ok_iff` and `mapM_eq_some_iff`: a computation for each element has results if and only
    if each of them is that for its element;
  * `lookup_zip`: names with their values, as entries.
-/
import Mathlib.Data.List.Forall2
import BoxScript.Result

namespace BoxScript

variable {α β γ ε : Type}

/-! ## Parts of lists -/

/-- What is taken satisfies the condition, up to what does not. -/
theorem span_eq {p : α → Bool} {xs rest : List α} (hx : ∀ a ∈ xs, p a = true)
    (hr : ∀ a, rest.head? = some a → p a = false) :
    (xs ++ rest).takeWhile p = xs ∧ (xs ++ rest).dropWhile p = rest := by
  rw [List.takeWhile_append_of_pos hx, List.dropWhile_append_of_pos hx]
  cases rest with
  | nil => simp
  | cons a rest => simp [hr a rfl]

/-- What is left behind does not go on with what was taken. -/
theorem head_dropWhile {p : α → Bool} {xs : List α} {a : α}
    (h : (xs.dropWhile p).head? = some a) : p a = false := by
  have hnot := List.head?_dropWhile_not p xs
  rw [h] at hnot
  exact hnot

theorem mem_takeWhile {p : α → Bool} {xs : List α} {a : α} (h : a ∈ xs.takeWhile p) :
    p a = true := List.all_eq_true.1 List.all_takeWhile a h

theorem dropWhile_eq_self {p : α → Bool} {xs : List α} (h : ∀ a ∈ xs, p a = false) :
    xs.dropWhile p = xs := by
  cases xs with
  | nil => rfl
  | cons a xs => rw [List.dropWhile_cons, h a (by simp)]; rfl

/-- If nothing is dropped, everything was there. -/
theorem map_some_filterMap_id {xs : List (Option α)}
    (h : (xs.filterMap id).length = xs.length) : (xs.filterMap id).map some = xs := by
  induction xs with
  | nil => rfl
  | cons x xs ih =>
    cases x with
    | none =>
      have hle := List.length_filterMap_le id xs
      rw [List.filterMap_cons_none rfl, List.length_cons] at h
      omega
    | some a => simpa using ih (by simpa using h)

/-! ## Lists that correspond -/

theorem forall₂_comp {R : α → β → Prop} {S : β → γ → Prop} {xs : List α} {ys : List β}
    {zs : List γ} (h : List.Forall₂ R xs ys) (h' : List.Forall₂ S ys zs) :
    List.Forall₂ (fun x z => ∃ y, R x y ∧ S y z) xs zs := by
  induction h generalizing zs with
  | nil =>
    cases h'
    exact .nil
  | cons hx _ ih =>
    cases h' with
    | cons hy hys => exact .cons ⟨_, hx, hy⟩ (ih hys)

theorem forall₂_mem {R : α → β → Prop} {xs : List α} {ys : List β} {x : α}
    (h : List.Forall₂ R xs ys) (hx : x ∈ xs) : ∃ y ∈ ys, R x y := by
  induction h with
  | nil => cases hx
  | cons hab _ ih =>
    rcases List.mem_cons.1 hx with rfl | hx
    · exact ⟨_, List.mem_cons_self, hab⟩
    · obtain ⟨y, hy, hxy⟩ := ih hx
      exact ⟨y, List.mem_cons_of_mem _ hy, hxy⟩

/-- A relation that says something of the one side only. -/
theorem forall₂_iff_of_iff {R : β → α → Prop} {P : α → Prop} {xs : List α} {ys : List β}
    (h : List.Forall₂ (fun x y => R y x ↔ P x) xs ys) :
    List.Forall₂ R ys xs ↔ ∀ x ∈ xs, P x := by
  induction h with
  | nil => simp
  | cons hxy _ ih => rw [List.forall₂_cons, List.forall_mem_cons, hxy, ih]

theorem exists_forall₂_iff {R : α → β → Prop} {xs : List α} :
    (∃ ys, List.Forall₂ R xs ys) ↔ ∀ x ∈ xs, ∃ y, R x y := by
  induction xs with
  | nil => simp
  | cons x xs ih =>
    rw [List.forall_mem_cons, ← ih]
    constructor
    · rintro ⟨_, _ | ⟨hy, hys⟩⟩
      exact ⟨⟨_, hy⟩, _, hys⟩
    · rintro ⟨⟨y, hy⟩, ys, hys⟩
      exact ⟨y :: ys, .cons hy hys⟩

theorem forall₂_eq_map {R : α → β → Prop} {g : α → β} (hR : ∀ a b, R a b → b = g a)
    {l : List α} {l' : List β} (h : List.Forall₂ R l l') : l' = l.map g := by
  induction h with
  | nil => rfl
  | cons hab _ ih => rw [hR _ _ hab, ih, List.map_cons]

theorem forall₂_iff_eq {R : α → α → Prop} (hR : ∀ {a b}, R a b ↔ b = a)
    {l l' : List α} : List.Forall₂ R l l' ↔ l' = l := by
  constructor
  · intro h
    induction h with
    | nil => rfl
    | cons hab _ ih => rw [hR.1 hab, ih]
  · rintro rfl
    exact List.forall₂_same.2 fun a _ => hR.2 rfl

/-! ## Computations for each element -/

theorem mapM_eq_ok_iff {f : α → Except ε β} {xs : List α} {ys : List β} :
    xs.mapM f = .ok ys ↔ List.Forall₂ (fun x y => f x = .ok y) xs ys := by
  induction xs generalizing ys with
  | nil =>
    rw [List.mapM_nil, List.forall₂_nil_left_iff]
    exact ⟨fun h => (Except.ok.inj h).symm, fun h => h ▸ rfl⟩
  | cons x xs ih =>
    rw [List.mapM_cons, bind_eq_ok_iff]
    constructor
    · rintro ⟨y, hy, h⟩
      obtain ⟨zs, hzs, ⟨⟩⟩ := bind_eq_ok_iff.1 h
      exact .cons hy (ih.1 hzs)
    · rintro (_ | ⟨hy, hys⟩)
      exact ⟨_, hy, bind_eq_ok_iff.2 ⟨_, ih.2 hys, rfl⟩⟩

theorem mapM_congr {f : α → Except ε γ} {g : β → Except ε γ} {xs : List α} {ys : List β}
    (h : List.Forall₂ (fun x y => f x = g y) xs ys) : xs.mapM f = ys.mapM g := by
  induction h with
  | nil => rfl
  | cons hxy _ ih => rw [List.mapM_cons, List.mapM_cons, hxy, ih]

theorem mapM_eq_some_iff {f : α → Option β} {xs : List α} {ys : List β} :
    xs.mapM f = some ys ↔ List.Forall₂ (fun x y => f x = some y) xs ys := by
  induction xs generalizing ys with
  | nil =>
    rw [List.mapM_nil, List.forall₂_nil_left_iff]
    exact ⟨fun h => (Option.some.inj h).symm, fun h => h ▸ rfl⟩
  | cons x xs ih =>
    rw [List.mapM_cons]
    constructor
    · intro h
      obtain ⟨y, hy, h⟩ := Option.bind_eq_some_iff.1 h
      obtain ⟨zs, hzs, ⟨⟩⟩ := Option.bind_eq_some_iff.1 h
      exact .cons hy (ih.1 hzs)
    · rintro (_ | ⟨hy, hys⟩)
      exact Option.bind_eq_some_iff.2 ⟨_, hy, Option.bind_eq_some_iff.2 ⟨_, ih.2 hys, rfl⟩⟩

theorem exists_mapM_eq_some {g : α → Option β} {l : List α} (h : ∀ a ∈ l, ∃ b, g a = some b) :
    ∃ bs, l.mapM g = some bs := by
  obtain ⟨bs, hbs⟩ := exists_forall₂_iff.2 h
  exact ⟨bs, mapM_eq_some_iff.2 hbs⟩

theorem mapM_eq_none {f : α → Option β} {xs : List α} {x : α} (hx : x ∈ xs) (h : f x = none) :
    xs.mapM f = none := by
  cases hall : xs.mapM f with
  | none => rfl
  | some ys =>
    obtain ⟨y, -, hy⟩ := forall₂_mem (mapM_eq_some_iff.1 hall) hx
    rw [h] at hy
    cases hy

/-! ## Entries -/

theorem lookup_isSome_iff {entries : List (String × β)} {key : String} :
    (entries.lookup key).isSome = true ↔ key ∈ entries.map Prod.fst := by
  rw [Option.isSome_iff_ne_none, ne_eq, List.lookup_eq_none_iff]
  simp

/-- Each of some different names has its value among the entries made of both. -/
theorem lookup_zip {names : List String} {values : List β} (hn : names.Nodup)
    (hl : names.length = values.length) :
    List.Forall₂ (fun name value => (names.zip values).lookup name = some value) names values := by
  induction names generalizing values with
  | nil =>
    obtain rfl := List.eq_nil_of_length_eq_zero hl.symm
    exact .nil
  | cons name names ih =>
    cases values with
    | nil => cases hl
    | cons value values =>
      obtain ⟨hmem, hn⟩ := List.nodup_cons.1 hn
      refine .cons (by simp) ?_
      have hrest := (List.forall₂_and_left names values).2
        ⟨fun _ h => h, ih hn (by simpa using hl)⟩
      refine hrest.imp ?_
      rintro other _ ⟨hother, hlookup⟩
      have hne : (other == name) = false := beq_false_of_ne fun h => hmem (h ▸ hother)
      rw [List.zip_cons_cons, List.lookup_cons, hne]
      exact hlookup

end BoxScript

/-! ## Operations on lists that correspond -/

namespace List.Forall₂

variable {α β γ : Type} {R : α → β → Prop} {l : List α} {l' : List β}

theorem getElem? (h : Forall₂ R l l') (i : Nat) : Option.Rel R l[i]? l'[i]? := by
  induction h generalizing i with
  | nil => exact .none
  | cons hab _ ih =>
    cases i with
    | zero => exact .some hab
    | succ i => simpa using ih i

theorem modify {f : α → α} {g : β → β} (h : Forall₂ R l l') (hf : ∀ a b, R a b → R (f a) (g b))
    (i : Nat) : Forall₂ R (l.modify i f) (l'.modify i g) := by
  induction h generalizing i with
  | nil => simp
  | cons hab hl ih =>
    cases i with
    | zero => simpa using ⟨hf _ _ hab, hl⟩
    | succ i => simpa using ⟨hab, ih i⟩

theorem set {a : α} {b : β} (h : Forall₂ R l l') (hab : R a b) (i : Nat) :
    Forall₂ R (l.set i a) (l'.set i b) := by
  rw [List.set_eq_modify, List.set_eq_modify]
  exact h.modify (fun _ _ _ => hab) i

theorem find? {p : α → Bool} {q : β → Bool} (h : Forall₂ R l l') (hp : ∀ a b, R a b → p a = q b) :
    Option.Rel R (l.find? p) (l'.find? q) := by
  induction h with
  | nil => exact .none
  | cons hab _ ih =>
    rw [List.find?_cons, List.find?_cons, hp _ _ hab]
    split
    · exact .some hab
    · exact ih

/-- What is found for every element of a list is found for those of the other one. -/
theorem mapM_eq_some {f : α → Option γ} {g : β → Option γ} {cs : List γ} (h : Forall₂ R l l')
    (hf : ∀ a b c, R a b → f a = some c → g b = some c) (hl : l.mapM f = some cs) :
    l'.mapM g = some cs := by
  have hfound := BoxScript.forall₂_comp h.flip (BoxScript.mapM_eq_some_iff.1 hl)
  refine BoxScript.mapM_eq_some_iff.2 (hfound.imp ?_)
  rintro b c ⟨a, hab, hc⟩
  exact hf a b c hab hc

end List.Forall₂
