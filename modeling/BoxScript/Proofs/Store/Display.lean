/-
  Texts of values: which values have one.

  Arrays and objects can hold each other in a circle, and many of them can hold the same one.  The
  text of a value goes into all its parts, so it exists as long as there is no circle among them.

  * `Store.Acyclic s v`: nothing inside `v` is inside itself;
  * `Store.acc_iff_acyclic`: parts of parts of an acyclic value come to an end, as a store holds
    finitely many values;
  * `Store.exists_display?_iff_acc`: a value has a text, with a depth that is large enough, if its
    parts come to an end;
  * `display_iff_acyclic`: **the values that have a text are the acyclic ones.**
-/
import Mathlib.Data.Fintype.Card
import Mathlib.Data.Set.Finite.Basic
import Mathlib.Logic.Relation
import BoxScript.Proofs.Eval.Limits
import BoxScript.Proofs.Lists

namespace BoxScript

/-! ## Results that a larger depth does not change -/

section

variable {α β γ : Type}

/-- If every element of a list has a result with some depth, one depth is enough for all. -/
theorem exists_depth {f : Nat → α → Option β} {l : List α}
    (hmono : ∀ {d d' : Nat} {a : α} {b : β}, d ≤ d' → f d a = some b → f d' a = some b)
    (h : ∀ a ∈ l, ∃ d b, f d a = some b) : ∃ d, ∀ a ∈ l, ∃ b, f d a = some b := by
  induction l with
  | nil => exact ⟨0, by simp⟩
  | cons a l ih =>
    obtain ⟨d, b, hb⟩ := h a (by simp)
    obtain ⟨d', hl⟩ := ih fun a' ha' => h a' (by simp [ha'])
    refine ⟨max d d', fun a' ha' => ?_⟩
    rcases List.mem_cons.1 ha' with rfl | ha'
    · exact ⟨b, hmono (Nat.le_max_left d d') hb⟩
    · obtain ⟨b', hb'⟩ := hl a' ha'
      exact ⟨b', hmono (Nat.le_max_right d d') hb'⟩

/-- With this depth, something can be made of the results. -/
theorem exists_depth_mapM {f : Nat → α → Option β} {l : List α} (g : α → β → γ)
    (hmono : ∀ {d d' : Nat} {a : α} {b : β}, d ≤ d' → f d a = some b → f d' a = some b)
    (h : ∀ a ∈ l, ∃ d b, f d a = some b) :
    ∃ d cs, l.mapM (fun a => (f d a).map (g a)) = some cs := by
  obtain ⟨d, hd⟩ := exists_depth (f := f) hmono h
  have hmade : ∀ a ∈ l, ∃ c, (f d a).map (g a) = some c := fun a ha => by
    obtain ⟨b, hb⟩ := hd a ha
    exact ⟨g a b, by rw [hb]; rfl⟩
  exact ⟨d, exists_mapM_eq_some hmade⟩

end

/-- Every tree has a text. -/
theorem Tree.exists_inspect {depth : Nat} {t : Tree} (h : sizeOf t ≤ depth) :
    ∃ text, t.inspect depth = some text := by
  induction depth generalizing t with
  | zero => cases t <;> simp at h
  | succ depth ih =>
    unfold inspect
    split
    · next items =>
      have hsmall : ∀ item ∈ items, ∃ text, item.inspect depth = some text := fun item hitem => by
        have := List.sizeOf_lt_of_mem hitem
        simp only [list.sizeOf_spec] at h
        exact ih (by omega)
      obtain ⟨texts, htexts⟩ := exists_mapM_eq_some hsmall
      exact ⟨_, by rw [htexts]; rfl⟩
    · next hparts =>
      obtain ⟨texts, htexts⟩ := exists_mapM_eq_some fun value hvalue =>
        ih (t := value) (by have := sizeOf_lt_of_parts? hparts value hvalue; omega)
      exact ⟨_, by rw [htexts]; rfl⟩
    · exact ⟨_, rfl⟩

/-- Every tree can be given in a message. -/
theorem Tree.exists_spelling (t : Tree) : ∃ depth text, t.spelling? depth = some text := by
  obtain ⟨text, htext⟩ := exists_inspect (Nat.le_refl (sizeOf t))
  refine ⟨sizeOf t, ?_⟩
  unfold spelling?
  split
  · exact ⟨_, rfl⟩
  · exact ⟨text, htext⟩

namespace Store

variable {s : Store} {v w : Value}

/-! ## Circles -/

/-- No value inside `v`, be it `v` itself, is inside itself. -/
def Acyclic (s : Store) (v : Value) : Prop :=
  ∀ w, Relation.ReflTransGen s.PartOf w v → ¬Relation.TransGen s.PartOf w w

/-- The values that the arrays and objects of a store hold. -/
def held (s : Store) : List Value :=
  s.arrays.toList.flatMap Array.toList ++ s.objects.toList.flatMap (List.map Prod.snd)

theorem PartOf.mem_held (h : s.PartOf w v) : w ∈ s.held := by
  unfold held
  rw [List.mem_append]
  cases h with
  | @element a h =>
    left
    unfold items at h
    cases hs : s.arrays[a.index]? with
    | none => simp [hs] at h
    | some content =>
      rw [hs] at h
      exact List.mem_flatMap.2 ⟨content, by simpa using Array.mem_of_getElem? hs, by simpa using h⟩
  | @entry o name h =>
    right
    unfold entries at h
    cases hs : s.objects[o.index]? with
    | none => simp [hs] at h
    | some content =>
      rw [hs] at h
      exact List.mem_flatMap.2 ⟨content, by simpa using Array.mem_of_getElem? hs,
        List.mem_map.2 ⟨(name, w), h, rfl⟩⟩

/-- A value has finitely many values inside it. -/
theorem finite_inside (s : Store) (v : Value) :
    Finite { w : Value // Relation.ReflTransGen s.PartOf w v } := by
  refine Set.Finite.subset (List.finite_toSet (v :: s.held)) fun w hw => ?_
  rcases hw.cases_head with rfl | ⟨u, hu, -⟩
  · exact List.mem_cons_self
  · exact List.mem_cons_of_mem _ hu.mem_held

/-- The parts of an acyclic value, and theirs in turn, come to an end. -/
theorem Acyclic.acc (h : s.Acyclic v) : Acc s.PartOf v := by
  let Inside := { w : Value // Relation.ReflTransGen s.PartOf w v }
  let Below (a b : Inside) : Prop := Relation.TransGen s.PartOf a.1 b.1
  have : Finite Inside := finite_inside s v
  have : IsTrans Inside Below := ⟨fun _ _ _ => Relation.TransGen.trans⟩
  have : Std.Irrefl Below := ⟨fun a => h a.1 a.2⟩
  have hwf : WellFounded Below := Finite.wellFounded_of_trans_of_irrefl Below
  have hinside : ∀ a : Inside, Acc s.PartOf a.1 := fun a => by
    induction a using hwf.induction with
    | h a ih => exact .intro _ fun w hw => ih ⟨w, .head hw a.2⟩ (.single hw)
  exact hinside ⟨v, .refl⟩

theorem acyclic_of_acc (h : Acc s.PartOf v) : s.Acyclic v := by
  induction h with
  | intro v _ ih =>
    intro w hw hcircle
    rcases hw.cases_tail with rfl | ⟨u, hwu, hu⟩
    · -- the last part on the way round is inside itself too
      obtain ⟨u, hvu, hu⟩ := Relation.TransGen.tail'_iff.1 hcircle
      exact ih u hu u .refl (.head' hu hvu)
    · exact ih u hu w hwu hcircle

/-- **The parts of a value come to an end if there is no circle among them.** -/
theorem acc_iff_acyclic : Acc s.PartOf v ↔ s.Acyclic v := ⟨acyclic_of_acc, Acyclic.acc⟩

/-! ## Texts -/

theorem display?_mono {depth depth' : Nat} {text : String} (hd : depth ≤ depth')
    (h : s.display? depth v = some text) : s.display? depth' v = some text := by
  have hlike : s.Like Eq s := like_eq_iff.2 rfl
  exact hlike.display? hd (Value.like_eq_iff.2 rfl) h

/-- A value with a text has parts with texts, one level less deep. -/
theorem acc_of_display? {depth : Nat} {text : String} (h : s.display? depth v = some text) :
    Acc s.PartOf v := by
  induction depth generalizing v text with
  | zero => cases h
  | succ depth ih =>
    refine .intro v fun w hw => ?_
    cases hpart : s.display? depth w with
    | none =>
      rw [display?_eq_none_of_partOf hw hpart] at h
      cases h
    | some part => exact ih hpart

/-- A value has a text if its parts have texts. -/
theorem exists_display?_of_parts
    (h : ∀ w, s.PartOf w v → ∃ depth text, s.display? depth w = some text) :
    ∃ depth text, s.display? depth v = some text := by
  cases v with
  | array a =>
    have hitems : ∀ w ∈ (s.items a).toList, ∃ depth text, s.display? depth w = some text :=
      fun w hw => h w (.element (by simpa using hw))
    obtain ⟨depth, texts, htexts⟩ :=
      exists_depth_mapM (f := s.display?) bracketed display?_mono hitems
    exact ⟨depth + 1, ", ".intercalate texts, by rw [display?, htexts]; rfl⟩
  | object o =>
    have hentries : ∀ e ∈ s.entries o, ∃ depth text, s.display? depth e.2 = some text :=
      fun e he => h e.2 (.entry he)
    obtain ⟨depth, texts, htexts⟩ :=
      exists_depth_mapM (f := fun d (e : Name × Value) => s.display? d e.2)
        (fun e text => e.1.text ++ ": " ++ bracketed e.2 text) display?_mono hentries
    exact ⟨depth + 1, _, by rw [display?, htexts]; rfl⟩
  | datum t =>
    obtain ⟨text, htext⟩ := Tree.exists_inspect (Nat.le_refl (sizeOf t))
    exact ⟨sizeOf t + 1, text, htext⟩
  | _ => exact ⟨1, _, rfl⟩

/-- **A value has a text, with some depth, if its parts come to an end.** -/
theorem exists_display?_iff_acc :
    (∃ depth text, s.display? depth v = some text) ↔ Acc s.PartOf v := by
  constructor
  · rintro ⟨depth, text, h⟩
    exact acc_of_display? h
  · intro h
    induction h with
    | intro v _ ih => exact exists_display?_of_parts ih

end Store

theorem Run.display_eq_ok_iff {m : Machine} {v : Value} {depth : Nat} {text : String} :
    Run.display depth v m = .ok text m ↔ m.store.display? depth v = some text := by
  cases h : m.store.display? depth v with
  | none => simp [Run.display_of_none h]
  | some text' => simp [Run.display_of_some h]

/-- **The values that have a text are the acyclic ones.**  A value is shown, under a limit that is
    high enough, if and only if no array or object that it leads to, through elements and entries,
    leads back to itself.  A higher limit does not change the text.  If there is such a circle,
    wherever it is and whatever it goes through, showing the value overflows under every limit.
    Functions have no parts, so it does not matter what their scopes hold. -/
theorem display_iff_acyclic (m : Machine) (v : Value) :
    let Part := m.store.PartOf
    ((∃ depth text, Run.display depth v m = .ok text m) ↔
      ∀ w, Relation.ReflTransGen Part w v → ¬Relation.TransGen Part w w) ∧
    (∀ depth text, Run.display depth v m = .ok text m →
      ∀ depth', depth ≤ depth' → Run.display depth' v m = .ok text m) ∧
    ((∃ w, Relation.ReflTransGen Part w v ∧ Relation.TransGen Part w w) →
      ∀ depth, Run.display depth v m = .error .overflow m) := by
  intro Part
  refine ⟨?_, fun depth text h depth' hd => ?_, ?_⟩
  · simp only [Run.display_eq_ok_iff]
    exact Store.exists_display?_iff_acc.trans Store.acc_iff_acyclic
  · rw [Run.display_eq_ok_iff] at h ⊢
    exact Store.display?_mono hd h
  · rintro ⟨w, hw, hcircle⟩ depth
    cases h : m.store.display? depth v with
    | none => exact Run.display_of_none h
    | some text => exact absurd hcircle (Store.acyclic_of_acc (Store.acc_of_display? h) w hw)

/-- An array and an object that hold each other, an array that holds another one twice, and an
    array with a function in whose scope the array is bound. -/
def Store.circles : Store where
  scopes := #[⟨none, [⟨"a", .array ⟨3⟩, false⟩]⟩]
  arrays := #[#[.object ⟨0⟩], #[.array ⟨2⟩, .array ⟨2⟩], #[.string "x"],
    #[.function ⟨"f", [], [], ⟨0⟩⟩]]
  objects := #[[("k", .array ⟨0⟩)]]

/-- Only the first of them has no text. -/
theorem display_iff_acyclic_circles :
    let m : Machine := { store := .circles, clock := .counting 0 }
    (∀ depth, Run.display depth (.array ⟨0⟩) m = .error .overflow m) ∧
      (∀ depth, 3 ≤ depth → Run.display depth (.array ⟨1⟩) m = .ok "[x], [x]" m) ∧
      (∀ depth, 2 ≤ depth → Run.display depth (.array ⟨3⟩) m = .ok "<function f>" m) ∧
      m.store.Acyclic (.array ⟨1⟩) ∧ m.store.Acyclic (.array ⟨3⟩) := by
  intro m
  have hobject : m.store.PartOf (.object ⟨0⟩) (.array ⟨0⟩) :=
    .element (by simp [m, Store.items, Store.circles])
  have harray : m.store.PartOf (.array ⟨0⟩) (.object ⟨0⟩) :=
    .entry (o := ⟨0⟩) (List.mem_singleton_self (Name.ofText "k", Value.array ⟨0⟩))
  have hshared : Run.display 3 (.array ⟨1⟩) m = .ok "[x], [x]" m := rfl
  have hfunction : Run.display 2 (.array ⟨3⟩) m = .ok "<function f>" m := rfl
  refine ⟨?_, (display_iff_acyclic m _).2.1 _ _ hshared,
    (display_iff_acyclic m _).2.1 _ _ hfunction, (display_iff_acyclic m _).1.1 ⟨_, _, hshared⟩,
    (display_iff_acyclic m _).1.1 ⟨_, _, hfunction⟩⟩
  exact (display_iff_acyclic m _).2.2 ⟨_, .refl, .head harray (.single hobject)⟩

end BoxScript
