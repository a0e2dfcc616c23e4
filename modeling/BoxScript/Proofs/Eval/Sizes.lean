/-
  Sizes: arrays never change their length, and objects never change.

  Nothing removes an element from an array or adds one to it, and nothing writes to an object.  So
  the position that an assignment to an element has checked is still there when the value, which
  any code may have computed, is put into it.

  * `Store.KeepsSizes s s'`: the arrays of `s` have their lengths in `s'`, and the objects their
    entries;
  * `Contract.sizing` is the contract of this relation, so evaluation has it;
  * `Store.Stored a i v s s'`: `s'` is `s` but for the one element that is `v` now;
  * `sizes_fixed`: **sizes are fixed**, and an assignment to an element stores exactly there.
-/
import BoxScript.Proofs.Eval.Evaluation
import BoxScript.Proofs.Store.Reach

namespace BoxScript

/-! ## Sizes that are kept -/

namespace Store

variable {s s' s'' : Store}

/-- The arrays of `s` are still there with their lengths, and the objects with their entries. -/
structure KeepsSizes (s s' : Store) : Prop where
  array : ∀ {a}, s.HasPlace (.array a) →
    s'.HasPlace (.array a) ∧ (s'.items a).size = (s.items a).size
  object : ∀ {o}, s.HasPlace (.object o) →
    s'.HasPlace (.object o) ∧ s'.entries o = s.entries o

theorem items_setItem_self {a : ArrayRef} {i : Nat} {v : Value} :
    (s.setItem a i v).items a = (s.items a).setIfInBounds i v := by
  unfold items setItem
  rw [Array.getElem?_modify, if_pos rfl]
  cases s.arrays[a.index]? <;> simp

theorem items_setItem_of_ne {a a' : ArrayRef} {i : Nat} {v : Value} (h : a' ≠ a) :
    (s.setItem a i v).items a' = s.items a' := by
  have hi : a.index ≠ a'.index := fun hi => h (array_index_inj hi)
  unfold items setItem
  rw [Array.getElem?_modify, if_neg hi]

@[simp] theorem size_items_setItem {a a' : ArrayRef} {i : Nat} {v : Value} :
    ((s.setItem a i v).items a').size = (s.items a').size := by
  by_cases h : a' = a
  · rw [h, items_setItem_self, Array.size_setIfInBounds]
  · rw [items_setItem_of_ne h]

namespace KeepsSizes

theorem trans (h : s.KeepsSizes s') (h' : s'.KeepsSizes s'') : s.KeepsSizes s'' where
  array ha := by
    obtain ⟨ha', hsize⟩ := h.array ha
    obtain ⟨ha'', hsize'⟩ := h'.array ha'
    exact ⟨ha'', hsize'.trans hsize⟩
  object ho := by
    obtain ⟨ho', heq⟩ := h.object ho
    obtain ⟨ho'', heq'⟩ := h'.object ho'
    exact ⟨ho'', heq'.trans heq⟩

/-- A change that leaves the arrays and objects of a store as they are, and may add others. -/
theorem of_sameAt (has : ∀ {p}, s.HasPlace p → s'.HasPlace p)
    (array : ∀ {a}, s.HasPlace (.array a) → s.SameAt s' (.array a))
    (object : ∀ {o}, s.HasPlace (.object o) → s.SameAt s' (.object o)) : s.KeepsSizes s' where
  array {a} ha := by
    have hsame : s'.arrays[a.index]? = s.arrays[a.index]? := array ha
    exact ⟨has ha, by rw [items, items, hsame]⟩
  object {o} ho := by
    have hsame : s'.objects[o.index]? = s.objects[o.index]? := object ho
    exact ⟨has ho, by rw [entries, entries, hsame]⟩

theorem refl (s : Store) : s.KeepsSizes s := of_sameAt id (fun _ => rfl) fun _ => rfl

theorem setItem (s : Store) (a : ArrayRef) (i : Nat) (v : Value) :
    s.KeepsSizes (s.setItem a i v) where
  array ha := ⟨hasPlace_setItem ha, size_items_setItem⟩
  object ho := ⟨hasPlace_setItem ho, rfl⟩

end KeepsSizes

/-! ## One element that is stored -/

theorem hasPlace_of_items {a : ArrayRef} {i : Nat} (h : i < (s.items a).size) :
    s.HasPlace (.array a) := by
  by_cases ha : a.index < s.arrays.size
  · exact ha
  · simp [items, Array.getElem?_eq_none (Nat.le_of_not_lt ha)] at h

/-- `s'` is `s`, but for the position `i` of the array `a`, which holds `v`. -/
structure Stored (a : ArrayRef) (i : Nat) (v : Value) (s s' : Store) : Prop where
  there : (s'.items a)[i]? = some v
  elsewhere : ∀ j, j ≠ i → (s'.items a)[j]? = (s.items a)[j]?
  others : ∀ p, p ≠ .array a → s.SameAt s' p

/-- Storing at a position of the array changes the element there and no other. -/
theorem stored_setItem {a : ArrayRef} {i : Nat} (h : i < (s.items a).size) (v : Value) :
    Stored a i v s (s.setItem a i v) where
  there := by rw [items_setItem_self, Array.getElem?_setIfInBounds_self_of_lt h]
  elsewhere j hj := by rw [items_setItem_self, Array.getElem?_setIfInBounds_ne hj.symm]
  others _ hp := sameAt_setItem hp

end Store

open Store in
/-- The contract that sizes are kept. -/
def Contract.sizing : Contract where
  Loose := True
  Word _ := True
  Ok _ := True
  Holds _ _ := True
  Sees _ _ := True
  Change _ s s' := s.KeepsSizes s'
  refl := .refl _
  trans h h' := h.trans h'
  holds_mono _ _ := trivial
  sees_mono _ _ := trivial
  word _ := trivial
  bound _ _ := bound_of_loose _
  plain _ := trivial
  native _ := trivial
  datum _ := trivial
  function := function_of_loose _
  lookup _ _ _ := trivial
  item _ _ _ := trivial
  declare _ _ _ _ _ := ⟨trivial, .of_sameAt hasPlace_bind (fun _ => rfl) fun _ => rfl⟩
  assign _ _ _ _ := ⟨trivial, .of_sameAt hasPlace_rebind (fun _ => rfl) fun _ => rfl⟩
  setItem _ _ _ := ⟨trivial, .setItem _ _ _ _⟩
  addArray _ _ := by
    refine ⟨trivial, .of_sameAt (fun h => (hasPlace_new h).2.1 _) (fun h => ?_) fun _ => rfl,
      trivial⟩
    exact (sameAt_new h).2.1 _
  addObject _ _ _ := by
    refine ⟨trivial, .of_sameAt (fun h => (hasPlace_new h).2.2 _) (fun _ => rfl) fun h => ?_,
      trivial⟩
    exact (sameAt_new h).2.2 _
  enter _ _ := by
    refine ⟨trivial, trivial, fun h => KeepsSizes.trans ?_ h⟩
    exact .of_sameAt (fun h => (hasPlace_new h).1 _) (fun _ => rfl) fun _ => rfl

/-! ## Assignments to elements -/

section

variable {cfg : Settings} {depth : Nat} {m : Machine} {env : ScopeRef}

theorem evaluate_keepsSizes (cfg : Settings) (depth : Nat) (t : Tree) (env : ScopeRef)
    (m : Machine) : EndsIn (evaluate cfg depth t env) m fun m' => m.store.KeepsSizes m'.store :=
  Ends.imp (Contract.sizing.evaluate_meets cfg depth t env m (Or.inl trivial) trivial trivial)
    (fun _ _ ⟨_, h, _⟩ => h) fun _ _ ⟨_, h, _⟩ => h

/-- A position is one of the array, and finding it changes nothing. -/
theorem position_inRange (depth : Nat) (index : Value) (length : Nat) (m : Machine) :
    Ends (Eval.position depth index length) m (fun i m' => i < length ∧ m' = m)
      fun _ _ => True := by
  unfold Eval.position
  split
  · split
    · split
      · next h =>
        refine ⟨?_, rfl⟩
        omega
      · trivial
    · exact ends_bind_of_forall fun _ _ => trivial
  · exact ends_bind_of_forall fun _ _ => trivial

/-- An element that was found is one of the array. -/
theorem element_inRange (depth : Nat) (eval : Evaluator) (array index : Tree) (env : ScopeRef)
    (m : Machine) :
    Ends (Eval.element depth eval array index env) m
      (fun p m' => p.2 < (m'.store.items p.1).size) fun _ _ => True := by
  unfold Eval.element
  refine ends_bind_of_forall fun base m₁ => ends_bind_of_forall fun place m₂ => ?_
  split
  · next a =>
    unfold Run.store
    simp only [ends_bind, ends_get, ends_pure]
    refine (position_inRange depth place _ m₂).imp ?_ fun _ _ h => h
    rintro i _ ⟨hi, rfl⟩
    exact hi
  · trivial

/-- **An assignment to an element** halts only if its parts do.  The position that was found
    before the value was computed is still one of the array, and the value is stored there. -/
theorem assignment_stores (array index value : Tree) :
    let assign := evaluate cfg (depth + 1)
      (.assignmentExpression (.arrayAccess array index) value) env
    Ends (Eval.element depth (evaluate cfg depth) array index env) m
      (fun p m₁ => Ends (evaluate cfg depth value env) m₁
        (fun v m₂ => p.2 < (m₂.store.items p.1).size ∧
          ∃ s, assign m = .ok v { m₂ with store := s } ∧ m₂.store.Stored p.1 p.2 v s)
        fun halt m₂ => assign m = .error halt m₂)
      fun halt m₁ => assign m = .error halt m₁ := by
  intro assign
  have hassign : assign = (do
      let p ← Eval.element depth (evaluate cfg depth) array index env
      let v ← evaluate cfg depth value env
      Run.setItem p.1 p.2 v
      return v) := rfl
  have hrange := element_inRange depth (evaluate cfg depth) array index env m
  rw [hassign]
  cases helement : Eval.element depth (evaluate cfg depth) array index env m with
  | error halt m₁ =>
    rw [ends_of_error helement]
    exact bind_of_error helement
  | ok p m₁ =>
    rw [ends_of_ok helement] at hrange ⊢
    rw [bind_of_ok helement]
    have hkeep := evaluate_keepsSizes cfg depth value env m₁
    unfold EndsIn at hkeep
    cases hvalue : evaluate cfg depth value env m₁ with
    | error halt m₂ =>
      rw [ends_of_error hvalue]
      exact bind_of_error hvalue
    | ok v m₂ =>
      rw [ends_of_ok hvalue] at hkeep ⊢
      -- an array with an element exists, so it has kept its length
      have harray : m₁.store.HasPlace (.array p.1) := Store.hasPlace_of_items hrange
      have hrange₂ : p.2 < (m₂.store.items p.1).size := by
        rw [(hkeep.array harray).2]
        exact hrange
      exact ⟨hrange₂, _, bind_of_ok hvalue, Store.stored_setItem hrange₂ v⟩

end

/-- **Sizes are fixed**, whether evaluation gives a value or halts: evaluation and calls leave
    every array with its length and every object with its entries.  So an assignment to an
    element never fails to store, whatever the computation of the value does.  It halts only if
    one of its parts does, the position that was found is still one of the array when the value
    is there, and the one element is all that is changed then. -/
theorem sizes_fixed (cfg : Settings) (depth : Nat) (m : Machine) (env : ScopeRef) :
    (∀ t, EndsIn (evaluate cfg depth t env) m fun m' => m.store.KeepsSizes m'.store) ∧
    (∀ f args, EndsIn (callValue cfg depth f args env) m fun m' =>
      m.store.KeepsSizes m'.store) ∧
    ∀ array index value,
      let assign := evaluate cfg (depth + 1)
        (.assignmentExpression (.arrayAccess array index) value) env
      Ends (Eval.element depth (evaluate cfg depth) array index env) m
        (fun p m₁ => Ends (evaluate cfg depth value env) m₁
          (fun v m₂ => p.2 < (m₂.store.items p.1).size ∧
            ∃ s, assign m = .ok v { m₂ with store := s } ∧ m₂.store.Stored p.1 p.2 v s)
          fun halt m₂ => assign m = .error halt m₂)
        fun halt m₁ => assign m = .error halt m₁ := by
  refine ⟨fun t => evaluate_keepsSizes cfg depth t env m, fun f args => ?_,
    fun array index value => assignment_stores array index value⟩
  have hmeets : Contract.sizing.Meets env (callValue cfg depth f args env) _ m :=
    Contract.sizing.callValue_meets cfg depth trivial trivial trivial fun _ _ => trivial
  exact Ends.imp hmeets (fun _ _ ⟨_, h, _⟩ => h) fun _ _ ⟨_, h, _⟩ => h

/-- The tree of `a[1]`. -/
def Tree.lastElement : Tree := .arrayAccess (.identifier (.text "a")) (.numberLiteral (.num 1))

/-- A function that stores into the array, and gives another text. -/
def Closure.storing : Closure :=
  ⟨"f", [], [.assignmentExpression .lastElement (.stringLiteral (.text "inner")),
    .stringLiteral (.text "outer")], ⟨0⟩⟩

/-- A scope with an array of two elements, the last of them given, and the function. -/
def Store.sharing (last : String) : Store where
  scopes := #[⟨none, [⟨"a", .array ⟨0⟩, false⟩, ⟨"f", .function .storing, true⟩]⟩]
  arrays := #[#[.string "first", .string last]]

/-- The assignment `a[1] = f()`, where the call stores into the same element: the position is
    good when the call has come back, and what it has put there is replaced. -/
theorem sizes_fixed_sharing :
    let cfg : Settings := { passes := 1 }
    let m : Machine := { store := .sharing "old", clock := .counting 0 }
    let called : Machine := { m with store := ((Store.sharing "inner").addScope (some ⟨0⟩)).2 }
    let value : Tree := .callExpression (.identifier (.text "f")) (.list [])
    Eval.element 9 (evaluate cfg 9) (.identifier (.text "a")) (.numberLiteral (.num 1)) ⟨0⟩ m =
        .ok (⟨0⟩, 1) m ∧
      evaluate cfg 9 value ⟨0⟩ m = .ok (.string "outer") called ∧
      1 < (called.store.items ⟨0⟩).size ∧
      ∃ s, evaluate cfg 10 (.assignmentExpression .lastElement value) ⟨0⟩ m =
          .ok (.string "outer") { called with store := s } ∧
        called.store.Stored ⟨0⟩ 1 (.string "outer") s := by
  intro cfg m called value
  have helement : Eval.element 9 (evaluate cfg 9) (.identifier (.text "a"))
      (.numberLiteral (.num 1)) ⟨0⟩ m = .ok (⟨0⟩, 1) m := rfl
  have hvalue : evaluate cfg 9 value ⟨0⟩ m = .ok (.string "outer") called := rfl
  have hstores := (sizes_fixed cfg 9 m ⟨0⟩).2.2 (.identifier (.text "a")) (.numberLiteral (.num 1))
    value
  rw [ends_of_ok helement, ends_of_ok hvalue] at hstores
  exact ⟨helement, hvalue, hstores⟩

end BoxScript
