/-
  What the operations on a store do to its scopes and arrays.

  Each operation is described by what it leaves of the parent and of the bindings of every
  scope, also of those it is not about, and of the elements of every array.  `Store.Has` tells
  the scopes that exist and `Store.names` lists the names of a scope in the order of
  declaration.
-/
import BoxScript.Result
import BoxScript.Store.Basic

namespace BoxScript.Store

variable {s : Store} {r r' : ScopeRef} {b : Binding} {key : Key} {name : Name} {v : Value}

/-- The scope exists. -/
def Has (s : Store) (r : ScopeRef) : Prop := r.index < s.scopes.size

/-- The names that a scope binds, by their keys and in the order of declaration. -/
def names (s : Store) (r : ScopeRef) : List Key := (s.bindings r).map Binding.name

theorem index_ne (h : r' ≠ r) : r.index ≠ r'.index := by
  intro hi
  cases r; cases r'
  exact h (congrArg ScopeRef.mk hi.symm)

/-! ## Scopes that do not exist -/

theorem scope_eq_none (h : ¬s.Has r) : s.scopes[r.index]? = none :=
  Array.getElem?_eq_none (Nat.le_of_not_lt h)

theorem bindings_eq_nil (h : ¬s.Has r) : s.bindings r = [] := by
  rw [bindings, scope_eq_none h]; rfl

theorem parent?_eq_none (h : ¬s.Has r) : s.parent? r = none := by
  rw [parent?, scope_eq_none h]; rfl

theorem has_of_find? (h : (s.find? r key).isSome) : s.Has r := by
  by_cases hr : s.Has r
  · exact hr
  · simp [find?, bindings_eq_nil hr] at h

theorem find?_isSome_iff : (s.find? r key).isSome = true ↔ key ∈ s.names r := by
  rw [find?, List.find?_isSome, names, List.mem_map]
  simp only [beq_iff_eq]

theorem checkNew_eq_ok_iff : s.checkNew r name = .ok () ↔ name.key ∉ s.names r := by
  rw [← find?_isSome_iff]
  unfold checkNew
  split <;> simp [*]

/-! ## Checks and what follows them -/

theorem declare_eq_ok_iff {c : Bool} {s' : Store} :
    s.declare r name v c = .ok s' ↔
      s.checkNew r name = .ok () ∧ s' = s.bind r ⟨name.key, v, c⟩ := by
  rw [declare, map_eq_ok_iff]
  exact ⟨fun ⟨_, hnew, hs⟩ => ⟨hnew, hs.symm⟩, fun ⟨hnew, hs⟩ => ⟨(), hnew, hs.symm⟩⟩

theorem declare_eq_error_iff {c : Bool} {e : EvalError} :
    s.declare r name v c = .error e ↔ s.checkNew r name = .error e := by
  rw [declare, map_eq_error_iff]

theorem assign_eq_ok_iff {s' : Store} :
    s.assign r name v = .ok s' ↔
      ∃ owner, s.assignable r name = .ok owner ∧ s' = s.rebind owner name.key v := by
  rw [assign, map_eq_ok_iff]
  simp only [eq_comm]

theorem assign_eq_error_iff {e : EvalError} :
    s.assign r name v = .error e ↔ s.assignable r name = .error e := by
  rw [assign, map_eq_error_iff]

/-! ## Declaring -/

@[simp] theorem has_bind : (s.bind r b).Has r' ↔ s.Has r' := by simp [Has, bind]

theorem scope_bind_of_ne (h : r' ≠ r) :
    (s.bind r b).scopes[r'.index]? = s.scopes[r'.index]? := by
  simp [bind, Array.getElem?_modify, index_ne h]

@[simp] theorem parent?_bind : (s.bind r b).parent? r' = s.parent? r' := by
  unfold parent? bind
  rw [Array.getElem?_modify]
  split
  · cases s.scopes[r'.index]? <;> rfl
  · rfl

theorem bindings_bind_of_ne (h : r' ≠ r) : (s.bind r b).bindings r' = s.bindings r' := by
  rw [bindings, scope_bind_of_ne h, bindings]

theorem bindings_bind_self (h : s.Has r) : (s.bind r b).bindings r = s.bindings r ++ [b] := by
  unfold bindings bind
  rw [Array.getElem?_modify, if_pos rfl, Array.getElem?_eq_getElem h]
  rfl

/-- A declaration adds a binding at the end, or none at all in a scope that does not exist. -/
theorem bindings_bind (s : Store) (r r' : ScopeRef) (b : Binding) :
    (s.bind r b).bindings r' = s.bindings r' ∨
      r' = r ∧ (s.bind r b).bindings r' = s.bindings r' ++ [b] := by
  by_cases h : r' = r
  · by_cases hr : s.Has r
    · exact Or.inr ⟨h, by rw [h]; exact bindings_bind_self hr⟩
    · left
      rw [h, bindings_eq_nil hr]
      exact bindings_eq_nil (mt has_bind.1 hr)
  · exact Or.inl (bindings_bind_of_ne h)

theorem mem_bindings_bind {b' : Binding} (h : b' ∈ (s.bind r b).bindings r') :
    b' ∈ s.bindings r' ∨ r' = r ∧ b' = b := by
  rcases bindings_bind s r r' b with hb | ⟨hr, hb⟩
  · exact Or.inl (hb ▸ h)
  · rw [hb, List.mem_append, List.mem_singleton] at h
    exact h.imp_right fun h => ⟨hr, h⟩

/-! ## Assigning -/

@[simp] theorem has_rebind : (s.rebind r key v).Has r' ↔ s.Has r' := by simp [Has, rebind]

theorem scope_rebind_of_ne (h : r' ≠ r) :
    (s.rebind r key v).scopes[r'.index]? = s.scopes[r'.index]? := by
  simp [rebind, Array.getElem?_modify, index_ne h]

@[simp] theorem parent?_rebind : (s.rebind r key v).parent? r' = s.parent? r' := by
  unfold parent? rebind
  rw [Array.getElem?_modify]
  split
  · cases s.scopes[r'.index]? <;> rfl
  · rfl

theorem bindings_rebind_of_ne (h : r' ≠ r) :
    (s.rebind r key v).bindings r' = s.bindings r' := by
  rw [bindings, scope_rebind_of_ne h, bindings]

theorem bindings_rebind_self :
    (s.rebind r key v).bindings r =
      (s.bindings r).map fun b => if b.name = key then { b with value := v } else b := by
  unfold bindings rebind
  rw [Array.getElem?_modify, if_pos rfl]
  cases s.scopes[r.index]? <;> rfl

theorem mem_bindings_rebind {b' : Binding} (h : b' ∈ (s.rebind r key v).bindings r') :
    b' ∈ s.bindings r' ∨ r' = r ∧ b'.value = v := by
  by_cases hr : r' = r
  · rw [hr, bindings_rebind_self] at h
    obtain ⟨b, hb, rfl⟩ := List.mem_map.1 h
    split
    · exact Or.inr ⟨hr, rfl⟩
    · exact Or.inl (hr ▸ hb)
  · exact Or.inl (bindings_rebind_of_ne hr ▸ h)

@[simp] theorem names_rebind : (s.rebind r key v).names r' = s.names r' := by
  unfold names
  by_cases h : r' = r
  · rw [h, bindings_rebind_self, List.map_map]
    refine List.map_congr_left fun b _ => ?_
    simp only [Function.comp_apply]
    split <;> rfl
  · rw [bindings_rebind_of_ne h]

/-! ## New scopes -/

theorem has_addScope {p : Option ScopeRef} (h : s.Has r) : (s.addScope p).2.Has r := by
  simp only [Has, addScope, Array.size_push] at h ⊢
  omega

theorem scope_addScope {p : Option ScopeRef} (h : s.Has r) :
    (s.addScope p).2.scopes[r.index]? = s.scopes[r.index]? := by
  unfold addScope
  exact Array.getElem?_push_lt h |>.trans (Array.getElem?_eq_getElem h).symm

theorem parent?_addScope {p : Option ScopeRef} (h : s.Has r) :
    (s.addScope p).2.parent? r = s.parent? r := by
  rw [parent?, scope_addScope h, parent?]

theorem bindings_addScope {p : Option ScopeRef} : (s.addScope p).2.bindings r = s.bindings r := by
  by_cases h : s.Has r
  · rw [bindings, scope_addScope h, bindings]
  · rw [bindings_eq_nil h]
    unfold bindings addScope
    rw [Array.getElem?_push]
    split
    · rfl
    · rw [scope_eq_none h]; rfl

/-! ## Arrays -/

theorem array_index_inj {a a' : ArrayRef} (h : a.index = a'.index) : a' = a := by
  cases a; cases a'
  exact congrArg ArrayRef.mk h.symm

theorem mem_items_setItem {a a' : ArrayRef} {i : Nat} {w : Value}
    (h : w ∈ (s.setItem a i v).items a') : w ∈ s.items a' ∨ a' = a ∧ w = v := by
  unfold items setItem at h
  rw [Array.getElem?_modify] at h
  split at h
  · next ha =>
    cases hs : s.arrays[a'.index]? with
    | none => simp [hs] at h
    | some content =>
      simp only [hs, Option.map_some, Option.getD_some] at h
      rcases Array.mem_or_eq_of_mem_setIfInBounds h with h | h
      · left; simpa [items, hs] using h
      · exact Or.inr ⟨array_index_inj ha, h⟩
  · exact Or.inl h

theorem mem_items_addArray {content : Array Value} {a : ArrayRef}
    (h : v ∈ (s.addArray content).2.items a) :
    v ∈ s.items a ∨ a = (s.addArray content).1 ∧ v ∈ content := by
  unfold items addArray at h
  rw [Array.getElem?_push] at h
  split at h
  · next hi => exact Or.inr ⟨by rw [addArray, ← hi], h⟩
  · exact Or.inl h

/-! ## Chains of scopes -/

/-- The scopes around a scope depend on the parents only. -/
theorem chainFrom_congr {s s' : Store} (h : ∀ r, s'.parent? r = s.parent? r) (rounds : Nat)
    (r : ScopeRef) : s'.chainFrom rounds r = s.chainFrom rounds r := by
  induction rounds generalizing r with
  | zero => rfl
  | succ rounds ih =>
    unfold chainFrom
    rw [h r]
    cases s.parent? r with
    | none => rfl
    | some p => simp only [ih p]

theorem chain_congr {s s' : Store} (h : ∀ r, s'.parent? r = s.parent? r) (r : ScopeRef) :
    s'.chain r = s.chain r :=
  chainFrom_congr h _ r

theorem resolve?_isSome {owner : ScopeRef} (h : s.resolve? r key = some owner) :
    (s.find? owner key).isSome := by
  simpa using List.find?_some h

theorem resolve?_mem_chain {owner : ScopeRef} (h : s.resolve? r key = some owner) :
    owner ∈ s.chain r :=
  List.mem_of_find?_eq_some h

/-- A name has a value as soon as a scope of the chain binds it. -/
theorem lookup_of_mem_chain {owner : ScopeRef} (hm : owner ∈ s.chain r)
    (hf : (s.find? owner name.key).isSome) : ∃ v, s.lookup r name = .ok v := by
  have hs : (s.resolve? r name.key).isSome := by
    rw [resolve?, List.find?_isSome]
    exact ⟨owner, hm, hf⟩
  obtain ⟨owner', ho⟩ := Option.isSome_iff_exists.1 hs
  obtain ⟨b, hb⟩ := Option.isSome_iff_exists.1 (resolve?_isSome ho)
  exact ⟨b.value, by simp [lookup, ho, hb]⟩

/-- A value that is found is the one of a binding in a scope of the chain. -/
theorem lookup_eq_ok (h : s.lookup r name = .ok v) :
    ∃ owner b,
      s.resolve? r name.key = some owner ∧ s.find? owner name.key = some b ∧ b.value = v := by
  unfold lookup at h
  split at h
  · next b hb =>
    obtain ⟨owner, ho, hb⟩ := Option.bind_eq_some_iff.1 hb
    exact ⟨owner, b, ho, hb, Except.ok.inj h⟩
  · cases h

/-- A name can be assigned to in a scope of the chain that binds it, not as a constant. -/
theorem assignable_eq_ok {owner : ScopeRef} (h : s.assignable r name = .ok owner) :
    s.resolve? r name.key = some owner ∧
      ∀ b, s.find? owner name.key = some b → b.constant = false := by
  unfold assignable at h
  split at h
  · cases h
  · next o ho =>
    split at h
    · cases h
    · next hc =>
      cases h
      refine ⟨ho, fun b hb => ?_⟩
      simpa [hb] using hc

end BoxScript.Store
