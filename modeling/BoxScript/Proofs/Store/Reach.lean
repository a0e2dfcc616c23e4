/-
  Reachability in a store.

  A place is a scope, an array or an object.  A scope leads to the scope around it and to what
  its bindings refer to, an array to what its elements refer to, an object to what its entries
  refer to; a function refers to the scope that it was declared in.

  * `Store.Leads` is one such step and `Store.Reachable` any number of them from some roots;
  * each operation on a store adds no steps but those of the value that is put into it
    (`leads_bind`, `leads_rebind`, `leads_setItem`, ...), and changes no place but one
    (`sameAt_bind`, `sameAt_rebind`, `sameAt_setItem`, ...).
-/
import BoxScript.Proofs.Store.Operations

namespace BoxScript

/-- A scope, an array or an object of a store. -/
inductive Place where
  | scope (r : ScopeRef)
  | array (r : ArrayRef)
  | object (r : ObjectRef)

/-- The value refers to the place. -/
inductive Value.RefersTo : Value → Place → Prop
  | array (r : ArrayRef) : RefersTo (.array r) (.array r)
  | object (r : ObjectRef) : RefersTo (.object r) (.object r)
  | function (f : Closure) : RefersTo (.function f) (.scope f.scope)

namespace Store

variable {s : Store} {p q : Place}

/-- The place exists. -/
def HasPlace (s : Store) : Place → Prop
  | .scope r => r.index < s.scopes.size
  | .array r => r.index < s.arrays.size
  | .object r => r.index < s.objects.size

/-- Both stores have the same at the place. -/
def SameAt (s s' : Store) : Place → Prop
  | .scope r => s'.scopes[r.index]? = s.scopes[r.index]?
  | .array r => s'.arrays[r.index]? = s.arrays[r.index]?
  | .object r => s'.objects[r.index]? = s.objects[r.index]?

/-- One place leads to another. -/
inductive Leads (s : Store) : Place → Place → Prop
  | parent {r p : ScopeRef} (h : s.parent? r = some p) : Leads s (.scope r) (.scope p)
  | binding {r : ScopeRef} {b : Binding} {q : Place} (h : b ∈ s.bindings r)
      (hq : b.value.RefersTo q) : Leads s (.scope r) q
  | element {r : ArrayRef} {v : Value} {q : Place} (h : v ∈ s.items r) (hq : v.RefersTo q) :
      Leads s (.array r) q
  | entry {r : ObjectRef} {e : Name × Value} {q : Place} (h : e ∈ s.entries r)
      (hq : e.2.RefersTo q) : Leads s (.object r) q

/-- The places that some roots lead to. -/
inductive Reachable (s : Store) (roots : Place → Prop) : Place → Prop
  | root {p : Place} (h : roots p) : Reachable s roots p
  | step {p q : Place} (h : Reachable s roots p) (hq : s.Leads p q) : Reachable s roots q

theorem SameAt.refl (s : Store) (p : Place) : s.SameAt s p := by cases p <;> rfl

theorem SameAt.trans {s' s'' : Store} (h : s.SameAt s' p) (h' : s'.SameAt s'' p) :
    s.SameAt s'' p := by
  cases p <;> exact Eq.trans h' h

/-! ## Bindings -/

theorem leads_bind {r : ScopeRef} {b : Binding} (h : (s.bind r b).Leads p q) :
    s.Leads p q ∨ p = .scope r ∧ b.value.RefersTo q := by
  cases h with
  | parent h => exact Or.inl (.parent (parent?_bind ▸ h))
  | element h hq => exact Or.inl (.element h hq)
  | entry h hq => exact Or.inl (.entry h hq)
  | binding h hq =>
    rcases mem_bindings_bind h with h | ⟨rfl, rfl⟩
    · exact Or.inl (.binding h hq)
    · exact Or.inr ⟨rfl, hq⟩

theorem sameAt_bind {r : ScopeRef} {b : Binding} (h : p ≠ .scope r) : s.SameAt (s.bind r b) p := by
  cases p with
  | scope r' => exact scope_bind_of_ne fun hr => h (by rw [hr])
  | array _ => rfl
  | object _ => rfl

theorem hasPlace_bind {r : ScopeRef} {b : Binding} (h : s.HasPlace p) :
    (s.bind r b).HasPlace p := by
  cases p with
  | scope r' => exact has_bind.2 h
  | array _ => exact h
  | object _ => exact h

theorem leads_rebind {r : ScopeRef} {key : Key} {v : Value}
    (h : (s.rebind r key v).Leads p q) : s.Leads p q ∨ p = .scope r ∧ v.RefersTo q := by
  cases h with
  | parent h => exact Or.inl (.parent (parent?_rebind ▸ h))
  | element h hq => exact Or.inl (.element h hq)
  | entry h hq => exact Or.inl (.entry h hq)
  | binding h hq =>
    rcases mem_bindings_rebind h with h | ⟨rfl, rfl⟩
    · exact Or.inl (.binding h hq)
    · exact Or.inr ⟨rfl, hq⟩

theorem sameAt_rebind {r : ScopeRef} {key : Key} {v : Value} (h : p ≠ .scope r) :
    s.SameAt (s.rebind r key v) p := by
  cases p with
  | scope r' => exact scope_rebind_of_ne fun hr => h (by rw [hr])
  | array _ => rfl
  | object _ => rfl

theorem hasPlace_rebind {r : ScopeRef} {key : Key} {v : Value} (h : s.HasPlace p) :
    (s.rebind r key v).HasPlace p := by
  cases p with
  | scope r' => exact has_rebind.2 h
  | array _ => exact h
  | object _ => exact h

/-! ## Arrays -/

theorem leads_setItem {a : ArrayRef} {i : Nat} {v : Value} (h : (s.setItem a i v).Leads p q) :
    s.Leads p q ∨ p = .array a ∧ v.RefersTo q := by
  cases h with
  | parent h => exact Or.inl (.parent h)
  | binding h hq => exact Or.inl (.binding h hq)
  | entry h hq => exact Or.inl (.entry h hq)
  | element h hq =>
    rcases mem_items_setItem h with h | ⟨rfl, rfl⟩
    · exact Or.inl (.element h hq)
    · exact Or.inr ⟨rfl, hq⟩

theorem sameAt_setItem {a : ArrayRef} {i : Nat} {v : Value} (h : p ≠ .array a) :
    s.SameAt (s.setItem a i v) p := by
  cases p with
  | scope _ => rfl
  | object _ => rfl
  | array a' =>
    have hi : a.index ≠ a'.index := fun hi => h (by rw [array_index_inj hi])
    simp [SameAt, setItem, Array.getElem?_modify, hi]

theorem hasPlace_setItem {a : ArrayRef} {i : Nat} {v : Value} (h : s.HasPlace p) :
    (s.setItem a i v).HasPlace p := by
  cases p with
  | scope _ => exact h
  | object _ => exact h
  | array _ => simpa [HasPlace, setItem] using h

/-! ## New scopes, arrays and objects -/

theorem leads_addScope {parent : ScopeRef} (h : (s.addScope (some parent)).2.Leads p q) :
    s.Leads p q ∨ p = .scope (s.addScope (some parent)).1 ∧ q = .scope parent := by
  cases h with
  | binding h hq => exact Or.inl (.binding (bindings_addScope ▸ h) hq)
  | element h hq => exact Or.inl (.element h hq)
  | entry h hq => exact Or.inl (.entry h hq)
  | @parent r p h =>
    by_cases hr : s.Has r
    · exact Or.inl (.parent (parent?_addScope hr ▸ h))
    · unfold parent? addScope at h
      rw [Array.getElem?_push] at h
      split at h
      · next hi => exact Or.inr ⟨by rw [addScope, ← hi], by cases h; rfl⟩
      · rw [scope_eq_none hr] at h; cases h

theorem leads_addArray {items : Array Value} (h : (s.addArray items).2.Leads p q) :
    s.Leads p q ∨ p = .array (s.addArray items).1 ∧ ∃ v ∈ items, v.RefersTo q := by
  cases h with
  | parent h => exact Or.inl (.parent h)
  | binding h hq => exact Or.inl (.binding h hq)
  | entry h hq => exact Or.inl (.entry h hq)
  | @element r v _ h hq =>
    rcases mem_items_addArray h with h | ⟨rfl, hv⟩
    · exact Or.inl (.element h hq)
    · exact Or.inr ⟨rfl, v, hv, hq⟩

theorem leads_addObject {entries : List (Name × Value)}
    (h : (s.addObject entries).2.Leads p q) :
    s.Leads p q ∨ p = .object (s.addObject entries).1 ∧ ∃ e ∈ entries, e.2.RefersTo q := by
  cases h with
  | parent h => exact Or.inl (.parent h)
  | binding h hq => exact Or.inl (.binding h hq)
  | element h hq => exact Or.inl (.element h hq)
  | @entry r e _ h hq =>
    unfold Store.entries addObject at h
    rw [Array.getElem?_push] at h
    split at h
    · next hi => exact Or.inr ⟨by rw [addObject, ← hi], e, h, hq⟩
    · exact Or.inl (.entry h hq)

/-- Something new leaves what exists as it is. -/
theorem sameAt_new (h : s.HasPlace p) :
    (∀ parent, s.SameAt (s.addScope parent).2 p) ∧ (∀ items, s.SameAt (s.addArray items).2 p) ∧
      ∀ entries, s.SameAt (s.addObject entries).2 p := by
  have hpush : ∀ {α : Type} (xs : Array α) (x : α) {i : Nat}, i < xs.size →
      (xs.push x)[i]? = xs[i]? := fun xs x i hi => by
    rw [Array.getElem?_push, if_neg (Nat.ne_of_lt hi)]
  cases p with
  | scope r => exact ⟨fun _ => hpush _ _ h, fun _ => rfl, fun _ => rfl⟩
  | array r => exact ⟨fun _ => rfl, fun _ => hpush _ _ h, fun _ => rfl⟩
  | object r => exact ⟨fun _ => rfl, fun _ => rfl, fun _ => hpush _ _ h⟩

theorem hasPlace_new (h : s.HasPlace p) :
    (∀ parent, (s.addScope parent).2.HasPlace p) ∧ (∀ items, (s.addArray items).2.HasPlace p) ∧
      ∀ entries, (s.addObject entries).2.HasPlace p := by
  cases p <;> simp only [HasPlace, addScope, addArray, addObject, Array.size_push] at h ⊢ <;>
    exact ⟨fun _ => by omega, fun _ => by omega, fun _ => by omega⟩

end Store

end BoxScript
