/-
  A change of the statements of all functions.

  * `Value.mapBodies g` and `Store.mapBodies g`: each statement of each function is changed by `g`,
    in a value and in all scopes, arrays and objects;
  * `Store.Like.eq_mapBodies`: stores that are alike, with statements that correspond by a function,
    differ by such a change;
  * `Store.start_like`: the store of a new session, which has no functions of a program, is like
    itself whatever statements correspond.
-/
import BoxScript.Eval.Session
import BoxScript.Proofs.Store.Likeness

namespace BoxScript

/-- The function with each of its statements changed. -/
def Closure.mapBody (g : Tree → Tree) (f : Closure) : Closure := { f with body := f.body.map g }

/-- The value; if it is a function, with each of its statements changed. -/
def Value.mapBodies (g : Tree → Tree) : Value → Value
  | .function f => .function (f.mapBody g)
  | v => v

def Binding.mapBodies (g : Tree → Tree) (b : Binding) : Binding :=
  { b with value := b.value.mapBodies g }

def Scope.mapBodies (g : Tree → Tree) (scope : Scope) : Scope :=
  { scope with bindings := scope.bindings.map (Binding.mapBodies g) }

/-- The store with the statements of all functions changed. -/
def Store.mapBodies (g : Tree → Tree) (s : Store) : Store where
  scopes := s.scopes.map (Scope.mapBodies g)
  arrays := s.arrays.map fun items => items.map (Value.mapBodies g)
  objects := s.objects.map fun entries => entries.map fun e => (e.1, e.2.mapBodies g)

section

variable {T : Tree → Tree → Prop} {g : Tree → Tree}

theorem Value.Like.eq_mapBodies (hT : ∀ t t', T t t' → t' = g t) {v v' : Value}
    (h : v.Like T v') : v' = v.mapBodies g := by
  cases h with
  | @function f f' h =>
    obtain ⟨name', params', body', scope'⟩ := f'
    obtain rfl : name' = f.name := h.name
    obtain rfl : params' = f.params := h.params
    obtain rfl : scope' = f.scope := h.scope
    obtain rfl : body' = f.body.map g := forall₂_eq_map hT h.body
    rfl
  | _ => rfl

theorem Binding.Like.eq_mapBodies (hT : ∀ t t', T t t' → t' = g t) {b b' : Binding}
    (h : b.Like T b') : b' = b.mapBodies g := by
  obtain ⟨name', value', constant'⟩ := b'
  obtain rfl : name' = b.name := h.name
  obtain rfl : constant' = b.constant := h.constant
  obtain rfl : value' = b.value.mapBodies g := h.value.eq_mapBodies hT
  rfl

theorem Scope.Like.eq_mapBodies (hT : ∀ t t', T t t' → t' = g t) {scope scope' : Scope}
    (h : scope.Like T scope') : scope' = scope.mapBodies g := by
  obtain ⟨parent', bindings'⟩ := scope'
  obtain rfl : parent' = scope.parent := h.parent
  obtain rfl : bindings' = scope.bindings.map (Binding.mapBodies g) :=
    forall₂_eq_map (fun _ _ hb => hb.eq_mapBodies hT) h.bindings
  rfl

theorem EntryLike.eq_mapBodies (hT : ∀ t t', T t t' → t' = g t) {e e' : Name × Value}
    (h : EntryLike T e e') : e' = (e.1, e.2.mapBodies g) :=
  Prod.ext h.1 (h.2.eq_mapBodies hT)

/-- **Stores that are alike differ by a change of statements**, if statements correspond by a
    function. -/
theorem Store.Like.eq_mapBodies (hT : ∀ t t', T t t' → t' = g t) {s s' : Store}
    (h : s.Like T s') : s' = s.mapBodies g := by
  have hscopes : s'.scopes = s.scopes.map (Scope.mapBodies g) := by
    apply Array.toList_inj.1
    rw [Array.toList_map]
    exact forall₂_eq_map (fun _ _ hscope => hscope.eq_mapBodies hT) h.scopes
  have harrays : s'.arrays = s.arrays.map fun items => items.map (Value.mapBodies g) := by
    apply Array.toList_inj.1
    rw [Array.toList_map]
    refine forall₂_eq_map (fun items items' hitems => ?_) h.arrays
    apply Array.toList_inj.1
    rw [Array.toList_map]
    exact forall₂_eq_map (fun _ _ hv => hv.eq_mapBodies hT) hitems
  have hobjects : s'.objects = s.objects.map fun entries =>
      entries.map fun e => (e.1, e.2.mapBodies g) := by
    apply Array.toList_inj.1
    rw [Array.toList_map]
    refine forall₂_eq_map (fun entries entries' hentries => ?_) h.objects
    exact forall₂_eq_map (fun _ _ he => he.eq_mapBodies hT) hentries
  obtain ⟨scopes', arrays', objects'⟩ := s'
  subst hscopes harrays hobjects
  rfl

end

/-- There are no functions of a program at the start, so all values are the same. -/
theorem Store.start_like (T : Tree → Tree → Prop) : Store.start.Like T Store.start := by
  refine ⟨.cons ⟨rfl, ?_⟩ .nil, .nil, .nil⟩
  rw [List.forall₂_map_left_iff, List.forall₂_map_right_iff, List.forall₂_same]
  intro p hp
  simp only [Native.prelude, List.mem_cons, List.not_mem_nil, or_false] at hp
  rcases hp with rfl | rfl | rfl | rfl | rfl
  · exact ⟨rfl, .native _, rfl⟩
  · exact ⟨rfl, .native _, rfl⟩
  · exact ⟨rfl, .native _, rfl⟩
  · exact ⟨rfl, .native _, rfl⟩
  · exact ⟨rfl, .null, rfl⟩

end BoxScript
