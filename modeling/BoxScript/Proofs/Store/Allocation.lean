/-
  New arrays and objects.

  What is made anew comes after what a store has.  If something else was made in between, it comes
  after that, and the references to it are others.

  * `Store.allocate s n`: the store `s` with the new arrays and objects `n`;
  * `Value.past s n`: the value as it is if `n` was made before all that `s` does not have, and
    `Allocation.past s n`: the same for arrays and objects that are made then;
  * `Store.items_past`, `Store.entries_past` and `Store.display?_past`: values have the same
    content and the same text there;
  * `Store.Gives s v`: the value `v` is in `s`, or it is new, or it is no reference.
-/
import BoxScript.Proofs.Store.Scoping

namespace BoxScript

/-- New arrays and objects. -/
structure Allocation where
  arrays : Array (Array Value) := #[]
  objects : Array (List (Name × Value)) := #[]

/-- The store with new arrays and objects, and all else as before. -/
def Store.allocate (s : Store) (n : Allocation) : Store :=
  { s with arrays := s.arrays ++ n.arrays, objects := s.objects ++ n.objects }

/-- The machine with new arrays and objects, and all else as before. -/
def Machine.allocate (m : Machine) (n : Allocation) : Machine :=
  { m with store := m.store.allocate n }

theorem Machine.allocate_inj {m : Machine} {n n' : Allocation} (h : m.allocate n = m.allocate n') :
    n = n' := by
  simp only [allocate, Store.allocate, Machine.mk.injEq, Store.mk.injEq, Array.append_right_inj,
    true_and, and_true] at h
  cases n
  cases n'
  exact congr (congrArg Allocation.mk h.1) h.2

/-! ## References to what is new -/

/-- A reference beyond the first `size` ones, after `more` others were made in between. -/
def indexPast (size more index : Nat) : Nat := if index < size then index else index + more

/-- The same value if `n` was made before all that the store does not have. -/
def Value.past (s : Store) (n : Allocation) : Value → Value
  | .array r => .array ⟨indexPast s.arrays.size n.arrays.size r.index⟩
  | .object r => .object ⟨indexPast s.objects.size n.objects.size r.index⟩
  | v => v

/-- The same entry of an object. -/
def Value.pastEntry (s : Store) (n : Allocation) (e : Name × Value) : Name × Value :=
  (e.1, e.2.past s n)

/-- The same arrays and objects if they are made after `n`. -/
def Allocation.past (new : Allocation) (s : Store) (n : Allocation) : Allocation where
  arrays := new.arrays.map (Array.map (Value.past s n))
  objects := new.objects.map (List.map (Value.pastEntry s n))

variable {s : Store} {n new : Allocation} {v : Value}

theorem Value.past_array (r : ArrayRef) :
    (Value.array r).past s n = .array ⟨indexPast s.arrays.size n.arrays.size r.index⟩ := rfl

theorem Value.past_object (r : ObjectRef) :
    (Value.object r).past s n = .object ⟨indexPast s.objects.size n.objects.size r.index⟩ := rfl

theorem indexPast_new (size more i : Nat) : indexPast size more (size + i) = size + more + i := by
  unfold indexPast
  split <;> omega

theorem Value.typeName_past : (v.past s n).typeName = v.typeName := by cases v <;> rfl

theorem Value.bracketed_past : Store.bracketed (v.past s n) = Store.bracketed v := by
  cases v <;> rfl

/-- What the store has stays where it is. -/
theorem Value.past_of_knows (h : s.Knows v) : v.past s n = v := by
  cases v with
  | array r =>
    have hr : r.index < s.arrays.size := h _ (.array r)
    simp [past, indexPast, hr]
  | object r =>
    have hr : r.index < s.objects.size := h _ (.object r)
    simp [past, indexPast, hr]
  | _ => rfl

/-! ## The content of arrays and objects -/

theorem getElem?_past {α : Type} {xs ys zs : Array α} {f : α → α} (h : ∀ x ∈ xs, f x = x)
    (i : Nat) : (xs ++ ys ++ zs.map f)[indexPast xs.size ys.size i]? = (xs ++ zs)[i]?.map f := by
  unfold indexPast
  split
  · next hi =>
    have hx : f xs[i] = xs[i] := h _ (Array.getElem_mem hi)
    simp [hi, hx, Nat.lt_add_right]
  · next hi =>
    have hi' : xs.size ≤ i := Nat.le_of_not_lt hi
    have hsize : (xs ++ ys).size ≤ i + ys.size := by simpa using hi'
    rw [Array.getElem?_append_right hsize, Array.getElem?_append_right hi', Array.size_append,
      Nat.add_sub_add_right, Array.getElem?_map]

namespace Store

/-- The value is bound in a scope, an element of an array or an entry of an object. -/
inductive Stores (s : Store) (v : Value) : Prop
  | binding {r : ScopeRef} {b : Binding} (h : b ∈ s.bindings r) (hv : b.value = v)
  | element {a : ArrayRef} (h : v ∈ s.items a)
  | entry {o : ObjectRef} {name : Name} (h : (name, v) ∈ s.entries o)

/-- What is stored in a well-formed store refers to what the store has. -/
theorem WellFormed.knows_stored (hs : s.WellFormed) (h : s.Stores v) : s.Knows v := by
  intro p hp
  cases h with
  | binding h hv => exact hs.leads (.binding h (hv ▸ hp))
  | element h => exact hs.leads (.element h hp)
  | entry h => exact hs.leads (.entry h hp)

theorem WellFormed.past_stored (hs : s.WellFormed) (h : s.Stores v) : v.past s n = v :=
  Value.past_of_knows (hs.knows_stored h)

theorem stores_of_mem_arrays {content : Array Value} (h : content ∈ s.arrays) (hv : v ∈ content) :
    s.Stores v := by
  obtain ⟨i, hi⟩ := Array.mem_iff_getElem?.1 h
  exact .element (a := ⟨i⟩) (by simpa [items, hi] using hv)

theorem stores_of_mem_objects {content : List (Name × Value)} {e : Name × Value}
    (h : content ∈ s.objects) (he : e ∈ content) : s.Stores e.2 := by
  obtain ⟨i, hi⟩ := Array.mem_iff_getElem?.1 h
  exact .entry (o := ⟨i⟩) (by simpa [entries, hi] using he)

/-- An array has the same elements, if something else was made before it. -/
theorem items_past (hs : s.WellFormed) (n new : Allocation) (r : ArrayRef) :
    ((s.allocate n).allocate (new.past s n)).items
        ⟨indexPast s.arrays.size n.arrays.size r.index⟩ =
      ((s.allocate new).items r).map (Value.past s n) := by
  have hold : ∀ content ∈ s.arrays, content.map (Value.past s n) = content := fun content h =>
    (Array.map_congr_left fun v hv => hs.past_stored (stores_of_mem_arrays h hv)).trans
      (Array.map_id content)
  unfold items allocate Allocation.past
  simp only [getElem?_past hold]
  cases (s.arrays ++ new.arrays)[r.index]? <;> simp

/-- An object has the same entries, if something else was made before it. -/
theorem entries_past (hs : s.WellFormed) (n new : Allocation) (r : ObjectRef) :
    ((s.allocate n).allocate (new.past s n)).entries
        ⟨indexPast s.objects.size n.objects.size r.index⟩ =
      ((s.allocate new).entries r).map (Value.pastEntry s n) := by
  have hold : ∀ content ∈ s.objects, content.map (Value.pastEntry s n) = content :=
    fun content h => (List.map_congr_left fun e he =>
      congrArg (Prod.mk e.1) (hs.past_stored (stores_of_mem_objects h he))).trans
        (List.map_id content)
  unfold entries allocate Allocation.past
  simp only [getElem?_past hold]
  cases (s.objects ++ new.objects)[r.index]? <;> simp

/-- A value has the same text. -/
theorem display?_past (hs : s.WellFormed) (n new : Allocation) (depth : Nat) (v : Value) :
    ((s.allocate n).allocate (new.past s n)).display? depth (v.past s n) =
      (s.allocate new).display? depth v := by
  induction depth generalizing v with
  | zero => rfl
  | succ depth ih =>
    cases v with
    | array r =>
      simp only [Value.past_array, display?, items_past hs, Array.toList_map, List.mapM_map,
        Function.comp_def, ih, Value.bracketed_past]
    | object r =>
      simp only [Value.past_object, display?, entries_past hs, List.mapM_map, Function.comp_def,
        Value.pastEntry, ih, Value.bracketed_past]
    | _ => rfl

/-- New arrays and objects do not change what a name means. -/
theorem lookup_allocate (r : ScopeRef) (name : Name) :
    (s.allocate n).lookup r name = s.lookup r name := by
  have hparent : ∀ q, (s.allocate n).parent? q = s.parent? q := fun _ => rfl
  refine lookup_congr ?_ fun _ _ => rfl
  unfold resolve?
  rw [chain_congr hparent]
  rfl

/-! One more array or object. -/

theorem addArray_allocate (content : Array Value) :
    (s.allocate n).addArray content =
      (⟨s.arrays.size + n.arrays.size⟩,
        s.allocate { n with arrays := n.arrays.push content }) := by
  simp [addArray, allocate]

theorem addObject_allocate (content : List (Name × Value)) :
    (s.allocate n).addObject content =
      (⟨s.objects.size + n.objects.size⟩,
        s.allocate { n with objects := n.objects.push content }) := by
  simp [addObject, allocate]

theorem insertEntry_past (entries : List (Name × Value)) (name : Name) (v : Value) :
    insertEntry (entries.map (Value.pastEntry s n)) name (v.past s n) =
      (insertEntry entries name v).map (Value.pastEntry s n) := by
  induction entries with
  | nil => rfl
  | cons e entries ih =>
    simp only [List.map_cons, insertEntry, Value.pastEntry] at ih ⊢
    split <;> simp [Value.pastEntry, ih]

/-! ## Values that come from a store -/

/-- The value is no reference, or it is stored in the store, or refers to what is new. -/
inductive Gives (s : Store) : Value → Prop
  | plain {v : Value} (h : v.IsPlain) : Gives s v
  | datum (t : Tree) : Gives s (.datum t)
  | stored {v : Value} (h : s.Stores v) : Gives s v
  | array {r : ArrayRef} (h : s.arrays.size ≤ r.index) : Gives s (.array r)
  | object {r : ObjectRef} (h : s.objects.size ≤ r.index) : Gives s (.object r)

/-- All elements and entries of new arrays and objects are such values. -/
structure Makes (s : Store) (new : Allocation) : Prop where
  element : ∀ content ∈ new.arrays, ∀ v ∈ content, s.Gives v
  entry : ∀ content ∈ new.objects, ∀ e ∈ content, s.Gives e.2

theorem makes_nothing (s : Store) : s.Makes {} := ⟨by simp, by simp⟩

theorem Makes.array (h : s.Makes new) {content : Array Value} (hv : ∀ v ∈ content, s.Gives v) :
    s.Makes { new with arrays := new.arrays.push content } where
  element := by simpa [or_imp, forall_and] using ⟨h.element, hv⟩
  entry := h.entry

theorem Makes.object (h : s.Makes new) {content : List (Name × Value)}
    (he : ∀ e ∈ content, s.Gives e.2) :
    s.Makes { new with objects := new.objects.push content } where
  element := h.element
  entry := by
    intro entries hentries
    rcases Array.mem_push.1 hentries with hold | rfl
    · exact h.entry entries hold
    · exact he

/-- What an array holds then is such a value too. -/
theorem Makes.gives_item (h : s.Makes new) {r : ArrayRef} (hv : v ∈ (s.allocate new).items r) :
    s.Gives v := by
  unfold items allocate at hv
  cases hr : (s.arrays ++ new.arrays)[r.index]? with
  | none => simp [hr] at hv
  | some content =>
    simp only [hr, Option.getD_some] at hv
    rcases Array.mem_append.1 (Array.mem_of_getElem? hr) with hold | hnew
    · exact .stored (stores_of_mem_arrays hold hv)
    · exact h.element content hnew v hv

end Store

/-! ## Runs -/

namespace Run

variable {m : Machine}

theorem newArray_allocate (vs : List Value) :
    newArray vs (m.allocate n) =
      .ok (.array ⟨m.store.arrays.size + n.arrays.size⟩)
        (m.allocate { n with arrays := n.arrays.push vs.toArray }) := by
  have hadd := Store.addArray_allocate (s := m.store) (n := n) vs.toArray
  show EStateM.Result.ok (Value.array ((m.store.allocate n).addArray vs.toArray).1)
    { m with store := ((m.store.allocate n).addArray vs.toArray).2 } = _
  rw [hadd]
  rfl

theorem newObject_allocate (entries : List (Name × Value)) :
    newObject entries (m.allocate n) =
      .ok (.object ⟨m.store.objects.size + n.objects.size⟩)
        (m.allocate { n with objects := n.objects.push entries }) := by
  have hadd := Store.addObject_allocate (s := m.store) (n := n) entries
  show EStateM.Result.ok (Value.object ((m.store.allocate n).addObject entries).1)
    { m with store := ((m.store.allocate n).addObject entries).2 } = _
  rw [hadd]
  rfl

end Run

end BoxScript
