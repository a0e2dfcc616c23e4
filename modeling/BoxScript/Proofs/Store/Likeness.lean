/-
  Stores that are alike: the same but for the bodies of functions.

  Two programs that differ somewhere store functions that differ in their bodies.  Nothing else
  in a store depends on the text of a program, so the two stores have the same scopes with the
  same names, and the same arrays and objects.  `T` tells which statements correspond.

  * `Value.Like T`, `Binding.Like T` and `Store.Like T`: the same but for statements, which
    correspond by `T`;
  * each operation on stores keeps likeness, and each question has the same answer;
  * `Store.Like.display?`: a text that is found in one store is found in the other one, also with
    a higher limit on the depth;
  * `Store.like_eq_iff`: with `Eq` for `T`, alike means equal.
-/
import Mathlib.Tactic.MkIffOfInductiveProp
import BoxScript.Proofs.Agreement
import BoxScript.Proofs.Lists
import BoxScript.Proofs.Store.Operations
import BoxScript.Store.Display

namespace BoxScript

variable {T : Tree → Tree → Prop}

/-! ## Values and stores -/

/-- The functions differ in their bodies only. -/
@[mk_iff] structure Closure.Like (T : Tree → Tree → Prop) (f f' : Closure) : Prop where
  name : f'.name = f.name
  params : f'.params = f.params
  body : List.Forall₂ T f.body f'.body
  scope : f'.scope = f.scope

/-- The values are the same, or functions that are alike. -/
inductive Value.Like (T : Tree → Tree → Prop) : Value → Value → Prop
  | null : Like T .null .null
  | boolean (b : Bool) : Like T (.boolean b) (.boolean b)
  | number (x : Float) : Like T (.number x) (.number x)
  | string (s : String) : Like T (.string s) (.string s)
  | array (r : ArrayRef) : Like T (.array r) (.array r)
  | object (r : ObjectRef) : Like T (.object r) (.object r)
  | function {f f' : Closure} (h : f.Like T f') : Like T (.function f) (.function f')
  | native (f : Native) : Like T (.native f) (.native f)
  | datum (t : Tree) : Like T (.datum t) (.datum t)

/-- Bindings of the same name to values that are alike. -/
@[mk_iff] structure Binding.Like (T : Tree → Tree → Prop) (b b' : Binding) : Prop where
  name : b'.name = b.name
  value : b.value.Like T b'.value
  constant : b'.constant = b.constant

/-- Entries of the same name with values that are alike. -/
def EntryLike (T : Tree → Tree → Prop) (e e' : Name × Value) : Prop :=
  e'.1 = e.1 ∧ e.2.Like T e'.2

/-- Scopes inside the same one, with bindings that are alike. -/
@[mk_iff] structure Scope.Like (T : Tree → Tree → Prop) (scope scope' : Scope) : Prop where
  parent : scope'.parent = scope.parent
  bindings : List.Forall₂ (Binding.Like T) scope.bindings scope'.bindings

/-- The stores are the same but for the bodies of functions. -/
@[mk_iff] structure Store.Like (T : Tree → Tree → Prop) (s s' : Store) : Prop where
  scopes : List.Forall₂ (Scope.Like T) s.scopes.toList s'.scopes.toList
  arrays : List.Forall₂ (fun items items' => List.Forall₂ (Value.Like T) items.toList items'.toList)
    s.arrays.toList s'.arrays.toList
  objects : List.Forall₂ (List.Forall₂ (EntryLike T)) s.objects.toList s'.objects.toList

namespace Value.Like

variable {v v' : Value}

theorem typeName (h : v.Like T v') : v'.typeName = v.typeName := by cases h <;> rfl

theorem isTruthy (h : v.Like T v') : v'.isTruthy = v.isTruthy := by cases h <;> rfl

theorem bracketed (h : v.Like T v') (text : String) :
    Store.bracketed v' text = Store.bracketed v text := by
  cases h <;> rfl

theorem ofContent (t : Tree) : (Value.ofContent t).Like T (Value.ofContent t) := by
  unfold Value.ofContent
  split <;> constructor

end Value.Like

namespace Store

/-! ## What is read -/

namespace Like

variable {s s' : Store}

theorem scopes_size (h : s.Like T s') : s'.scopes.size = s.scopes.size := by
  simpa using h.scopes.length_eq.symm

theorem arrays_size (h : s.Like T s') : s'.arrays.size = s.arrays.size := by
  simpa using h.arrays.length_eq.symm

theorem objects_size (h : s.Like T s') : s'.objects.size = s.objects.size := by
  simpa using h.objects.length_eq.symm

theorem scope (h : s.Like T s') (r : ScopeRef) :
    Option.Rel (Scope.Like T) s.scopes[r.index]? s'.scopes[r.index]? := by
  simpa using h.scopes.getElem? r.index

theorem parent? (h : s.Like T s') (r : ScopeRef) : s'.parent? r = s.parent? r := by
  unfold Store.parent?
  match s.scopes[r.index]?, s'.scopes[r.index]?, h.scope r with
  | _, _, .none => rfl
  | _, _, .some hscope => exact hscope.parent

theorem bindings (h : s.Like T s') (r : ScopeRef) :
    List.Forall₂ (Binding.Like T) (s.bindings r) (s'.bindings r) := by
  unfold Store.bindings
  match s.scopes[r.index]?, s'.scopes[r.index]?, h.scope r with
  | _, _, .none => exact .nil
  | _, _, .some hscope => exact hscope.bindings

theorem items (h : s.Like T s') (a : ArrayRef) :
    List.Forall₂ (Value.Like T) (s.items a).toList (s'.items a).toList := by
  have hrel := h.arrays.getElem? a.index
  rw [Array.getElem?_toList, Array.getElem?_toList] at hrel
  unfold Store.items
  match s.arrays[a.index]?, s'.arrays[a.index]?, hrel with
  | _, _, .none => exact .nil
  | _, _, .some hitems => exact hitems

theorem entries (h : s.Like T s') (o : ObjectRef) :
    List.Forall₂ (EntryLike T) (s.entries o) (s'.entries o) := by
  have hrel := h.objects.getElem? o.index
  rw [Array.getElem?_toList, Array.getElem?_toList] at hrel
  unfold Store.entries
  match s.objects[o.index]?, s'.objects[o.index]?, hrel with
  | _, _, .none => exact .nil
  | _, _, .some hentries => exact hentries

theorem items_size (h : s.Like T s') (a : ArrayRef) : (s'.items a).size = (s.items a).size := by
  simpa using (h.items a).length_eq.symm

theorem item (h : s.Like T s') (a : ArrayRef) (i : Nat) :
    ((s.items a)[i]?.getD .null).Like T ((s'.items a)[i]?.getD .null) := by
  have hrel := (h.items a).getElem? i
  rw [Array.getElem?_toList, Array.getElem?_toList] at hrel
  match (s.items a)[i]?, (s'.items a)[i]?, hrel with
  | _, _, .none => exact .null
  | _, _, .some hitem => exact hitem

theorem find? (h : s.Like T s') (r : ScopeRef) (key : Key) :
    Option.Rel (Binding.Like T) (s.find? r key) (s'.find? r key) :=
  (h.bindings r).find? fun _ _ hb => by rw [hb.name]

theorem find?_isSome (h : s.Like T s') (r : ScopeRef) (key : Key) :
    (s'.find? r key).isSome = (s.find? r key).isSome := by
  match s.find? r key, s'.find? r key, h.find? r key with
  | _, _, .none => rfl
  | _, _, .some _ => rfl

theorem resolve? (h : s.Like T s') (r : ScopeRef) (key : Key) :
    s'.resolve? r key = s.resolve? r key := by
  unfold Store.resolve?
  simp only [chain_congr h.parent?, h.find?_isSome]

theorem checkNew (h : s.Like T s') (r : ScopeRef) (name : Name) :
    s'.checkNew r name = s.checkNew r name := by
  unfold Store.checkNew
  rw [h.find?_isSome]

theorem assignable (h : s.Like T s') (r : ScopeRef) (name : Name) :
    s'.assignable r name = s.assignable r name := by
  unfold Store.assignable
  rw [h.resolve?]
  cases s.resolve? r name.key with
  | none => rfl
  | some owner =>
    have hconstant : (s'.find? owner name.key).any Binding.constant =
        (s.find? owner name.key).any Binding.constant := by
      match s.find? owner name.key, s'.find? owner name.key, h.find? owner name.key with
      | _, _, .none => rfl
      | _, _, .some hb => exact hb.constant
    simp only [hconstant]

/-- The name has values that are alike, or it is unknown in both stores. -/
theorem lookup {E : EvalError → EvalError → Prop} (h : s.Like T s') (hE : ∀ e, E e e)
    (r : ScopeRef) (name : Name) :
    Matches E (Value.Like T) (s.lookup r name) (s'.lookup r name) := by
  unfold Store.lookup
  rw [h.resolve?]
  cases s.resolve? r name.key with
  | none => exact .error (hE _)
  | some owner =>
    simp only [Option.bind_some]
    match s.find? owner name.key, s'.find? owner name.key, h.find? owner name.key with
    | _, _, .none => exact .error (hE _)
    | _, _, .some hb => exact .ok hb.value

end Like

/-! ## What is changed -/

theorem insertEntry_like {es es' : List (Name × Value)} {v v' : Value}
    (h : List.Forall₂ (EntryLike T) es es') (hv : v.Like T v') (name : Name) :
    List.Forall₂ (EntryLike T) (insertEntry es name v) (insertEntry es' name v') := by
  induction h with
  | nil => exact .cons ⟨rfl, hv⟩ .nil
  | @cons e e' es es' he hes ih =>
    obtain ⟨n, w⟩ := e
    obtain ⟨n', w'⟩ := e'
    obtain rfl : n' = n := he.1
    unfold insertEntry
    split
    · exact .cons ⟨rfl, hv⟩ hes
    · exact .cons he ih

namespace Like

variable {s s' : Store}

theorem addScope (h : s.Like T s') (p : Option ScopeRef) :
    (s'.addScope p).1 = (s.addScope p).1 ∧ (s.addScope p).2.Like T (s'.addScope p).2 := by
  unfold Store.addScope
  rw [h.scopes_size]
  refine ⟨rfl, ⟨?_, h.arrays, h.objects⟩⟩
  simpa using List.rel_append h.scopes (.cons ⟨rfl, .nil⟩ .nil)

theorem addArray {items items' : List Value} (h : s.Like T s')
    (hitems : List.Forall₂ (Value.Like T) items items') :
    (s'.addArray items'.toArray).1 = (s.addArray items.toArray).1 ∧
      (s.addArray items.toArray).2.Like T (s'.addArray items'.toArray).2 := by
  unfold Store.addArray
  rw [h.arrays_size]
  refine ⟨rfl, ⟨h.scopes, ?_, h.objects⟩⟩
  simpa using List.rel_append h.arrays (.cons hitems .nil)

theorem addObject {es es' : List (Name × Value)} (h : s.Like T s')
    (hes : List.Forall₂ (EntryLike T) es es') :
    (s'.addObject es').1 = (s.addObject es).1 ∧
      (s.addObject es).2.Like T (s'.addObject es').2 := by
  unfold Store.addObject
  rw [h.objects_size]
  refine ⟨rfl, ⟨h.scopes, h.arrays, ?_⟩⟩
  simpa using List.rel_append h.objects (.cons hes .nil)

theorem bind {b b' : Binding} (h : s.Like T s') (r : ScopeRef) (hb : b.Like T b') :
    (s.bind r b).Like T (s'.bind r b') := by
  refine ⟨?_, h.arrays, h.objects⟩
  simp only [Store.bind, Array.toList_modify]
  refine h.scopes.modify (fun scope scope' hscope => ?_) r.index
  exact ⟨hscope.parent, List.rel_append hscope.bindings (.cons hb .nil)⟩

theorem rebind {v v' : Value} (h : s.Like T s') (r : ScopeRef) (key : Key)
    (hv : v.Like T v') : (s.rebind r key v).Like T (s'.rebind r key v') := by
  refine ⟨?_, h.arrays, h.objects⟩
  simp only [Store.rebind, Array.toList_modify]
  refine h.scopes.modify (fun scope scope' hscope => ?_) r.index
  refine ⟨hscope.parent, List.rel_map (fun b b' hb => ?_) hscope.bindings⟩
  rw [hb.name]
  split
  · exact ⟨rfl, hv, hb.constant⟩
  · exact hb

/-- A name can be declared in both stores, which stay alike, or in neither. -/
theorem declare {E : EvalError → EvalError → Prop} {v v' : Value} (h : s.Like T s')
    (hE : ∀ e, E e e) (r : ScopeRef) (name : Name) (constant : Bool) (hv : v.Like T v') :
    Matches E (Store.Like T) (s.declare r name v constant) (s'.declare r name v' constant) := by
  unfold Store.declare
  rw [h.checkNew]
  cases s.checkNew r name with
  | error e => exact .error (hE e)
  | ok _ => exact .ok (h.bind r ⟨rfl, hv, rfl⟩)

/-- A name can be assigned to in both stores, which stay alike, or in neither. -/
theorem assign {E : EvalError → EvalError → Prop} {v v' : Value} (h : s.Like T s')
    (hE : ∀ e, E e e) (r : ScopeRef) (name : Name) (hv : v.Like T v') :
    Matches E (Store.Like T) (s.assign r name v) (s'.assign r name v') := by
  unfold Store.assign
  rw [h.assignable]
  cases s.assignable r name with
  | error e => exact .error (hE e)
  | ok owner => exact .ok (h.rebind owner name.key hv)

theorem setItem {v v' : Value} (h : s.Like T s') (a : ArrayRef) (i : Nat) (hv : v.Like T v') :
    (s.setItem a i v).Like T (s'.setItem a i v') := by
  refine ⟨h.scopes, ?_, h.objects⟩
  simp only [Store.setItem, Array.toList_modify]
  refine h.arrays.modify (fun items items' hitems => ?_) a.index
  simpa using hitems.set hv i

end Like

end Store

/-! ## Texts -/

/-- A text that is found with some depth is found with every larger one. -/
theorem Tree.inspect_mono {depth depth' : Nat} (hd : depth ≤ depth') {t : Tree} {text : String}
    (h : t.inspect depth = some text) : t.inspect depth' = some text := by
  induction depth generalizing depth' t text with
  | zero => cases h
  | succ depth ih =>
    obtain ⟨d, rfl⟩ : ∃ d, depth' = d + 1 := ⟨depth' - 1, by omega⟩
    have hparts : ∀ {ts : List Tree} {texts : List String},
        ts.mapM (inspect depth) = some texts → ts.mapM (inspect d) = some texts := by
      intro ts texts hts
      refine (List.forall₂_refl ts).mapM_eq_some (R := Eq) (fun a b c hab hc => ?_) hts
      exact ih (by omega) (hab ▸ hc)
    unfold inspect at h ⊢
    split at h
    · simp only [Option.bind_eq_bind, Option.bind_eq_some_iff] at h ⊢
      obtain ⟨texts, htexts, htext⟩ := h
      exact ⟨texts, hparts htexts, htext⟩
    · simp only [Option.bind_eq_bind, Option.bind_eq_some_iff] at h ⊢
      obtain ⟨texts, htexts, htext⟩ := h
      exact ⟨texts, hparts htexts, htext⟩
    · exact h

theorem Tree.spelling?_mono {depth depth' : Nat} (hd : depth ≤ depth') {t : Tree} {text : String}
    (h : t.spelling? depth = some text) : t.spelling? depth' = some text := by
  unfold spelling? at h ⊢
  split at h
  · exact h
  · exact inspect_mono hd h

namespace Store

/-- **Stores that are alike give the same text.**  A value that has a text with some depth has the
    same one in a store that is alike, with every larger depth. -/
theorem Like.display? {s s' : Store} (h : s.Like T s') {depth depth' : Nat} (hd : depth ≤ depth')
    {v v' : Value} (hv : v.Like T v') {text : String} (htext : s.display? depth v = some text) :
    s'.display? depth' v' = some text := by
  induction depth generalizing depth' v v' text with
  | zero => cases htext
  | succ depth ih =>
    obtain ⟨d, rfl⟩ : ∃ d, depth' = d + 1 := ⟨depth' - 1, by omega⟩
    cases hv with
    | array r =>
      simp only [Store.display?, Option.bind_eq_bind, Option.bind_eq_some_iff] at htext ⊢
      obtain ⟨texts, htexts, htext⟩ := htext
      refine ⟨texts, (h.items r).mapM_eq_some (fun v v' c hv hc => ?_) htexts, htext⟩
      obtain ⟨inner, hinner, rfl⟩ := Option.map_eq_some_iff.1 hc
      rw [ih (by omega) hv hinner, Option.map_some, hv.bracketed]
    | object r =>
      simp only [Store.display?, Option.bind_eq_bind, Option.bind_eq_some_iff] at htext ⊢
      obtain ⟨texts, htexts, htext⟩ := htext
      refine ⟨texts, (h.entries r).mapM_eq_some (fun e e' c he hc => ?_) htexts, htext⟩
      obtain ⟨inner, hinner, rfl⟩ := Option.map_eq_some_iff.1 hc
      rw [ih (by omega) he.2 hinner, Option.map_some, he.2.bracketed, he.1]
    | function hf =>
      simp only [Store.display?, hf.name] at htext ⊢
      exact htext
    | datum t => exact Tree.inspect_mono (by omega) htext
    | _ => exact htext

end Store

/-! ## Likeness that is equality -/

theorem Closure.like_eq_iff {f f' : Closure} : f.Like Eq f' ↔ f' = f := by
  cases f; cases f'
  simp [Closure.like_iff, forall₂_iff_eq eq_comm]

theorem Value.like_eq_iff {v v' : Value} : v.Like Eq v' ↔ v' = v := by
  constructor
  · intro h
    cases h with
    | function h => rw [Closure.like_eq_iff.1 h]
    | _ => rfl
  · rintro rfl
    cases v' with
    | function f => exact .function (Closure.like_eq_iff.2 rfl)
    | _ => constructor

theorem Binding.like_eq_iff {b b' : Binding} : b.Like Eq b' ↔ b' = b := by
  cases b; cases b'
  simp [Binding.like_iff, Value.like_eq_iff]

theorem entryLike_eq_iff {e e' : Name × Value} : EntryLike Eq e e' ↔ e' = e := by
  cases e; cases e'
  simp [EntryLike, Value.like_eq_iff]

theorem Scope.like_eq_iff {scope scope' : Scope} : scope.Like Eq scope' ↔ scope' = scope := by
  cases scope; cases scope'
  simp [Scope.like_iff, forall₂_iff_eq Binding.like_eq_iff]

/-- With equal statements, stores are alike if and only if they are equal. -/
theorem Store.like_eq_iff {s s' : Store} : s.Like Eq s' ↔ s' = s := by
  have hitems : ∀ {items items' : Array Value},
      List.Forall₂ (Value.Like Eq) items.toList items'.toList ↔ items' = items := by
    intro items items'
    rw [forall₂_iff_eq Value.like_eq_iff, Array.toList_inj]
  cases s; cases s'
  simp [Store.like_iff, forall₂_iff_eq Scope.like_eq_iff, forall₂_iff_eq hitems,
    forall₂_iff_eq (forall₂_iff_eq entryLike_eq_iff), Array.toList_inj]

end BoxScript
