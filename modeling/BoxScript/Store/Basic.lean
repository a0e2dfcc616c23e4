/-
  The store: scopes, arrays and objects.

  Each of the three only ever grows, so a reference stays good.  A scope has a parent,
  which was made before it, and its bindings in the order of declaration.

  * `Store.chain` lists a scope and the scopes around it, innermost first;
  * `Store.resolve?` is the innermost of them that binds a name;
  * `Store.declare`, `Store.assign` and `Store.lookup` bind, rebind and read a name.
-/
import BoxScript.Value.Basic
import BoxScript.Value.Error
import BoxScript.Value.Name

namespace BoxScript

/-- A name, by its key, with its value.  A constant cannot be assigned to. -/
structure Binding where
  name : Key
  value : Value
  constant : Bool
  deriving Repr

/-- A scope: the scope around it, if any, and its bindings in the order of declaration. -/
structure Scope where
  parent : Option ScopeRef
  bindings : List Binding
  deriving Repr

/-- All scopes, arrays and objects of a session. -/
structure Store where
  scopes : Array Scope := #[]
  arrays : Array (Array Value) := #[]
  objects : Array (List (Name × Value)) := #[]
  deriving Repr

namespace Store

/-! ## New scopes, arrays and objects -/

/-- Adds an empty scope. -/
def addScope (s : Store) (parent : Option ScopeRef) : ScopeRef × Store :=
  (⟨s.scopes.size⟩, { s with scopes := s.scopes.push ⟨parent, []⟩ })

/-- Adds an array. -/
def addArray (s : Store) (items : Array Value) : ArrayRef × Store :=
  (⟨s.arrays.size⟩, { s with arrays := s.arrays.push items })

/-- Adds an object. -/
def addObject (s : Store) (entries : List (Name × Value)) : ObjectRef × Store :=
  (⟨s.objects.size⟩, { s with objects := s.objects.push entries })

/-! ## Arrays and objects -/

/-- The elements of an array. -/
def items (s : Store) (r : ArrayRef) : Array Value := s.arrays[r.index]?.getD #[]

/-- The entries of an object. -/
def entries (s : Store) (r : ObjectRef) : List (Name × Value) := s.objects[r.index]?.getD []

/-- Puts a value at a position of an array. -/
def setItem (s : Store) (r : ArrayRef) (position : Nat) (v : Value) : Store :=
  { s with arrays := s.arrays.modify r.index fun items => items.setIfInBounds position v }

/-- The entries with `name` bound to `v`: in the place of an entry of the same key, which keeps
    its name, and else at the end. -/
def insertEntry (entries : List (Name × Value)) (name : Name) (v : Value) :
    List (Name × Value) :=
  match entries with
  | [] => [(name, v)]
  | (n, w) :: rest =>
    if n.key = name.key then (n, v) :: rest else (n, w) :: insertEntry rest name v

/-! ## Scopes -/

/-- The bindings of a scope, in the order of declaration. -/
def bindings (s : Store) (r : ScopeRef) : List Binding :=
  (s.scopes[r.index]?.map Scope.bindings).getD []

/-- The scope around a scope. -/
def parent? (s : Store) (r : ScopeRef) : Option ScopeRef := s.scopes[r.index]?.bind Scope.parent

/-- The binding of a name in a scope itself. -/
def find? (s : Store) (r : ScopeRef) (key : Key) : Option Binding :=
  (s.bindings r).find? fun b => b.name == key

/-- A scope and the scopes around it, innermost first, at most `rounds` of them. -/
def chainFrom (s : Store) : (rounds : Nat) → ScopeRef → List ScopeRef
  | 0, _ => []
  | rounds + 1, r =>
    r :: match s.parent? r with
      | some p => chainFrom s rounds p
      | none => []

/-- A scope and the scopes around it, innermost first.  As a parent was made before its
    children, there are no more of them than the index of the scope tells. -/
def chain (s : Store) (r : ScopeRef) : List ScopeRef := s.chainFrom (r.index + 1) r

/-- The innermost scope around and with `r` that binds the name. -/
def resolve? (s : Store) (r : ScopeRef) (key : Key) : Option ScopeRef :=
  (s.chain r).find? fun scope => (s.find? scope key).isSome

/-! A change of the bindings is checked first and made then. -/

/-- May the name be declared in the scope?  It must not be bound there. -/
def checkNew (s : Store) (r : ScopeRef) (name : Name) : Except EvalError Unit :=
  if (s.find? r name.key).isSome then .error (.duplicateDeclaration name.text) else .ok ()

/-- Adds a binding to a scope. -/
def bind (s : Store) (r : ScopeRef) (b : Binding) : Store :=
  { s with
    scopes := s.scopes.modify r.index fun scope =>
      { scope with bindings := scope.bindings ++ [b] } }

/-- Declares a new name in a scope. -/
def declare (s : Store) (r : ScopeRef) (name : Name) (v : Value) (constant : Bool) :
    Except EvalError Store :=
  (s.checkNew r name).map fun _ => s.bind r ⟨name.key, v, constant⟩

/-- The scope of the chain of `r` in which the name may be assigned to.  The innermost one
    that binds it counts, and it must not hold it as a constant. -/
def assignable (s : Store) (r : ScopeRef) (name : Name) : Except EvalError ScopeRef :=
  match s.resolve? r name.key with
  | none => .error (.unknownVariable name.text)
  | some owner =>
    if (s.find? owner name.key).any Binding.constant then .error (.constantViolation name.text)
    else .ok owner

/-- Binds a name of a scope to another value. -/
def rebind (s : Store) (r : ScopeRef) (key : Key) (v : Value) : Store :=
  { s with
    scopes := s.scopes.modify r.index fun scope =>
      { scope with
        bindings := scope.bindings.map fun b =>
          if b.name = key then { b with value := v } else b } }

/-- Assigns to a name of the chain of `r`. -/
def assign (s : Store) (r : ScopeRef) (name : Name) (v : Value) : Except EvalError Store :=
  (s.assignable r name).map fun owner => s.rebind owner name.key v

/-- The value of a name, as the scope `r` sees it. -/
def lookup (s : Store) (r : ScopeRef) (name : Name) : Except EvalError Value :=
  match (s.resolve? r name.key).bind fun owner => s.find? owner name.key with
  | some b => .ok b.value
  | none => .error (.unknownVariable name.text)

end Store

end BoxScript
