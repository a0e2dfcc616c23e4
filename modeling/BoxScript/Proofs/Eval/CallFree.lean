/-
  Expressions without calls.

  Such an expression changes nothing; all that it leaves behind is the arrays and objects that it
  made.  If it is evaluated once more, it makes them once more, after the first ones.

  * `Tree.CallFree`: the expressions that have no call, assignment or statement in them;
  * `Settles x`: a computation with a limit has the same result under all limits that are high
    enough, and `CallFree.settles`: evaluation of these expressions is one;
  * `Retraces b n V x y`: from a machine `b` with `n` made before, `y` does as `x` does from `b`,
    and `CallFree.retraces`: evaluation of these expressions retraces itself;
  * `callFree_allocates`: **an expression without calls has no side effects.**
-/
import BoxScript.Proofs.Store.Allocation
import BoxScript.Proofs.Store.Bodies
import BoxScript.Proofs.Store.Display

namespace BoxScript

/-- An expression without calls, assignments and statements, or a field that is left out. -/
inductive Tree.CallFree : Tree → Prop
  | absent : CallFree .null
  | number (value : Tree) : CallFree (.numberLiteral value)
  | string (value : Tree) : CallFree (.stringLiteral value)
  | boolean (value : Tree) : CallFree (.booleanLiteral value)
  | name (symbol : Tree) : CallFree (.identifier symbol)
  | array {elements : List Tree} (h : ∀ t ∈ elements, CallFree t) :
      CallFree (.arrayLiteral (.list elements))
  | access {array index : Tree} (ha : CallFree array) (hi : CallFree index) :
      CallFree (.arrayAccess array index)
  | object {props : List (Tree × Tree)} (h : ∀ p ∈ props, CallFree p.2) :
      CallFree (.objectExpression (.list (props.map fun p => .property p.1 p.2)))
  | binary (operator : Tree) {left right : Tree} (hl : CallFree left) (hr : CallFree right) :
      CallFree (.binaryExpression operator left right)
  | comparison (operator : Tree) {left right : Tree} (hl : CallFree left) (hr : CallFree right) :
      CallFree (.comparisonExpression operator left right)
  | logical (operator : Tree) {left right : Tree} (hl : CallFree left) (hr : CallFree right) :
      CallFree (.logicalExpression operator left right)
  | unary (operator : Tree) {argument : Tree} (h : CallFree argument) :
      CallFree (.unaryExpression operator argument)
  | conditional {test consequent alternate : Tree} (ht : CallFree test)
      (hc : CallFree consequent) (ha : CallFree alternate) :
      CallFree (.conditionalExpression test consequent alternate)

/-! ## Results that settle -/

section

variable {α β : Type}

/-- Under all limits that are high enough the computation has the same result; if that is an
    overflow, there is a circle in the store. -/
def Settles (x : Nat → Run α) : Prop :=
  ∀ m, ∃ limit result, (∀ depth, limit ≤ depth → x depth m = result) ∧
    ∀ m', result = .error .overflow m' → ∃ v, ¬m'.store.Acyclic v

/-- A computation without a limit settles, if it does not overflow. -/
theorem settles_const {x : Run α} (h : ∀ m m', x m ≠ .error .overflow m') :
    Settles fun _ => x :=
  fun m => ⟨0, x m, fun _ _ => rfl, fun m' hx => absurd hx (h m m')⟩

theorem settles_pure (a : α) : Settles fun _ => (pure a : Run α) :=
  settles_const fun _ _ h => by cases h

theorem settles_fail (e : EvalError) : Settles fun _ => (Run.fail e : Run α) :=
  settles_const fun _ _ h => by cases h

theorem settles_fault (f : Fault) : Settles fun _ => (throw (.fault f) : Run α) :=
  settles_const fun _ _ h => by cases h

theorem Settles.bind {x : Nat → Run α} {f : α → Nat → Run β} (hx : Settles x)
    (hf : ∀ a, Settles (f a)) : Settles fun depth => x depth >>= fun a => f a depth := by
  intro m
  obtain ⟨limit, result, hlimit, hcircle⟩ := hx m
  cases result with
  | error e m' =>
    refine ⟨limit, .error e m', fun depth hd => bind_of_error (hlimit depth hd), fun m'' h => ?_⟩
    cases h
    exact hcircle m' rfl
  | ok a m' =>
    obtain ⟨limit', result', hlimit', hcircle'⟩ := hf a m'
    refine ⟨max limit limit', result', fun depth hd => ?_, hcircle'⟩
    exact (bind_of_ok (hlimit depth (by omega))).trans (hlimit' depth (by omega))

theorem Settles.mapM {l : List α} {f : α → Nat → Run β} (h : ∀ a ∈ l, Settles (f a)) :
    Settles fun depth => l.mapM fun a => f a depth := by
  induction l with
  | nil => exact settles_pure []
  | cons a l ih =>
    simp only [List.mapM_cons]
    refine (h a (by simp)).bind fun b => ?_
    exact (ih fun a' ha' => h a' (by simp [ha'])).bind fun bs => settles_pure (b :: bs)

/-- One level more or less does not matter. -/
theorem Settles.of_succ {x : Nat → Run α} (h : Settles fun depth => x (depth + 1)) :
    Settles x := by
  intro m
  obtain ⟨limit, result, hlimit, hcircle⟩ := h m
  refine ⟨limit + 1, result, fun depth hd => ?_, hcircle⟩
  obtain ⟨d, rfl⟩ : ∃ d, depth = d + 1 := ⟨depth - 1, by omega⟩
  exact hlimit d (by omega)

theorem settles_lookup (r : ScopeRef) (name : Name) : Settles fun _ => Run.lookup r name := by
  refine settles_const fun m m' h => ?_
  cases hlookup : m.store.lookup r name with
  | ok v => rw [Run.lookup_of_ok hlookup] at h; cases h
  | error e => rw [Run.lookup_of_error hlookup] at h; cases h

theorem settles_lift (x : Except EvalError α) : Settles fun _ => Run.lift x := by
  cases x with
  | ok a => exact settles_pure a
  | error e => exact settles_fail e

/-- A value without a circle has a text, and the limit under which it has it does not matter. -/
theorem settles_display (v : Value) : Settles fun depth => Run.display depth v := by
  intro m
  by_cases hv : m.store.Acyclic v
  · obtain ⟨limit, text, htext⟩ := Store.exists_display?_iff_acc.2 hv.acc
    refine ⟨limit, .ok text m, fun depth hd => ?_, fun m' h => by cases h⟩
    exact Run.display_of_some (Store.display?_mono hd htext)
  · have hnone : ∀ depth, m.store.display? depth v = none := fun depth => by
      cases h : m.store.display? depth v with
      | none => rfl
      | some text => exact absurd (Store.acyclic_of_acc (Store.acc_of_display? h)) hv
    refine ⟨0, .error .overflow m, fun depth _ => Run.display_of_none (hnone depth), ?_⟩
    rintro m' ⟨⟩
    exact ⟨v, hv⟩

theorem settles_spelling (t : Tree) : Settles fun depth => Run.spelling depth t := by
  obtain ⟨limit, text, htext⟩ := Tree.exists_spelling t
  refine fun m => ⟨limit, .ok text m, fun depth hd => ?_, fun m' h => by cases h⟩
  show Run.spelling depth t m = _
  rw [Run.spelling_of_some (Tree.spelling?_mono hd htext)]
  rfl

theorem settles_nameOf (t : Tree) : Settles fun depth => Run.nameOf depth t := by
  unfold Run.nameOf
  split
  · exact settles_pure _
  · cases t.key? with
    | none => exact settles_fault _
    | some key => exact (settles_spelling t).bind fun text => settles_pure (Name.mk key text)

theorem settles_position (v : Value) (length : Nat) :
    Settles fun depth => Eval.position depth v length := by
  have hfail : Settles fun depth =>
      (do Run.fail (.indexNotWhole (← Run.display depth v)) : Run Nat) :=
    (settles_display v).bind fun text => settles_fail (.indexNotWhole text)
  cases v with
  | number x =>
    simp only [Eval.position]
    cases Number.whole? x with
    | none => exact hfail
    | some k =>
      by_cases h : 0 ≤ k ∧ k < length
      · simp only [if_pos h]
        exact settles_pure k.toNat
      · simp only [if_neg h]
        exact settles_fail _
  | _ => exact hfail

theorem settles_store : Settles fun _ => Run.store := settles_const fun _ _ h => by cases h

theorem settles_booleanOperand (operator : Tree) (v : Value) :
    Settles fun depth => Eval.booleanOperand depth operator v := by
  cases v with
  | boolean b => exact settles_pure b
  | _ => exact (settles_spelling operator).bind fun _ => settles_fail _

end

namespace Tree.CallFree

variable {cfg : Settings}

theorem settles_access {array index : Tree} {scope : ScopeRef}
    (ha : Settles fun depth => evaluate cfg depth array scope)
    (hi : Settles fun depth => evaluate cfg depth index scope) :
    Settles fun depth => Eval.access depth (evaluate cfg depth) array index scope := by
  have helement : Settles fun depth =>
      Eval.element depth (evaluate cfg depth) array index scope := by
    refine ha.bind fun base => hi.bind fun place => ?_
    cases base with
    | array r =>
      refine settles_store.bind fun s => ?_
      exact (settles_position place (s.items r).size).bind fun i => settles_pure (r, i)
    | _ => exact settles_fail _
  exact helement.bind fun p => settles_store.bind fun s => settles_pure _

theorem settles_logical (operator : Tree) {left right : Tree} {scope : ScopeRef}
    (hl : Settles fun depth => evaluate cfg depth left scope)
    (hr : Settles fun depth => evaluate cfg depth right scope) :
    Settles fun depth => Eval.logical depth (evaluate cfg depth) operator left right scope := by
  have hrest : Settles fun depth => (do
      return Value.boolean
        (← Eval.booleanOperand depth operator (← evaluate cfg depth right scope))) :=
    hr.bind fun v => (settles_booleanOperand operator v).bind fun b =>
      settles_pure (Value.boolean b)
  refine hl.bind fun v => (settles_booleanOperand operator v).bind fun a => ?_
  split
  · exact settles_pure _
  · cases a with
    | true => exact hrest
    | false => exact settles_pure _
  · cases a with
    | true => exact settles_pure _
    | false => exact hrest
  · exact (settles_spelling _).bind fun _ => settles_fail _

theorem settles_property (key : Tree) {value : Tree} {scope : ScopeRef}
    (h : Settles fun depth => evaluate cfg depth value scope) :
    Settles fun depth => Eval.property depth (evaluate cfg depth) key value scope := by
  unfold Eval.property
  cases value.isAbsent with
  | true =>
    exact (settles_nameOf key).bind fun name =>
      (settles_lookup scope name).bind fun v => settles_pure (name, v)
  | false => exact h.bind fun v => (settles_nameOf key).bind fun name => settles_pure (name, v)

theorem settles_properties {props : List (Tree × Tree)} {scope : ScopeRef}
    (h : ∀ p ∈ props, Settles fun depth => evaluate cfg depth p.2 scope)
    (done : List (Name × Value)) :
    Settles fun depth => Eval.properties depth (evaluate cfg depth) scope done
      (props.map fun p => .property p.1 p.2) := by
  induction props generalizing done with
  | nil => exact settles_pure done
  | cons p props ih =>
    simp only [List.map_cons, Eval.properties]
    refine (settles_property p.1 (h p (by simp))).bind ?_
    rintro ⟨name, v⟩
    exact ih (fun q hq => h q (by simp [hq])) (Store.insertEntry done name v)

theorem settles_numberOf (value : Tree) : Settles fun _ => Eval.numberOf value := by
  unfold Eval.numberOf
  split
  · exact settles_pure _
  · exact settles_pure _
  · split
    · exact settles_pure _
    · exact settles_fault _
  · split
    · exact settles_pure _
    · exact settles_fault _
  · exact settles_fault _

/-- **Evaluation settles.** -/
theorem settles {t : Tree} (h : t.CallFree) (scope : ScopeRef) :
    Settles fun depth => evaluate cfg depth t scope := by
  induction h with
  | absent => exact .of_succ (settles_fail _)
  | number value => exact .of_succ (settles_numberOf value)
  | string value | boolean value => exact .of_succ (settles_pure (Value.ofContent value))
  | name symbol =>
    exact .of_succ ((settles_nameOf symbol).bind fun name => settles_lookup scope name)
  | array _ ih =>
    refine .of_succ ((Settles.mapM ih).bind fun vs => ?_)
    exact settles_const fun _ _ h => by cases h
  | access _ _ iha ihi => exact .of_succ (settles_access iha ihi)
  | object _ ih =>
    refine .of_succ ((settles_properties ih []).bind fun entries => ?_)
    exact settles_const fun _ _ h => by cases h
  | binary operator _ _ ihl ihr | comparison operator _ _ ihl ihr =>
    exact .of_succ (ihl.bind fun a => ihr.bind fun b =>
      (settles_nameOf operator).bind fun name => settles_lift _)
  | logical operator _ _ ihl ihr => exact .of_succ (settles_logical operator ihl ihr)
  | unary operator _ ih =>
    exact .of_succ (ih.bind fun a => (settles_nameOf operator).bind fun name => settles_lift _)
  | conditional _ _ _ iht ihc iha =>
    refine .of_succ (iht.bind fun v => ?_)
    cases v with
    | boolean b =>
      cases b with
      | true => exact ihc
      | false => exact iha
    | _ => exact settles_fail _

end Tree.CallFree

/-! ## The same expression again -/

/-- The second run halts for the same reason, which is not that a loop went on for too long. -/
def Halt.Again (e e' : Halt) : Prop := e' = e ∧ e ≠ .unfinished

/-- The value of a run from the store `s`, and that of the run that retraces it after `n`. -/
def Value.Again (s : Store) (n : Allocation) (v v' : Value) : Prop := s.Gives v ∧ v' = v.past s n

/-- Stores in which the same was made after `s`, in the second one with `n` before it. -/
inductive Store.Again (s : Store) (n : Allocation) : Store → Store → Prop
  | made {new : Allocation} (h : s.Makes new) :
      Again s n (s.allocate new) ((s.allocate n).allocate (new.past s n))

/-- Machines in which nothing else was done. -/
inductive Machine.Again (b : Machine) (n : Allocation) : Machine → Machine → Prop
  | made {new : Allocation} (h : b.store.Makes new) :
      Again b n (b.allocate new) ((b.allocate n).allocate (new.past b.store n))

/-- The run `y` with `n` made before does as the run `x` from `b`. -/
abbrev Retraces (b : Machine) (n : Allocation) {α β : Type} (V : α → β → Prop)
    (x : Run α) (y : Run β) : Prop :=
  Follows (fun _ => False) Halt.Again (b.Again n) V x y

section

variable {b : Machine} {n : Allocation} {v v' w w' : Value} {s s' : Store}

theorem retraces_fail {α β : Type} {V : α → β → Prop} (e : EvalError) :
    Retraces b n V (Run.fail e) (Run.fail e) :=
  follows_throw ⟨rfl, by simp⟩

theorem retraces_fault {α β : Type} {V : α → β → Prop} (f : Fault) :
    Retraces b n V (throw (.fault f)) (throw (.fault f)) :=
  follows_throw ⟨rfl, by simp⟩

theorem retraces_plain (h : v.IsPlain) :
    Retraces b n (Value.Again b.store n) (pure v) (pure v) := by
  refine follows_pure ⟨.plain h, ?_⟩
  cases v with
  | array _ | object _ => exact h.elim
  | _ => rfl

theorem retraces_store : Retraces b n (b.store.Again n) Run.store Run.store := by
  rintro _ _ ⟨h⟩
  exact .ok (.made h) (.made h)

theorem retraces_lookup (hb : b.store.WellFormed) (r : ScopeRef) (name : Name) :
    Retraces b n (Value.Again b.store n) (Run.lookup r name) (Run.lookup r name) := by
  rintro _ _ @⟨new, hnew⟩
  have hlookup : (b.allocate new).store.lookup r name = b.store.lookup r name :=
    Store.lookup_allocate r name
  have hlookup' : ((b.allocate n).allocate (new.past b.store n)).store.lookup r name =
      b.store.lookup r name :=
    (Store.lookup_allocate r name).trans (Store.lookup_allocate r name)
  cases h : b.store.lookup r name with
  | ok v =>
    obtain ⟨owner, binding, -, hf, rfl⟩ := Store.lookup_eq_ok h
    have hstored : b.store.Stores binding.value := .binding (List.mem_of_find?_eq_some hf) rfl
    rw [Run.lookup_of_ok (hlookup.trans h), Run.lookup_of_ok (hlookup'.trans h)]
    exact .ok ⟨.stored hstored, (hb.past_stored hstored).symm⟩ (.made hnew)
  | error e =>
    rw [Run.lookup_of_error (hlookup.trans h), Run.lookup_of_error (hlookup'.trans h)]
    exact .error ⟨rfl, by simp⟩ (.made hnew)

theorem retraces_display (hb : b.store.WellFormed) (depth : Nat) (v : Value) :
    Retraces b n Eq (Run.display depth v) (Run.display depth (v.past b.store n)) := by
  rintro _ _ @⟨new, hnew⟩
  have hsame := Store.display?_past hb n new depth v
  cases h : (b.store.allocate new).display? depth v with
  | some text =>
    rw [Run.display_of_some h, Run.display_of_some (hsame.trans h)]
    exact .ok rfl (.made hnew)
  | none =>
    rw [Run.display_of_none h, Run.display_of_none (hsame.trans h)]
    exact .error ⟨rfl, by simp⟩ (.made hnew)

theorem retraces_spelling (depth : Nat) (t : Tree) :
    Retraces b n Eq (Run.spelling depth t) (Run.spelling depth t) := by
  unfold Run.spelling
  split
  · exact follows_pure rfl
  · exact follows_throw ⟨rfl, by simp⟩

theorem retraces_nameOf (depth : Nat) (t : Tree) :
    Retraces b n Eq (Run.nameOf depth t) (Run.nameOf depth t) := by
  rcases Run.nameOf_cases depth t with ⟨name, hn, -⟩ | ⟨hn, -⟩ | hn
  · rw [hn]
    exact follows_pure rfl
  · rw [hn]
    exact retraces_fault _
  · rw [hn]
    exact follows_throw ⟨rfl, by simp⟩

/-- What a list of values becomes. -/
theorem again_list {vs vs' : List Value} (h : List.Forall₂ (Value.Again s n) vs vs') :
    vs' = vs.map (Value.past s n) ∧ ∀ v ∈ vs, s.Gives v := by
  refine ⟨forall₂_eq_map (fun _ _ h => h.2) h, ?_⟩
  induction h with
  | nil => simp
  | cons h _ ih => exact List.forall_mem_cons.2 ⟨h.1, ih⟩

theorem retraces_newArray {vs vs' : List Value}
    (h : List.Forall₂ (Value.Again b.store n) vs vs') :
    Retraces b n (Value.Again b.store n) (Run.newArray vs) (Run.newArray vs') := by
  obtain ⟨rfl, hgives⟩ := again_list h
  rintro _ _ @⟨new, hnew⟩
  have hpast : ({ new with arrays := new.arrays.push vs.toArray } : Allocation).past b.store n =
      { new.past b.store n with
        arrays := (new.past b.store n).arrays.push (vs.map (Value.past b.store n)).toArray } := by
    simp [Allocation.past]
  rw [Run.newArray_allocate, Run.newArray_allocate, ← hpast]
  refine .ok ⟨.array (Nat.le_add_right _ _), ?_⟩ (.made (hnew.array (by simpa using hgives)))
  simp [Value.past_array, indexPast_new, Machine.allocate, Store.allocate, Allocation.past]

/-- The entries of an object, and those of the run that retraces it. -/
def EntriesAgain (s : Store) (n : Allocation) (entries entries' : List (Name × Value)) : Prop :=
  (∀ e ∈ entries, s.Gives e.2) ∧ entries' = entries.map (Value.pastEntry s n)

theorem EntriesAgain.insert {entries entries' : List (Name × Value)}
    (h : EntriesAgain s n entries entries') (hv : v.Again s n v') (name : Name) :
    EntriesAgain s n (Store.insertEntry entries name v) (Store.insertEntry entries' name v') := by
  obtain ⟨hgives, rfl⟩ := h
  obtain ⟨hv, rfl⟩ := hv
  refine ⟨fun e he => ?_, Store.insertEntry_past entries name v⟩
  rcases Contract.mem_insertEntry he with hold | hnew
  · exact hgives e hold
  · exact hnew ▸ hv

theorem retraces_newObject {entries entries' : List (Name × Value)}
    (h : EntriesAgain b.store n entries entries') :
    Retraces b n (Value.Again b.store n) (Run.newObject entries) (Run.newObject entries') := by
  obtain ⟨hgives, rfl⟩ := h
  rintro _ _ @⟨new, hnew⟩
  have hpast : ({ new with objects := new.objects.push entries } : Allocation).past b.store n =
      { new.past b.store n with
        objects := (new.past b.store n).objects.push
          (entries.map (Value.pastEntry b.store n)) } := by
    simp [Allocation.past]
  rw [Run.newObject_allocate, Run.newObject_allocate, ← hpast]
  refine .ok ⟨.object (Nat.le_add_right _ _), ?_⟩ (.made (hnew.object hgives))
  simp [Value.past_object, indexPast_new, Machine.allocate, Store.allocate, Allocation.past]

/-! Operators -/

theorem compare_past (operator : String) :
    Value.compare operator (v.past s n) (w.past s n) = Value.compare operator v w := by
  unfold Value.compare
  rw [Value.typeName_past, Value.typeName_past]
  cases v <;> cases w <;> rfl

theorem binary_past (operator : String) :
    Value.binary operator (v.past s n) (w.past s n) = Value.binary operator v w := by
  unfold Value.binary
  rw [compare_past, Value.typeName_past, Value.typeName_past]
  cases v <;> cases w <;> rfl

theorem unary_past (operator : String) :
    Value.unary operator (v.past s n) = Value.unary operator v := by
  cases v <;> rfl

/-- An operator has the same result, which is plain. -/
theorem retraces_operator {x y : Except EvalError Value} (heq : y = x)
    (hplain : ∀ v, x = .ok v → v.IsPlain) :
    Retraces b n (Value.Again b.store n) (Run.lift x) (Run.lift y) := by
  subst heq
  cases y with
  | ok v => exact retraces_plain (hplain v rfl)
  | error e => exact retraces_fail e

theorem retraces_booleanOperand (depth : Nat) (operator : Tree) (hv : v.Again s n v') :
    Retraces b n Eq (Eval.booleanOperand depth operator v)
      (Eval.booleanOperand depth operator v') := by
  obtain ⟨-, rfl⟩ := hv
  cases v with
  | boolean b => exact follows_pure rfl
  | _ => exact (retraces_spelling depth operator).bind_same fun _ => retraces_fail _

theorem retraces_position (hb : b.store.WellFormed) (depth : Nat) (v : Value) (length : Nat) :
    Retraces b n Eq (Eval.position depth v length)
      (Eval.position depth (v.past b.store n) length) := by
  have hfail : Retraces b n Eq (do Run.fail (.indexNotWhole (← Run.display depth v)) : Run Nat)
      (do Run.fail (.indexNotWhole (← Run.display depth (v.past b.store n)))) := by
    exact (retraces_display hb depth v).bind_same fun _ => retraces_fail _
  cases v with
  | number x =>
    simp only [Eval.position, Value.past]
    cases Number.whole? x with
    | none => exact hfail
    | some k =>
      by_cases h : 0 ≤ k ∧ k < length
      · simp only [if_pos h]
        exact follows_pure rfl
      · simp only [if_neg h]
        exact retraces_fail _
  | _ => exact hfail

theorem Store.Again.items {s₁ s₂ : Store} (hs : s.WellFormed) (h : s.Again n s₁ s₂)
    (r : ArrayRef) :
    s₂.items ⟨indexPast s.arrays.size n.arrays.size r.index⟩ =
      (s₁.items r).map (Value.past s n) := by
  obtain ⟨-⟩ := h
  exact Store.items_past hs n _ r

/-- The element of an array at a position, or null. -/
theorem Store.Again.item {s₁ s₂ : Store} (hs : s.WellFormed) (h : s.Again n s₁ s₂)
    (r : ArrayRef) (i : Nat) :
    ((s₁.items r)[i]?.getD .null).Again s n
      ((s₂.items ⟨indexPast s.arrays.size n.arrays.size r.index⟩)[i]?.getD .null) := by
  rw [h.items hs, Array.getElem?_map]
  obtain ⟨hnew⟩ := h
  cases hi : ((s.allocate _).items r)[i]? with
  | none => exact ⟨.plain trivial, rfl⟩
  | some v => exact ⟨hnew.gives_item (Array.mem_of_getElem? hi), rfl⟩

end

namespace Tree.CallFree

variable {b : Machine} {n : Allocation} {eval : Evaluator} {scope : ScopeRef}

/-- Evaluation of a tree retraces itself. -/
def Evaluates (b : Machine) (n : Allocation) (eval : Evaluator) (scope : ScopeRef)
    (t : Tree) : Prop :=
  Retraces b n (Value.Again b.store n) (eval t scope) (eval t scope)

theorem retraces_access (hb : b.store.WellFormed) (depth : Nat) {array index : Tree}
    (ha : Evaluates b n eval scope array) (hi : Evaluates b n eval scope index) :
    Retraces b n (Value.Again b.store n) (Eval.access depth eval array index scope)
      (Eval.access depth eval array index scope) := by
  have helement : Retraces b n
      (fun p p' => p' = (⟨indexPast b.store.arrays.size n.arrays.size p.1.index⟩, p.2))
      (Eval.element depth eval array index scope) (Eval.element depth eval array index scope) := by
    refine ha.bind fun base base' hbase => hi.bind fun place place' hplace => ?_
    obtain ⟨-, rfl⟩ := hbase
    obtain ⟨-, rfl⟩ := hplace
    cases base with
    | array r =>
      refine retraces_store.bind fun s s' hs => ?_
      rw [hs.items hb, Array.size_map]
      refine (retraces_position hb depth place _).bind fun i _ hi => ?_
      exact follows_pure (congrArg (Prod.mk _) hi.symm)
    | _ => exact retraces_fail _
  refine helement.bind fun p p' hp => ?_
  subst hp
  exact retraces_store.bind fun s s' hs => follows_pure (hs.item hb p.1 p.2)

theorem retraces_logical (depth : Nat) (operator : Tree) {left right : Tree}
    (hl : Evaluates b n eval scope left) (hr : Evaluates b n eval scope right) :
    Retraces b n (Value.Again b.store n) (Eval.logical depth eval operator left right scope)
      (Eval.logical depth eval operator left right scope) := by
  have hrest : Retraces b n (Value.Again b.store n)
      (do return .boolean (← Eval.booleanOperand depth operator (← eval right scope)))
      (do return .boolean (← Eval.booleanOperand depth operator (← eval right scope))) :=
    hr.bind fun v v' hv => (retraces_booleanOperand depth operator hv).bind_same fun c =>
      retraces_plain trivial
  refine hl.bind fun v v' hv => (retraces_booleanOperand depth operator hv).bind_same fun a => ?_
  split
  · exact retraces_plain trivial
  · cases a with
    | true => exact hrest
    | false => exact retraces_plain trivial
  · cases a with
    | true => exact retraces_plain trivial
    | false => exact hrest
  · exact (retraces_spelling depth _).bind_same fun _ => retraces_fail _

theorem retraces_property (hb : b.store.WellFormed) (depth : Nat) (key : Tree) {value : Tree}
    (h : Evaluates b n eval scope value) :
    Retraces b n (fun p p' => p'.1 = p.1 ∧ p.2.Again b.store n p'.2)
      (Eval.property depth eval key value scope) (Eval.property depth eval key value scope) := by
  unfold Eval.property
  split
  · refine (retraces_nameOf depth key).bind_same fun name => ?_
    exact (retraces_lookup hb scope name).bind fun v v' hv => follows_pure ⟨rfl, hv⟩
  · refine h.bind fun v v' hv => ?_
    exact (retraces_nameOf depth key).bind_same fun name => follows_pure ⟨rfl, hv⟩

theorem retraces_properties (hb : b.store.WellFormed) (depth : Nat) {props : List (Tree × Tree)}
    (h : ∀ p ∈ props, Evaluates b n eval scope p.2) {done done' : List (Name × Value)}
    (hdone : EntriesAgain b.store n done done') :
    Retraces b n (EntriesAgain b.store n)
      (Eval.properties depth eval scope done (props.map fun p => .property p.1 p.2))
      (Eval.properties depth eval scope done' (props.map fun p => .property p.1 p.2)) := by
  induction props generalizing done done' with
  | nil => exact follows_pure hdone
  | cons p props ih =>
    simp only [List.map_cons, Eval.properties]
    refine (retraces_property hb depth p.1 (h p (by simp))).bind ?_
    rintro ⟨name, v⟩ ⟨name', v'⟩ hp
    obtain ⟨rfl, hv⟩ : name' = name ∧ v.Again b.store n v' := hp
    exact ih (fun q hq => h q (by simp [hq])) (hdone.insert hv name')

theorem retraces_content (value : Tree) :
    Retraces b n (Value.Again b.store n) (pure (.ofContent value))
      (pure (.ofContent value)) := by
  cases value with
  | text _ | bool _ | num _ => exact retraces_plain trivial
  | _ => exact follows_pure ⟨.datum _, rfl⟩

theorem retraces_numberOf (value : Tree) :
    Retraces b n (Value.Again b.store n) (Eval.numberOf value) (Eval.numberOf value) := by
  unfold Eval.numberOf
  split
  · exact retraces_plain trivial
  · exact retraces_plain trivial
  · split
    · exact retraces_plain trivial
    · exact retraces_fault _
  · split
    · exact retraces_plain trivial
    · exact retraces_fault _
  · exact retraces_fault _

/-- **Evaluation retraces itself.** -/
theorem retraces {t : Tree} (h : t.CallFree) (hb : b.store.WellFormed) (cfg : Settings)
    (depth : Nat) (scope : ScopeRef) : Evaluates b n (evaluate cfg depth) scope t := by
  induction depth generalizing t with
  | zero => exact follows_throw ⟨rfl, by simp⟩
  | succ depth ih =>
    cases h with
    | absent => exact retraces_fail _
    | number value => exact retraces_numberOf value
    | string value | boolean value => exact retraces_content value
    | name symbol =>
      exact (retraces_nameOf depth symbol).bind_same fun name => retraces_lookup hb scope name
    | @array elements h =>
      have hsame : List.Forall₂ (fun t t' => t' = t ∧ t.CallFree) elements elements :=
        List.forall₂_same.2 fun t ht => ⟨rfl, h t ht⟩
      refine (Follows.mapM hsame fun t t' ht => ?_).bind fun vs vs' hvs => retraces_newArray hvs
      obtain ⟨rfl, ht⟩ := ht
      exact ih ht
    | access ha hi => exact retraces_access hb depth (ih ha) (ih hi)
    | object h =>
      refine (retraces_properties hb depth (fun p hp => ih (h p hp)) ⟨by simp, rfl⟩).bind ?_
      exact fun entries entries' => retraces_newObject
    | binary operator hl hr =>
      refine (ih hl).bind fun v v' hv => (ih hr).bind fun w w' hw => ?_
      obtain ⟨⟨-, rfl⟩, -, rfl⟩ := And.intro hv hw
      refine (retraces_nameOf depth operator).bind_same fun name => ?_
      exact retraces_operator (binary_past _) fun _ => Contract.binary_isPlain
    | comparison operator hl hr =>
      refine (ih hl).bind fun v v' hv => (ih hr).bind fun w w' hw => ?_
      obtain ⟨⟨-, rfl⟩, -, rfl⟩ := And.intro hv hw
      refine (retraces_nameOf depth operator).bind_same fun name => ?_
      exact retraces_operator (compare_past _) fun _ => Contract.compare_isPlain
    | logical operator hl hr => exact retraces_logical depth operator (ih hl) (ih hr)
    | unary operator h =>
      refine (ih h).bind fun v v' hv => ?_
      obtain ⟨-, rfl⟩ := hv
      refine (retraces_nameOf depth operator).bind_same fun name => ?_
      exact retraces_operator (unary_past _) fun _ => Contract.unary_isPlain
    | conditional ht hc ha =>
      refine (ih ht).bind fun v v' hv => ?_
      obtain ⟨-, rfl⟩ := hv
      cases v with
      | boolean c =>
        cases c with
        | true => exact ih hc
        | false => exact ih ha
      | _ => exact retraces_fail _

end Tree.CallFree

/-! ## No side effects -/

theorem Machine.again_start (m : Machine) (n : Allocation) : m.Again n m (m.allocate n) := by
  simpa [Machine.allocate, Store.allocate, Allocation.past] using
    Machine.Again.made (n := n) m.store.makes_nothing

theorem Machine.Again.eq {b m' : Machine} {n new : Allocation}
    (h : b.Again n (b.allocate new) m') : m' = (b.allocate n).allocate (new.past b.store n) := by
  generalize hm : b.allocate new = m at h
  obtain @⟨new', -⟩ := h
  rw [Machine.allocate_inj hm]

/-- **An expression without calls has no side effects.**  In a scope of a well-formed store, it has
    the same result under all limits that are high enough; this is not an overflow, unless it is
    one on the text of a circle.  Under every limit, all that is new then is arrays and objects `n`:
    scopes, arrays, objects, the console, the clock and the log are as before.  A value is no
    reference, or is stored in the store, or refers to one of the new arrays and objects.
    Evaluation once more makes the same arrays and objects once more and has the same value, but for
    the references to them, which are now to those behind `n`; or it halts once more for the same
    reason. -/
theorem callFree_allocates {t : Tree} (ht : t.CallFree) (cfg : Settings) {scope : ScopeRef}
    {m : Machine} (hm : m.store.WellFormed) (hscope : m.store.Has scope) :
    (∃ limit result, (∀ depth, limit ≤ depth → evaluate cfg depth t scope m = result) ∧
      ∀ m', result = .error .overflow m' → ∃ v, ¬m'.store.Acyclic v) ∧
    ∀ depth, ∃ n : Allocation, Ends (evaluate cfg depth t scope) m
      (fun v m' => m' = m.allocate n ∧ m.store.Gives v ∧ m'.store.Knows v ∧
        evaluate cfg depth t scope m' =
          .ok (v.past m.store n) (m'.allocate (n.past m.store n)))
      (fun e m' => m' = m.allocate n ∧ e ≠ .unfinished ∧
        evaluate cfg depth t scope m' = .error e (m'.allocate (n.past m.store n))) := by
  refine ⟨ht.settles scope m, fun depth => ?_⟩
  have hagain := fun n => (ht.retraces hm cfg depth scope).ends (m.again_start n)
  cases hrun : evaluate cfg depth t scope m with
  | ok v m' =>
    simp only [ends_of_ok hrun] at hagain ⊢
    -- what the run itself makes is seen when it is retraced after nothing
    obtain ⟨n, rfl⟩ : ∃ n, m' = m.allocate n := by
      obtain ⟨_, _, -, -, @⟨new, -⟩⟩ := hagain {}
      exact ⟨new, rfl⟩
    obtain ⟨_, m', hrun', ⟨hgives, rfl⟩, hm'⟩ := hagain n
    have hknows := (ends_of_ok hrun).1
      (Contract.sound.evaluate_meets cfg depth t scope m (Or.inl trivial) hm hscope)
    exact ⟨n, rfl, hgives, hknows.2.2, by rw [hrun', hm'.eq]⟩
  | error e m' =>
    simp only [ends_of_error hrun] at hagain ⊢
    obtain ⟨n, rfl⟩ : ∃ n, m' = m.allocate n := by
      obtain ⟨_, _, -, -, @⟨new, -⟩⟩ := hagain {}
      exact ⟨new, rfl⟩
    obtain ⟨_, m', hrun', ⟨rfl, he⟩, hm'⟩ := hagain n
    exact ⟨n, rfl, he, by rw [hrun', hm'.eq]⟩

/-- The store of a new session, with an array that the name `a` is bound to. -/
def Store.withArray : Store :=
  (Store.start.addArray #[.string "old"]).2.bind .global ⟨"a", .array ⟨0⟩, false⟩

/-- The expression `[a, {k: ["x"]}]`. -/
def Tree.nestedLiterals : Tree :=
  .arrayLiteral (.list [.identifier (.text "a"), .objectExpression (.list
    [.property (.text "k") (.arrayLiteral (.list [.stringLiteral (.text "x")]))])])

/-- Evaluated twice, it refers to the old array both times, and to another object each time. -/
theorem callFree_allocates_nested :
    let cfg : Settings := { passes := 1 }
    let m : Machine := { store := .withArray, clock := .counting 0 }
    let n : Allocation :=
      { arrays := #[#[.string "x"], #[.array ⟨0⟩, .object ⟨0⟩]],
        objects := #[[("k", .array ⟨1⟩)]] }
    let n' : Allocation :=
      { arrays := #[#[.string "x"], #[.array ⟨0⟩, .object ⟨1⟩]],
        objects := #[[("k", .array ⟨3⟩)]] }
    Tree.nestedLiterals.CallFree ∧ m.store.WellFormed ∧ m.store.Has .global ∧
      evaluate cfg 9 .nestedLiterals .global m = .ok (.array ⟨2⟩) (m.allocate n) ∧
      evaluate cfg 9 .nestedLiterals .global (m.allocate n) =
        .ok (.array ⟨4⟩) ((m.allocate n).allocate n') := by
  intro cfg m n n'
  have ht : Tree.nestedLiterals.CallFree := by
    refine .array (List.forall_mem_cons.2 ⟨.name _, List.forall_mem_singleton.2 ?_⟩)
    refine @Tree.CallFree.object [(.text "k", _)] (List.forall_mem_singleton.2 ?_)
    exact .array (List.forall_mem_singleton.2 (.string _))
  have hm : m.store.WellFormed := by
    have hitems : ∀ v ∈ #[Value.string "old"], Store.start.Knows v := by
      rintro v hv p hp
      obtain rfl := Array.mem_singleton.1 hv
      cases hp
    refine (Store.WellFormed.start.addArray hitems).bind ?_ (by decide)
    rintro _ ⟨⟩
    exact Nat.zero_lt_one
  have hscope : m.store.Has .global := Nat.zero_lt_one
  have hrun : evaluate cfg 9 .nestedLiterals .global m = .ok (.array ⟨2⟩) (m.allocate n) := rfl
  obtain ⟨new, hends⟩ := (callFree_allocates ht cfg hm hscope).2 9
  obtain ⟨hnew, -, -, hagain⟩ := (ends_of_ok hrun).1 hends
  obtain rfl := Machine.allocate_inj hnew
  have hn : n.past m.store n = n' := by
    simp only [Allocation.past, n, List.map_toArray, List.map_cons, List.map_nil]
    rfl
  exact ⟨ht, hm, hscope, hrun, hn ▸ hagain⟩

end BoxScript
