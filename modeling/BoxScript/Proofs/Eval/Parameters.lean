/-
  Calls of functions: what the parameters are bound to, and what the body is evaluated in.

  * `Binding.parameters`: the bindings of the parameters of a function for given arguments;
  * `Machine.withScope`: the machine with one more scope, and nothing else changed;
  * `Run.declare_withScope_of_notMem` and `Run.declare_withScope_of_mem`: what one declaration in
    that scope does, and `Eval.bindParams_append`: what the declarations of several parameters do,
    as long as none is repeated;
  * `Eval.InTurn`: statements are evaluated one after the other;
  * `Eval.call_binds`: **a call evaluates the body in a new scope with the parameters, or fails at
    the first parameter that is repeated.**
-/
import Mathlib.Data.List.Induction
import BoxScript.Eval.Session
import BoxScript.Proofs.Store.Scoping

namespace BoxScript

/-- The names of parameters as variables: each has the argument at its position, and null if there
    is none. -/
def Binding.parameters (names : List Name) (args : List Value) : List Binding :=
  names.mapIdx fun i n => ⟨n.key, args[i]?.getD .null, false⟩

/-- The machine with one more scope, inside `parent` and with the given bindings. -/
def Machine.withScope (m : Machine) (parent : ScopeRef) (bindings : List Binding) : Machine :=
  { m with store := { m.store with scopes := m.store.scopes.push ⟨some parent, bindings⟩ } }

/-- The scope that a machine makes next. -/
def Machine.newest (m : Machine) : ScopeRef := ⟨m.store.scopes.size⟩

variable {m : Machine} {parent : ScopeRef} {bindings : List Binding} {name : Name} {v : Value}

theorem Binding.parameters_cons (n : Name) (names : List Name) (args : List Value) :
    parameters (n :: names) args =
      ⟨n.key, args.head?.getD .null, false⟩ :: parameters names args.tail := by
  cases args <;> simp [parameters, List.mapIdx_cons]

theorem Binding.names_parameters (names : List Name) (args : List Value) :
    (parameters names args).map Binding.name = names.map Name.key := by
  induction names generalizing args with
  | nil => rfl
  | cons n names ih => rw [parameters_cons, List.map_cons, ih, List.map_cons]

/-! ## The new scope -/

theorem Machine.names_withScope :
    (m.withScope parent bindings).store.names m.newest = bindings.map Binding.name := by
  simp [Store.names, Store.bindings, withScope, newest]

theorem Machine.bind_withScope (b : Binding) :
    { m.withScope parent bindings with
      store := (m.withScope parent bindings).store.bind m.newest b } =
      m.withScope parent (bindings ++ [b]) := by
  have hlast : ∀ (scopes : Array Scope) (scope : Scope) (f : Scope → Scope),
      (scopes.push scope).modify scopes.size f = scopes.push (f scope) := fun scopes scope f => by
    apply Array.ext
    · simp
    · intro i _ _
      grind
  simp [withScope, newest, Store.bind, hlast]

namespace Run

/-- A name that the new scope does not bind yet is bound there. -/
theorem declare_withScope_of_notMem {c : Bool} (h : name.key ∉ bindings.map Binding.name) :
    declare m.newest name v c (m.withScope parent bindings) =
      .ok () (m.withScope parent (bindings ++ [⟨name.key, v, c⟩])) := by
  rw [declare_of_ok (Store.checkNew_eq_ok_iff.2 (by rwa [Machine.names_withScope]))]
  rw [Machine.bind_withScope]

/-- A name that the new scope binds is refused. -/
theorem declare_withScope_of_mem {c : Bool} (h : name.key ∈ bindings.map Binding.name) :
    declare m.newest name v c (m.withScope parent bindings) =
      .error (.error (.duplicateDeclaration name.text)) (m.withScope parent bindings) :=
  declare_of_error (Store.checkNew_eq_error_iff.2 ⟨by rwa [Machine.names_withScope], rfl⟩)

end Run

namespace Eval

/-! ## Parameters -/

variable {depth : Nat}

theorem bindParams_nil (scope : ScopeRef) (args : List Value) :
    bindParams depth scope [] args = pure () := by
  cases args <;> rfl

theorem bindParams_cons (scope : ScopeRef) (p : Tree) (params : List Tree) (args : List Value) :
    bindParams depth scope (p :: params) args = (do
      Run.declare scope (← Run.nameOf depth p) (args.head?.getD .null) false
      bindParams depth scope params args.tail) := by
  cases args <;> rfl

/-- Parameters that are read as names, none of them twice, are bound in order. -/
theorem bindParams_append {before : List Tree} {names : List Name}
    (hread : before.map (Run.nameOf depth) = names.map pure) (rest : List Tree) (args : List Value)
    (h : (bindings.map Binding.name ++ names.map Name.key).Nodup) :
    bindParams depth m.newest (before ++ rest) args (m.withScope parent bindings) =
      bindParams depth m.newest rest (args.drop names.length)
        (m.withScope parent (bindings ++ Binding.parameters names args)) := by
  induction names generalizing before bindings args with
  | nil =>
    obtain rfl : before = [] := by simpa using hread
    simp [Binding.parameters]
  | cons n names ih =>
    obtain ⟨p, before, rfl, hp, hread⟩ := List.map_eq_cons_iff.1 hread
    have hn : n.key ∉ bindings.map Binding.name := fun hmem =>
      (List.nodup_append.1 h).2.2 n.key hmem n.key (by simp) rfl
    rw [List.cons_append, bindParams_cons, hp, pure_bind,
      bind_of_ok (Run.declare_withScope_of_notMem hn)]
    rw [ih hread args.tail (by simpa using h), Binding.parameters_cons]
    simp

/-- A list in which a key is repeated has a first element whose key repeats an earlier one. -/
theorem exists_first_repeated {α β : Type} {key : α → β} {l : List α} (h : ¬(l.map key).Nodup) :
    ∃ before a after, l = before ++ a :: after ∧ (before.map key).Nodup ∧
      key a ∈ before.map key := by
  induction l using List.reverseRecOn with
  | nil => exact absurd List.nodup_nil h
  | append_singleton l a ih =>
    by_cases hl : (l.map key).Nodup
    · refine ⟨l, a, [], rfl, hl, Classical.byContradiction fun ha => h ?_⟩
      rw [List.map_append, List.nodup_append]
      refine ⟨hl, by simp, ?_⟩
      rintro b hb _ hc rfl
      exact ha (List.mem_singleton.1 hc ▸ hb)
    · obtain ⟨before, b, after, rfl, hbefore, hb⟩ := ih hl
      exact ⟨before, b, after ++ [a], by simp, hbefore, hb⟩

/-! ## The body -/

/-- Statements are evaluated one after the other in a scope, the first one from the machine `m`.
    The result is that of the last one, `v` if there is none, and the failure of the first one that
    fails. -/
inductive InTurn (eval : Evaluator) (scope : ScopeRef) :
    Value → List Tree → Machine → EStateM.Result Halt Machine Value → Prop
  | done {v : Value} {m : Machine} : InTurn eval scope v [] m (.ok v m)
  | next {v w : Value} {t ts} {m m' : Machine} {result} (h : eval t scope m = .ok w m')
      (hts : InTurn eval scope w ts m' result) : InTurn eval scope v (t :: ts) m result
  | halt {v : Value} {t ts} {m m' : Machine} {e} (h : eval t scope m = .error e m') :
      InTurn eval scope v (t :: ts) m (.error e m')

theorem block_inTurn (eval : Evaluator) (statements : List Tree) (scope : ScopeRef) (m : Machine) :
    InTurn eval scope .null statements m (block eval statements scope m) := by
  unfold block
  generalize Value.null = v
  induction statements generalizing v m with
  | nil => exact .done
  | cons t ts ih =>
    rw [List.foldlM_cons]
    cases hrun : eval t scope m with
    | ok w m' =>
      rw [bind_of_ok hrun]
      exact .next hrun (ih m' w)
    | error e m' =>
      rw [bind_of_error hrun]
      exact .halt hrun

/-! ## Calls -/

theorem callClosure_eq {cfg : Settings} (h : cfg.traceLevel = 0) (depth : Nat) (eval : Evaluator)
    (f : Closure) (args : List Value) (m : Machine) :
    callClosure cfg depth eval f args m =
      (bindParams depth m.newest f.params args >>= fun _ => block eval f.body m.newest)
        (m.withScope f.scope []) := by
  have htrace : ¬4 ≤ cfg.traceLevel := by omega
  unfold callClosure Run.trace
  rw [if_neg htrace]
  rfl

/-- **What a call does.**  Parameters that are texts are read as names, and so may others be.
    Without tracing, a call of a function that has no name twice among them evaluates the statements
    of its body in order, and has the value of the last one, or null.  They are evaluated in a new
    scope inside the one that the function was declared in, whatever scope it is called from; this
    scope has the names in order as variables, and all else is as before.  If a name is repeated,
    the call fails at the first one that repeats an earlier one, whatever the arguments are, and
    nothing is evaluated: all that is new is the scope with the names before that one.  And so it is
    at a parameter that cannot be read as a name. -/
theorem call_binds {cfg : Settings} (h : cfg.traceLevel = 0) (depth : Nat) (eval : Evaluator)
    (f : Closure) (args : List Value) (scope : ScopeRef) (m : Machine) :
    (∀ texts : List String, f.params = texts.map .text →
      f.params.map (Run.nameOf depth) = (texts.map Name.ofText).map pure) ∧
    (∀ names, f.params.map (Run.nameOf depth) = names.map pure →
      ((names.map Name.key).Nodup →
        InTurn eval m.newest .null f.body
          (m.withScope f.scope (Binding.parameters names args))
          (call cfg depth eval (.function f) args scope m)) ∧
      (¬(names.map Name.key).Nodup → ∃ before n after,
        names = before ++ n :: after ∧ (before.map Name.key).Nodup ∧ n.key ∈ before.map Name.key ∧
          call cfg depth eval (.function f) args scope m =
            .error (.error (.duplicateDeclaration n.text))
              (m.withScope f.scope (Binding.parameters before args)))) ∧
    ∀ before p after names halt, f.params = before ++ p :: after →
      before.map (Run.nameOf depth) = names.map pure → (names.map Name.key).Nodup →
      Run.nameOf depth p = throw halt →
      call cfg depth eval (.function f) args scope m =
        .error halt (m.withScope f.scope (Binding.parameters names args)) := by
  have hcall : call cfg depth eval (.function f) args scope m =
      (bindParams depth m.newest f.params args >>= fun _ => block eval f.body m.newest)
        (m.withScope f.scope []) := callClosure_eq h depth eval f args m
  refine ⟨fun texts htexts => by simp [htexts], fun names hread =>
    ⟨fun hnodup => ?_, fun hrepeat => ?_⟩, ?_⟩
  · have hbind : bindParams depth m.newest f.params args (m.withScope f.scope []) =
        .ok () (m.withScope f.scope (Binding.parameters names args)) := by
      rw [← List.append_nil f.params, bindParams_append hread [] args (by simpa using hnodup),
        bindParams_nil]
      rfl
    rw [hcall, bind_of_ok hbind]
    exact block_inTurn eval f.body m.newest _
  · obtain ⟨before, n, after, rfl, hbefore, hn⟩ := exists_first_repeated hrepeat
    refine ⟨before, n, after, rfl, hbefore, hn, ?_⟩
    rw [List.map_append] at hread
    obtain ⟨params, rest, hparams, hread, hrest⟩ := List.map_eq_append_iff.1 hread
    obtain ⟨p, rest, rfl, hp, -⟩ := List.map_eq_cons_iff.1 hrest
    rw [hcall, hparams]
    refine bind_of_error ?_
    rw [bindParams_append hread _ _ (by simpa using hbefore), bindParams_cons, hp, pure_bind]
    rw [← Binding.names_parameters before args] at hn
    exact bind_of_error (Run.declare_withScope_of_mem hn)
  · intro before p after names halt hparams hread hnodup hp
    rw [hcall, hparams]
    refine bind_of_error ?_
    rw [bindParams_append hread _ _ (by simpa using hnodup), bindParams_cons, hp]
    rfl

/-- A function of the global scope whose value is that of the name `b`. -/
def second (params : List Tree) : Closure :=
  ⟨"second", params, [.identifier (.text "a"), .identifier (.text "b")], .global⟩

/-- A missing argument is null, the second repetition of a name is not reached, and neither is a
    parameter that is no name. -/
theorem call_binds_second :
    let cfg : Settings := { passes := 1 }
    let m : Machine := { store := .start, clock := .counting 0 }
    let run := fun params => callValue cfg 9 (.function (second params)) [.boolean true] ⟨0⟩ m
    let a : Tree := .text "a"
    let b : Tree := .text "b"
    InTurn (evaluate cfg 8) ⟨1⟩ .null [.identifier a, .identifier b]
        (m.withScope .global [⟨"a", .boolean true, false⟩, ⟨"b", .null, false⟩]) (run [a, b]) ∧
      (∃ before n after, ([("a" : Name), "b", "a", "b"] : List Name) = before ++ n :: after ∧
        (before.map Name.key).Nodup ∧ n.key ∈ before.map Name.key ∧
        run [a, b, a, b] = .error (.error (.duplicateDeclaration n.text))
          (m.withScope .global (Binding.parameters before [.boolean true]))) ∧
      run [a, .list [], b] = .error (.fault .noName)
        (m.withScope .global [⟨"a", .boolean true, false⟩]) := by
  intro cfg m run a b
  have hcfg : cfg.traceLevel = 0 := rfl
  have hcall := fun params =>
    call_binds hcfg 8 (evaluate cfg 8) (second params) [.boolean true] ⟨0⟩ m
  have hlist : Run.nameOf 8 (.list []) = throw (.fault .noName) := by
    simp [Run.nameOf, Tree.key?, Tree.keyParts?]
  have hread := fun texts : List String => (hcall (texts.map .text)).1 texts rfl
  exact ⟨((hcall [a, b]).2.1 ["a", "b"] (hread ["a", "b"])).1 (by decide),
    ((hcall [a, b, a, b]).2.1 ["a", "b", "a", "b"] (hread ["a", "b", "a", "b"])).2 (by decide),
    (hcall [a, .list [], b]).2.2 [a] (.list []) [b] ["a"] _ rfl rfl (by decide) hlist⟩

end Eval

end BoxScript
