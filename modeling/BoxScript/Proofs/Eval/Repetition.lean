/-
  Repetition: how often the body of a `while` statement can run.

  All passes of a `while` statement run in the same scope, and what is bound there stays bound
  whatever code runs in between.  So a body that declares a name cannot come to its end again.

  * `Eval.Loops`: how a loop goes, with the number of its tests and of its complete passes;
    `Eval.whilePasses_loops`: every loop goes in one of these ways;
  * `Eval.initial`: what a declaration evaluates before it declares;
    `Tree.IsDeclaration.duplicate`: it fails after that if the name is bound;
  * `while_declares_once`: **a body that declares a name comes to its end at most once.**
-/
import BoxScript.Proofs.Eval.Declarations
import BoxScript.Proofs.Store.Scoping

namespace BoxScript

/-! ## Loops with the number of their passes -/

namespace Eval

/-- How a loop goes from a machine under a limit: the number of tests that are made, the number of
    passes that come to their end, and the result. -/
inductive Loops (test : Run Bool) (pass : Run Unit) :
    (limit tests passes : Nat) → Machine → EStateM.Result Halt Machine Value → Prop
  | limit {m : Machine} : Loops test pass 0 0 0 m (.error .unfinished m)
  | testHalts {limit : Nat} {m m' : Machine} {halt : Halt} (h : test m = .error halt m') :
      Loops test pass (limit + 1) 1 0 m (.error halt m')
  | stops {limit : Nat} {m m' : Machine} (h : test m = .ok false m') :
      Loops test pass (limit + 1) 1 0 m (.ok .null m')
  | passHalts {limit : Nat} {m m₁ m' : Machine} {halt : Halt} (h : test m = .ok true m₁)
      (hp : pass m₁ = .error halt m') : Loops test pass (limit + 1) 1 0 m (.error halt m')
  | again {limit tests passes : Nat} {m m₁ m₂ : Machine}
      {result : EStateM.Result Halt Machine Value} (h : test m = .ok true m₁)
      (hp : pass m₁ = .ok () m₂)
      (hl : Loops test pass limit tests passes m₂ result) :
      Loops test pass (limit + 1) (tests + 1) (passes + 1) m result

variable {test : Run Bool} {pass : Run Unit} {limit tests passes : Nat} {m : Machine}
  {result : EStateM.Result Halt Machine Value}

/-- One more pass of a loop that has begun. -/
theorem whilePasses_again {m₁ m₂ : Machine} (h : test m = .ok true m₁) (hp : pass m₁ = .ok () m₂) :
    whilePasses test pass (limit + 1) m = whilePasses test pass limit m₂ := by
  rw [whilePasses, bind_of_ok h, if_pos rfl, bind_of_ok hp]

/-- A loop whose pass halts. -/
theorem whilePasses_halts {m₁ m' : Machine} {halt : Halt} (h : test m = .ok true m₁)
    (hp : pass m₁ = .error halt m') : whilePasses test pass (limit + 1) m = .error halt m' := by
  rw [whilePasses, bind_of_ok h, if_pos rfl, bind_of_error hp]

/-- **Every loop goes in one of these ways.** -/
theorem whilePasses_loops (test : Run Bool) (pass : Run Unit) (limit : Nat) (m : Machine) :
    ∃ tests passes, Loops test pass limit tests passes m (whilePasses test pass limit m) := by
  induction limit generalizing m with
  | zero => exact ⟨0, 0, .limit⟩
  | succ limit ih =>
    cases htest : test m with
    | error halt m' =>
      rw [whilePasses, bind_of_error htest]
      exact ⟨1, 0, .testHalts htest⟩
    | ok b m₁ =>
      cases b with
      | false =>
        rw [whilePasses, bind_of_ok htest]
        exact ⟨1, 0, .stops htest⟩
      | true =>
        cases hpass : pass m₁ with
        | error halt m' =>
          rw [whilePasses_halts htest hpass]
          exact ⟨1, 0, .passHalts htest hpass⟩
        | ok _ m₂ =>
          rw [whilePasses_again htest hpass]
          obtain ⟨tests, passes, hl⟩ := ih m₂
          exact ⟨tests + 1, passes + 1, .again htest hpass hl⟩

/-- A loop whose pass cannot come to its end. -/
theorem Loops.passes_eq_zero (hl : Loops test pass limit tests passes m result)
    (h : ∀ m₁ m₂, test m = .ok true m₁ → pass m₁ ≠ .ok () m₂) : passes = 0 ∧ tests ≤ 1 := by
  cases hl with
  | again htest hpass _ => exact absurd hpass (h _ _ htest)
  | _ => simp

/-- A loop whose pass cannot come to its end twice. -/
theorem Loops.passes_le_one (hl : Loops test pass limit tests passes m result)
    (h : ∀ m₁ m₂, test m = .ok true m₁ → pass m₁ = .ok () m₂ →
      ∀ m₃ m₄, test m₂ = .ok true m₃ → pass m₃ ≠ .ok () m₄) : passes ≤ 1 ∧ tests ≤ 2 := by
  cases hl with
  | again htest hpass hl =>
    obtain ⟨hpasses, htests⟩ := hl.passes_eq_zero (h _ _ htest hpass)
    omega
  | _ => simp

end Eval

/-! ## Declarations of bound names -/

/-- The tree declares a variable, a constant or a function. -/
def Tree.IsDeclaration : Tree → Prop
  | .variableDeclaration .. | .functionDeclaration .. => True
  | _ => False

theorem Tree.Declares.isDeclaration {key : Key} {t : Tree} (h : t.Declares key) :
    t.IsDeclaration := by
  cases t with
  | variableDeclaration | functionDeclaration => trivial
  | _ => exact h.elim

theorem Tree.Declares.unique {key key' : Key} {t : Tree} (h : t.Declares key)
    (h' : t.Declares key') : key = key' := by
  cases t with
  | variableDeclaration | functionDeclaration => exact Option.some.inj (h.symm.trans h')
  | _ => exact h.elim

/-- The statements that a tree holds, if it holds any. -/
def Tree.statements? (t : Tree) : Option (List Tree) := t.body?.bind Tree.items?

namespace Eval

/-- What a declaration evaluates before it declares: what it binds, and then its name. -/
def initial (cfg : Settings) (depth : Nat) (t : Tree) (scope : ScopeRef) : Run (Name × Value) :=
  match t with
  | .variableDeclaration name initializer _ _ =>
    (if initializer.isAbsent then pure .null else evaluate cfg depth initializer scope) >>=
      fun v => do return (← Run.nameOf depth name, v)
  | .functionDeclaration name params body => do
    let params ← sequence params
    let statements ← statementsOf body
    let name ← Run.nameOf depth name
    return (name, .function ⟨name.text, params, statements, scope⟩)
  | other => Run.fail (.unsupportedNode other.typeName)

theorem declaration_eq (cfg : Settings) (depth : Nat) (eval : Evaluator)
    (name initializer constant : Tree) (scope : ScopeRef) :
    declaration cfg depth eval name initializer constant scope =
      ((if initializer.isAbsent then pure .null else eval initializer scope) >>= fun v => do
        let name ← Run.nameOf depth name
        Run.declare scope name v constant.isSet
        Run.trace cfg 2 do
          let text ← Run.display depth v
          return "declare " ++ (if constant.isSet then "constant " else "variable ") ++
            name.text ++ ": " ++ v.typeName ++ " = " ++ text
        return v) := by
  unfold declaration
  cases initializer.isAbsent <;> rfl

/-- One pass of a `while` statement. -/
def whilePass (eval : Evaluator) (body : Tree) (scope : ScopeRef) : Run Unit := do
  discard (block eval (← statementsOf body) scope)

theorem statementsOf_eq {t : Tree} {l : List Tree} (h : t.statements? = some l) :
    statementsOf t = pure l := by
  obtain ⟨b, hb, hl⟩ := Option.bind_eq_some_iff.1 h
  simp only [statementsOf, hb, sequence, hl]

theorem whilePass_eq {eval : Evaluator} {body : Tree} {l : List Tree} {scope : ScopeRef}
    (h : body.statements? = some l) :
    whilePass eval body scope = discard (block eval l scope) := by
  rw [whilePass, statementsOf_eq h]
  rfl

/-- A block halts with the first of its statements that does. -/
theorem block_halts_at {eval : Evaluator} {before after : List Tree} {t : Tree} {scope : ScopeRef}
    {m m₁ m' : Machine} {v : Value} {halt : Halt} (hbefore : block eval before scope m = .ok v m₁)
    (ht : eval t scope m₁ = .error halt m') :
    block eval (before ++ t :: after) scope m = .error halt m' := by
  unfold block at hbefore ⊢
  rw [List.foldlM_append, bind_of_ok hbefore, List.foldlM_cons, bind_of_error ht]

end Eval

section

variable {cfg : Settings} {depth : Nat} {m : Machine} {env : ScopeRef} {key : Key} {t : Tree}

theorem initial_keeps (cfg : Settings) (depth : Nat) (t : Tree) (env : ScopeRef) (m : Machine) :
    EndsIn (Eval.initial cfg depth t env) m fun m' => m.store.Keeps m'.store := by
  have hname : ∀ name (f : Name → Name × Value) (m₁ : Machine), m.store.Keeps m₁.store →
      EndsIn (do return f (← Run.nameOf depth name)) m₁ fun m' => m.store.Keeps m'.store := by
    intro name f m₁ h
    rcases Run.nameOf_cases depth name with ⟨n, hn, -⟩ | ⟨hn, -⟩ | hn <;> rw [hn] <;> exact h
  unfold Eval.initial EndsIn
  split
  · next name init _ _ =>
    have hvalue : EndsIn (if init.isAbsent then pure .null else evaluate cfg depth init env) m
        fun m' => m.store.Keeps m'.store := by
      split
      · exact .refl _
      · exact evaluate_keeps ..
    rw [ends_bind]
    refine Ends.imp hvalue (fun v m₁ h₁ => ?_) fun _ _ h => h
    exact hname name _ m₁ h₁
  · next name params body =>
    rw [ends_bind]
    refine (Contract.sequence_quiet (K := .keeping) (Or.inl trivial) m).imp (fun ps m₁ h₁ => ?_)
      fun _ _ h => h.1 ▸ .refl _
    rw [ends_bind]
    refine (Contract.statementsOf_quiet (K := .keeping) (Or.inl trivial) m₁).imp
      (fun stmts m₂ h₂ => ?_) fun _ _ h => h₁.1 ▸ h.1 ▸ .refl _
    exact hname name _ m₂ (h₁.1 ▸ h₂.1 ▸ .refl _)
  · exact .refl _

/-- **A declaration first evaluates what it binds and reads its name**, and halts if that does.
    Then it declares the name. -/
theorem Tree.IsDeclaration.after_initial (ht : t.IsDeclaration) :
    Ends (Eval.initial cfg depth t env) m
      (fun p m₁ => t.Declares p.1.key ∧ ∃ constant rest, evaluate cfg (depth + 1) t env m =
        (Run.declare env p.1 p.2 constant >>= fun _ => rest) m₁)
      fun halt m₁ => evaluate cfg (depth + 1) t env m = .error halt m₁ := by
  cases t with
  | variableDeclaration name init constant isArray =>
    show Ends ((if init.isAbsent then pure .null else evaluate cfg depth init env) >>= fun v => do
        return (← Run.nameOf depth name, v)) m
      (fun p m₁ => name.key? = some p.1.key ∧ ∃ constant' rest,
        Eval.declaration cfg depth (evaluate cfg depth) name init constant env m =
          (Run.declare env p.1 p.2 constant' >>= fun _ => rest) m₁)
      fun halt m₁ => Eval.declaration cfg depth (evaluate cfg depth) name init constant env m =
        .error halt m₁
    rw [Eval.declaration_eq, ends_bind]
    generalize (if init.isAbsent then pure .null else evaluate cfg depth init env) = value
    cases hv : value m with
    | error halt m₁ =>
      rw [ends_of_error hv]
      exact bind_of_error hv
    | ok v m₁ =>
      rw [ends_of_ok hv, bind_of_ok hv]
      rcases Run.nameOf_cases depth name with ⟨n, hn, hkey⟩ | ⟨hn, -⟩ | hn
      · rw [hn]
        exact ⟨hkey, constant.isSet, _, rfl⟩
      · rw [hn]
        rfl
      · rw [hn]
        rfl
  | functionDeclaration name params body =>
    show Ends (do
        let params ← Eval.sequence params
        let statements ← Eval.statementsOf body
        let name ← Run.nameOf depth name
        return (name, Value.function ⟨name.text, params, statements, env⟩)) m
      (fun p m₁ => name.key? = some p.1.key ∧ ∃ constant rest,
        Eval.functionDeclaration cfg depth name params body env m =
          (Run.declare env p.1 p.2 constant >>= fun _ => rest) m₁)
      fun halt m₁ => Eval.functionDeclaration cfg depth name params body env m = .error halt m₁
    unfold Eval.functionDeclaration
    rw [ends_bind]
    cases hps : Eval.sequence params m with
    | error halt m₁ =>
      rw [ends_of_error hps]
      exact bind_of_error hps
    | ok ps m₁ =>
      rw [ends_of_ok hps, bind_of_ok hps, ends_bind]
      cases hbody : Eval.statementsOf body m₁ with
      | error halt m₂ =>
        rw [ends_of_error hbody]
        exact bind_of_error hbody
      | ok stmts m₂ =>
        rw [ends_of_ok hbody, bind_of_ok hbody]
        rcases Run.nameOf_cases depth name with ⟨n, hn, hkey⟩ | ⟨hn, -⟩ | hn
        · rw [hn]
          exact ⟨hkey, true, _, rfl⟩
        · rw [hn]
          rfl
        · rw [hn]
          rfl
  | _ => exact ht.elim

/-- A declaration that ends with a value declares the name of a key. -/
theorem Tree.IsDeclaration.declares (ht : t.IsDeclaration) :
    Ends (evaluate cfg depth t env) m (fun _ _ => ∃ key, t.Declares key) fun _ _ => True := by
  cases depth with
  | zero => trivial
  | succ depth =>
    cases hp : Eval.initial cfg depth t env m with
    | error halt m₁ =>
      rw [ends_of_error ((ends_of_error hp).1 ht.after_initial)]
      trivial
    | ok p m₁ =>
      have hdecl := ((ends_of_ok hp).1 ht.after_initial).1
      unfold Ends
      split
      · exact ⟨_, hdecl⟩
      · trivial

/-- **A declaration of a bound name fails**, once it has evaluated what it would bind. -/
theorem Tree.IsDeclaration.duplicate (ht : t.IsDeclaration) {n : Name} {v : Value} {m₁ : Machine}
    (hp : Eval.initial cfg depth t env m = .ok (n, v) m₁) (hb : m₁.store.Binds env n.key) :
    evaluate cfg (depth + 1) t env m = .error (.error (.duplicateDeclaration n.text)) m₁ := by
  obtain ⟨-, constant, rest, heq⟩ := (ends_of_ok hp).1 ht.after_initial
  rw [heq]
  exact bind_of_error (Run.declare_of_error (Store.checkNew_eq_error_iff.2 ⟨hb.2, rfl⟩))

/-- So it never ends with a value. -/
theorem Tree.Declares.halts (ht : t.Declares key) (hb : m.store.Binds env key) :
    Ends (evaluate cfg depth t env) m (fun _ _ => False) fun _ _ => True := by
  have hdecl := ht.isDeclaration
  cases depth with
  | zero => trivial
  | succ depth =>
    cases hp : Eval.initial cfg depth t env m with
    | error halt m₁ =>
      rw [ends_of_error ((ends_of_error hp).1 hdecl.after_initial)]
      trivial
    | ok p m₁ =>
      have hkey : p.1.key = key := ((ends_of_ok hp).1 hdecl.after_initial).1.unique ht
      have hkeeps := (initial_keeps cfg depth t env m).of_ok hp
      rw [ends_of_error (hdecl.duplicate hp (hkey ▸ hkeeps.binds hb))]
      trivial

/-! ## Passes in one scope -/

theorem whileTest_keeps (cfg : Settings) (depth : Nat) (test : Tree) (env : ScopeRef)
    (m : Machine) :
    EndsIn (Eval.whileTest cfg (evaluate cfg depth) test env) m fun m' =>
      m.store.Keeps m'.store := by
  unfold Eval.whileTest EndsIn
  rw [ends_bind]
  refine Ends.imp (evaluate_keeps cfg depth test env m) (fun v m₁ h₁ => ?_) fun _ _ h => h
  split
  · rw [ends_bind]
    refine (Run.Quiet.trace (K := .keeping) (.pure trivial) m₁).imp (fun _ m₂ h₂ => ?_)
      fun _ m₂ h₂ => h₂.1 ▸ h₁
    rw [ends_pure, h₂.1]
    exact h₁
  · exact h₁

variable {test body : Tree} {l : List Tree}

/-- A pass that comes to its end has bound the names that the body declares. -/
theorem whilePass_binds (hbody : body.statements? = some l) (hl : ∃ t ∈ l, t.Declares key)
    (henv : m.store.Has env) :
    Ends (Eval.whilePass (evaluate cfg depth) body env) m (fun _ m' => m'.store.Binds env key)
      fun _ _ => True := by
  rw [Eval.whilePass_eq hbody, ends_discard]
  exact block_binds hl henv

/-- In a pass that comes to its end, every declaration declares the name of a key. -/
theorem whilePass_declares (hbody : body.statements? = some l) {u : Tree} (hu : u ∈ l)
    (hdecl : u.IsDeclaration) :
    Ends (Eval.whilePass (evaluate cfg depth) body env) m (fun _ _ => ∃ key, u.Declares key)
      fun _ _ => True := by
  have hkeeps : ∀ {P : Prop} (t : Tree) (m : Machine), P →
      Ends (evaluate cfg depth t env) m (fun _ _ => P) fun _ _ => True := fun t m hP =>
    (evaluate_keeps cfg depth t env m).imp (fun _ _ _ => hP) fun _ _ _ => trivial
  rw [Eval.whilePass_eq hbody, ends_discard]
  exact block_through (I := fun _ => True) hu hkeeps hkeeps (fun _ _ => hdecl.declares) trivial

/-- No pass comes to its end if one of these names is bound already. -/
theorem whilePass_halts (hbody : body.statements? = some l) (hl : ∃ t ∈ l, t.Declares key)
    (hb : m.store.Binds env key) :
    Ends (Eval.whilePass (evaluate cfg depth) body env) m (fun _ _ => False) fun _ _ => True := by
  obtain ⟨u, hu, hdecl⟩ := hl
  rw [Eval.whilePass_eq hbody, ends_discard]
  exact block_through hu (fun t _ => evaluate_keeps_binds t) (fun _ _ h => h.elim)
    (fun _ => hdecl.halts) hb

/-- From a machine that binds the name, the pass that follows a test is not completed. -/
theorem whilePass_ne_ok (hbody : body.statements? = some l) (hl : ∃ t ∈ l, t.Declares key)
    (hb : m.store.Binds env key) {m₁ m₂ : Machine}
    (htest : Eval.whileTest cfg (evaluate cfg depth) test env m = .ok true m₁) :
    Eval.whilePass (evaluate cfg depth) body env m₁ ≠ .ok () m₂ := by
  intro hpass
  have hkeeps := (whileTest_keeps cfg depth test env m).of_ok htest
  exact (ends_of_ok hpass).1 (whilePass_halts hbody hl (hkeeps.binds hb))

/-- After one pass the name is bound. -/
theorem binds_after_pass (hbody : body.statements? = some l) (hl : ∃ t ∈ l, t.Declares key)
    (henv : m.store.Has env) {m₁ m₂ : Machine}
    (htest : Eval.whileTest cfg (evaluate cfg depth) test env m = .ok true m₁)
    (hpass : Eval.whilePass (evaluate cfg depth) body env m₁ = .ok () m₂) :
    m₂.store.Binds env key := by
  have hkeeps := (whileTest_keeps cfg depth test env m).of_ok htest
  exact (ends_of_ok hpass).1 (whilePass_binds hbody hl (hkeeps.has henv))

/-- A pass that comes to a declaration of a bound name, and evaluates what it would bind, fails
    there. -/
theorem whilePass_duplicate {before after : List Tree} {m₁ m₂ : Machine} {n : Name} {v w : Value}
    (hbody : body.statements? = some (before ++ t :: after)) (ht : t.IsDeclaration)
    (hb : m.store.Binds env n.key)
    (hbefore : Eval.block (evaluate cfg (depth + 1)) before env m = .ok w m₁)
    (hp : Eval.initial cfg depth t env m₁ = .ok (n, v) m₂) :
    Eval.whilePass (evaluate cfg (depth + 1)) body env m =
      .error (.error (.duplicateDeclaration n.text)) m₂ := by
  have hkept : m₁.store.Binds env n.key := by
    have hblock := Contract.block_meets (K := .keeping)
      (Contract.keeping.evaluate_meets cfg (depth + 1))
      (fun u (_ : u ∈ before) => Or.inl trivial) (r := env) (m := m) trivial trivial
    exact ((ends_of_ok hbefore).1 hblock).2.1.binds hb
  have hkept' : m₂.store.Binds env n.key :=
    ((initial_keeps cfg depth t env m₁).of_ok hp).binds hkept
  have hblock : Eval.block (evaluate cfg (depth + 1)) (before ++ t :: after) env m =
      .error (.error (.duplicateDeclaration n.text)) m₂ :=
    Eval.block_halts_at hbefore (ht.duplicate hp hkept')
  rw [Eval.whilePass_eq hbody]
  exact map_of_error hblock

end

/-- **A body that declares a name comes to its end at most once**, whatever its other statements and
    the test do.  Let the statements of the body hold a declaration.  The evaluation of the `while`
    statement is a loop in which at most one pass comes to its end, so that at most two tests are
    made.  If the scope binds a name that the body declares at the beginning, no pass does.  If a
    second pass comes to a declaration, and what it would bind is evaluated, the pass fails there as
    a duplicate declaration, and so does the statement. -/
theorem while_declares_once (cfg : Settings) (depth : Nat) {m : Machine} {env : ScopeRef}
    (henv : m.store.Has env) (test : Tree) {body : Tree} {l : List Tree}
    (hbody : body.statements? = some l) (hl : ∃ t ∈ l, t.IsDeclaration) :
    let check := Eval.whileTest cfg (evaluate cfg depth) test env
    let pass := Eval.whilePass (evaluate cfg depth) body env
    let loop := evaluate cfg (depth + 1) (.whileStatement test body) env
    (∃ tests passes, Eval.Loops check pass cfg.passes tests passes m (loop m)) ∧
    (∀ limit tests passes result, Eval.Loops check pass limit tests passes m result →
      passes ≤ 1 ∧ tests ≤ 2 ∧ ∀ key, (∃ t ∈ l, t.Declares key) → m.store.Binds env key →
        passes = 0 ∧ tests ≤ 1) ∧
    ∀ d before t after m₁ m₂ m₃ m₄ m₅ w n v, depth = d + 1 → l = before ++ t :: after →
      t.IsDeclaration → check m = .ok true m₁ → pass m₁ = .ok () m₂ → check m₂ = .ok true m₃ →
      Eval.block (evaluate cfg depth) before env m₃ = .ok w m₄ →
      Eval.initial cfg d t env m₄ = .ok (n, v) m₅ →
      pass m₃ = .error (.error (.duplicateDeclaration n.text)) m₅ ∧
        (2 ≤ cfg.passes → loop m = .error (.error (.duplicateDeclaration n.text)) m₅) := by
  intro check pass loop
  refine ⟨Eval.whilePasses_loops check pass cfg.passes m,
    fun limit tests passes result hloops => ?_, ?_⟩
  · obtain ⟨u, hu, hdecl⟩ := hl
    have honce := hloops.passes_le_one fun m₁ m₂ htest hpass m₃ m₄ htest' => by
      obtain ⟨key, hkey⟩ := (ends_of_ok hpass).1 (whilePass_declares hbody hu hdecl)
      have hb := binds_after_pass hbody ⟨u, hu, hkey⟩ henv htest hpass
      exact whilePass_ne_ok hbody ⟨u, hu, hkey⟩ hb htest'
    exact ⟨honce.1, honce.2, fun key hl hb =>
      hloops.passes_eq_zero fun _ _ => whilePass_ne_ok hbody hl hb⟩
  · intro d before t after m₁ m₂ m₃ m₄ m₅ w n v hd hsplit ht htest hpass htest' hbefore hp
    subst hd
    have hmem : t ∈ l := hsplit ▸ List.mem_append_right _ List.mem_cons_self
    have hkey : t.Declares n.key := ((ends_of_ok hp).1 ht.after_initial).1
    have hb : m₃.store.Binds env n.key :=
      ((whileTest_keeps cfg _ test env m₂).of_ok htest').binds
        (binds_after_pass hbody ⟨t, hmem, hkey⟩ henv htest hpass)
    have hfails : pass m₃ = .error (.error (.duplicateDeclaration n.text)) m₅ :=
      whilePass_duplicate (hsplit ▸ hbody) ht hb hbefore hp
    refine ⟨hfails, fun htwo => ?_⟩
    obtain ⟨limit, hlimit⟩ := Nat.exists_eq_add_of_le' htwo
    show Eval.whilePasses check pass cfg.passes m = _
    rw [hlimit, Eval.whilePasses_again htest hpass, Eval.whilePasses_halts htest' hfails]

/-- A body that declares a variable without a value. -/
def Tree.declaring : Tree :=
  .block (.list [.variableDeclaration (.text "x") .null (.bool false) .null])

/-- With a test that is always true, the second pass fails. -/
theorem while_declares_once_always :
    let m := Machine.flagged
    let env : ScopeRef := ⟨0⟩
    let loop := evaluate { passes := 3 } 3
      (.whileStatement (.identifier (.text "more")) .declaring) env
    m.store.Has env ∧ (∃ l, Tree.declaring.statements? = some l ∧ ∃ t ∈ l, t.IsDeclaration) ∧
      ∃ m', m'.store.Binds env "x" ∧
        loop m = .error (.error (.duplicateDeclaration "x")) m' := by
  intro m env loop
  have henv : m.store.Has env := Nat.zero_lt_one
  have hl : ∃ t ∈ [Tree.variableDeclaration (.text "x") .null (.bool false) .null],
      t.IsDeclaration := ⟨_, List.mem_singleton_self _, trivial⟩
  have hbody : Tree.declaring.statements? =
      some [.variableDeclaration (.text "x") .null (.bool false) .null] := rfl
  obtain ⟨-, -, hsecond⟩ := while_declares_once { passes := 3 } 2 henv
    (.identifier (.text "more")) hbody hl
  obtain ⟨-, hloop⟩ := hsecond 1 [] _ [] _ _ _ _ _ _ "x" .null rfl rfl trivial rfl rfl rfl rfl rfl
  refine ⟨henv, ⟨_, hbody, hl⟩, _, ?_, hloop (by decide)⟩
  exact ⟨Nat.zero_lt_one, List.mem_cons_of_mem _ (List.mem_singleton_self _)⟩

end BoxScript
