/-
  Declarations: which scopes get new names.

  A branch of `if` and the body of `while` run in the scope that they stand in, and declare into
  it.  A pass of `for` and a call run in a new scope, so they declare into none that was there.

  * `Store.NamesKept r s s'`: the scopes of `s` have the same names in `s'`, but for `r`;
  * `Contract.naming` is the contract of this relation, so evaluation has it; what keeps it as
    seen from every scope adds no name at all (`Contract.names_unchanged`);
  * `Tree.Declares`: the statement itself declares the name;
  * `names_declared`: **where names are declared**, by evaluation, calls, loops and branches.
-/
import BoxScript.Proofs.Eval.History

namespace BoxScript

/-! ## Scopes that keep their names -/

namespace Store

variable {s s' s'' : Store} {r : ScopeRef}

/-- The scopes of `s` are still there, and none but `r` has more names. -/
structure NamesKept (r : ScopeRef) (s s' : Store) : Prop where
  has : ∀ {r'}, s.Has r' → s'.Has r'
  names : ∀ {r'}, s.Has r' → r' ≠ r → s'.names r' = s.names r'

namespace NamesKept

theorem refl (r : ScopeRef) (s : Store) : NamesKept r s s := ⟨id, fun _ _ => rfl⟩

theorem trans (h : NamesKept r s s') (h' : NamesKept r s' s'') : NamesKept r s s'' where
  has hr := h'.has (h.has hr)
  names hr hne := (h'.names (h.has hr) hne).trans (h.names hr hne)

theorem bind (s : Store) (r : ScopeRef) (b : Binding) : NamesKept r s (s.bind r b) where
  has := has_bind.2
  names _ hne := by rw [Store.names, bindings_bind_of_ne hne, Store.names]

/-- The new scope is none of those that were there, so what it declares does not count. -/
theorem enter {p : Option ScopeRef} (h : NamesKept (s.addScope p).1 (s.addScope p).2 s') :
    NamesKept r s s' where
  has hr := h.has (has_addScope hr)
  names {r'} hr _ := by
    have hne : r' ≠ (s.addScope p).1 := by
      rintro rfl
      exact Nat.lt_irrefl _ hr
    rw [h.names (has_addScope hr) hne, Store.names, bindings_addScope, Store.names]

end NamesKept

end Store

open Store in
/-- The contract that no scope gets a new name but the one that is evaluated in. -/
def Contract.naming : Contract where
  Loose := True
  Word _ := True
  Ok _ := True
  Holds _ _ := True
  Sees _ _ := True
  Change r s s' := NamesKept r s s'
  refl := .refl _ _
  trans h h' := h.trans h'
  holds_mono _ _ := trivial
  sees_mono _ _ := trivial
  word _ := trivial
  bound _ _ := bound_of_loose _
  plain _ := trivial
  native _ := trivial
  datum _ := trivial
  function := function_of_loose _
  lookup _ _ _ := trivial
  item _ _ _ := trivial
  declare _ _ _ _ _ := ⟨trivial, .bind _ _ _⟩
  assign _ _ _ _ := ⟨trivial, has_rebind.2, fun _ _ => names_rebind⟩
  setItem _ _ _ := ⟨trivial, id, fun _ _ => rfl⟩
  addArray _ _ := ⟨trivial, ⟨id, fun _ _ => rfl⟩, trivial⟩
  addObject _ _ _ := ⟨trivial, ⟨id, fun _ _ => rfl⟩, trivial⟩
  enter _ _ := ⟨trivial, trivial, .enter⟩

namespace Contract

variable {α : Type} {m : Machine} {cfg : Settings} {depth : Nat}

theorem evaluates_naming (cfg : Settings) (depth : Nat) : naming.Evaluates (evaluate cfg depth) :=
  naming.evaluate_meets cfg depth

/-- What keeps the contract as seen from every scope adds a name to none: it is enough to look
    from a scope that does not exist. -/
theorem names_unchanged {x : Run α} {Q : Store → α → Prop} (h : ∀ r, naming.Meets r x Q m) :
    EndsIn x m fun m' => ∀ r, m.store.Has r → m'.store.names r = m.store.names r := by
  have hkept : ∀ {m' : Machine}, Store.NamesKept ⟨m.store.scopes.size⟩ m.store m'.store →
      ∀ r, m.store.Has r → m'.store.names r = m.store.names r := by
    intro m' hm r hr
    refine hm.names hr ?_
    rintro rfl
    exact Nat.lt_irrefl _ hr
  exact Ends.imp (h ⟨m.store.scopes.size⟩) (fun _ _ ⟨_, hm, _⟩ => hkept hm)
    fun _ _ ⟨_, hm, _⟩ => hkept hm

/-- The call of a function of the program. -/
theorem callClosure_names (f : Closure) (args : List Value) (env : ScopeRef) :
    EndsIn (callValue cfg depth (.function f) args env) m fun m' =>
      ∀ r, m.store.Has r → m'.store.names r = m.store.names r := by
  refine names_unchanged (Q := naming.Holds) fun r => ?_
  cases depth with
  | zero => exact meets_throw trivial (Or.inl trivial)
  | succ depth =>
    exact callClosure_meets (evaluates_naming cfg depth) f args trivial trivial fun _ _ => trivial

end Contract

/-! ## Passes of `for` -/

namespace Eval

/-- The two bounds of a `for` statement. -/
def bounds (eval : Evaluator) (start stop : Tree) (scope : ScopeRef) : Run (Value × Value) := do
  let first ← eval start scope
  let last ← eval stop scope
  return (first, last)

/-- What a `for` statement does when it has its bounds. -/
def passes (cfg : Settings) (depth : Nat) (eval : Evaluator) (loopVar body : Tree)
    (scope : ScopeRef) : Value × Value → Run Value
  | (.number first, .number last) =>
    forPasses last (forPass cfg depth eval loopVar body scope) cfg.passes first
  | (first, last) => Run.fail (.boundTypes first.typeName last.typeName)

theorem forStatement_eq (cfg : Settings) (depth : Nat) (eval : Evaluator)
    (loopVar start stop body : Tree) (scope : ScopeRef) :
    forStatement cfg depth eval loopVar start stop body scope =
      bounds eval start stop scope >>= passes cfg depth eval loopVar body scope := by
  unfold forStatement bounds
  simp only [bind_assoc, pure_bind]
  congr
  funext first
  congr
  funext last
  cases first <;> cases last <;> rfl

end Eval

namespace Contract

variable {m : Machine} {cfg : Settings} {depth : Nat}

/-- The passes of a loop add no name to a scope that was there when they began. -/
theorem passes_names (loopVar body : Tree) (env : ScopeRef) (values : Value × Value) :
    EndsIn (Eval.passes cfg depth (evaluate cfg depth) loopVar body env values) m fun m' =>
      ∀ r, m.store.Has r → m'.store.names r = m.store.names r := by
  refine names_unchanged (Q := naming.Holds) fun r => ?_
  unfold Eval.passes
  split
  · refine forPasses_meets (p := env) (fun count m₁ _ _ => ?_) _ _ m trivial trivial
    exact forPass_meets (evaluates_naming cfg depth) (Or.inl trivial) (Or.inl trivial) count trivial
      trivial
  · exact meets_fail trivial ⟨trivial, trivial⟩

end Contract

/-- A loop ends with the names that its scope has after the bounds; it halts with the bounds if
    they do. -/
theorem forStatement_names {cfg : Settings} {depth : Nat} {m : Machine} {env : ScopeRef}
    (henv : m.store.Has env) (loopVar start stop body : Tree) :
    Ends (Eval.bounds (evaluate cfg depth) start stop env) m
      (fun _ m₁ => EndsIn (evaluate cfg (depth + 1) (.forStatement loopVar start stop body) env) m
        fun m' => m'.store.names env = m₁.store.names env)
      fun halt m₁ =>
        evaluate cfg (depth + 1) (.forStatement loopVar start stop body) env m =
          .error halt m₁ := by
  have heq : evaluate cfg (depth + 1) (.forStatement loopVar start stop body) env =
      Eval.bounds (evaluate cfg depth) start stop env >>=
        Eval.passes cfg depth (evaluate cfg depth) loopVar body env :=
    Eval.forStatement_eq ..
  have hbounds : Contract.naming.Meets env (Eval.bounds (evaluate cfg depth) start stop env)
      (fun _ _ => True) m := by
    have heval := Contract.evaluates_naming cfg depth
    refine (heval start env m (Or.inl trivial) trivial trivial).bind fun first m₁ _ _ _ => ?_
    refine (heval stop env m₁ (Or.inl trivial) trivial trivial).bind fun last m₂ _ _ _ => ?_
    exact Contract.meets_pure trivial trivial
  unfold Contract.Meets at hbounds
  rw [heq]
  cases hrun : Eval.bounds (evaluate cfg depth) start stop env m with
  | ok values m₁ =>
    rw [ends_of_ok hrun] at hbounds ⊢
    have hrest : EndsIn (Eval.passes cfg depth (evaluate cfg depth) loopVar body env values) m₁
        fun m' => ∀ r, m₁.store.Has r → m'.store.names r = m₁.store.names r :=
      Contract.passes_names loopVar body env values
    unfold EndsIn Ends at hrest ⊢
    rw [bind_of_ok hrun]
    revert hrest
    split <;> exact fun hrest => hrest env (hbounds.2.1.has henv)
  | error halt m₁ =>
    rw [ends_of_error hrun]
    exact bind_of_error hrun

/-! ## Blocks that declare -/

/-- The statement declares the name of the key. -/
def Tree.Declares (key : Key) : Tree → Prop
  | .variableDeclaration name _ _ _ => name.key? = some key
  | .functionDeclaration name _ _ => name.key? = some key
  | _ => False

section

variable {cfg : Settings} {depth : Nat} {m : Machine} {env : ScopeRef} {key : Key}

/-- The scope is there and binds the name of the key. -/
def Store.Binds (s : Store) (env : ScopeRef) (key : Key) : Prop :=
  s.Has env ∧ key ∈ s.names env

theorem Store.Keeps.binds {s s' : Store} (h : s.Keeps s') (hs : s.Binds env key) :
    s'.Binds env key :=
  ⟨h.has hs.1, (h.names env).mem hs.2⟩

theorem evaluate_keeps (cfg : Settings) (depth : Nat) (t : Tree) (env : ScopeRef) (m : Machine) :
    EndsIn (evaluate cfg depth t env) m fun m' => m.store.Keeps m'.store :=
  Ends.imp (Contract.keeping.evaluate_meets cfg depth t env m (Or.inl trivial) trivial trivial)
    (fun _ _ ⟨_, h, _⟩ => h) fun _ _ ⟨_, h, _⟩ => h

theorem declare_binds {name : Name} {v : Value} {c : Bool} (henv : m.store.Has env) :
    Ends (Run.declare env name v c) m (fun _ m' => m'.store.Binds env name.key)
      fun _ _ => True := by
  unfold Run.declare Run.replaceStore Run.store Run.changeStore
  simp only [ends_bind, ends_get, ends_pure]
  cases hdeclare : m.store.declare env name v c with
  | error e => trivial
  | ok s =>
    obtain ⟨-, rfl⟩ := Store.declare_eq_ok_iff.1 hdeclare
    refine ⟨Store.has_bind.2 henv, ?_⟩
    show name.key ∈ (m.store.bind env ⟨name.key, v, c⟩).names env
    rw [Store.names, Store.bindings_bind_self henv]
    simp

/-- A name is read and declared, and what follows leaves the store alone. -/
theorem declare_then {α : Type} {t : Tree} (ht : t.key? = some key) {v : Name → Value} {c : Bool}
    {x : Name → Run Unit} {a : Name → α} (hx : ∀ n, (x n).Quiet .naming fun _ => True)
    (henv : m.store.Has env) :
    Ends (do let n ← Run.nameOf depth t; Run.declare env n (v n) c; x n; return a n) m
      (fun _ m' => m'.store.Binds env key) fun _ _ => True := by
  rcases Run.nameOf_cases depth t with ⟨n, hn, hkey⟩ | ⟨hn, -⟩ | hn
  · obtain rfl : n.key = key := Option.some.inj (hkey.symm.trans ht)
    rw [hn, pure_bind, ends_bind]
    refine (declare_binds henv).imp (fun _ m₁ h₁ => ?_) fun _ _ h => h
    rw [ends_bind]
    refine (hx n m₁).imp (fun _ m₂ h₂ => ?_) fun _ _ _ => trivial
    rw [ends_pure, h₂.1]
    exact h₁
  · rw [hn]
    trivial
  · rw [hn]
    trivial

/-- A statement that declares a name and ends with a value has bound it in the scope. -/
theorem Tree.Declares.binds {t : Tree} (ht : t.Declares key) (henv : m.store.Has env) :
    Ends (evaluate cfg depth t env) m (fun _ m' => m'.store.Binds env key)
      fun _ _ => True := by
  cases depth with
  | zero => trivial
  | succ depth =>
    cases t with
    | variableDeclaration n init constant isArray =>
      have hkey : n.key? = some key := ht
      show Ends (Eval.declaration cfg depth (evaluate cfg depth) n init constant env) m _ _
      unfold Eval.declaration
      extract_lets rest
      split
      · rw [ends_bind, ends_pure]
        exact declare_then hkey (fun _ => .trace .displayLine) henv
      · rw [ends_bind]
        refine (evaluate_keeps cfg depth init env m).imp (fun v m₁ h₁ => ?_) fun _ _ _ => trivial
        exact declare_then hkey (fun _ => .trace .displayLine) (h₁.has henv)
    | functionDeclaration n params body =>
      have hkey : n.key? = some key := ht
      show Ends (Eval.functionDeclaration cfg depth n params body env) m _ _
      unfold Eval.functionDeclaration
      rw [ends_bind]
      refine (Contract.sequence_quiet (K := .keeping) (Or.inl trivial) m).imp
        (fun ps m₁ h₁ => ?_) fun _ _ _ => trivial
      rw [ends_bind]
      refine (Contract.statementsOf_quiet (K := .keeping) (Or.inl trivial) m₁).imp
        (fun stmts m₂ h₂ => ?_) fun _ _ _ => trivial
      have henv₂ : m₂.store.Has env := by rw [h₂.1, h₁.1]; exact henv
      have hparams : ∀ p ∈ ps, Contract.naming.Loose ∨ p.IsWord fun _ => True :=
        fun _ _ => Or.inl trivial
      exact declare_then hkey
        (fun _ => .trace (.bind (.paramTexts 0 hparams) fun _ _ => .pure trivial)) henv₂
    | _ => exact ht.elim

/-- A block comes from `I` to `J` if the statement `u` does, and all statements keep either. -/
theorem block_through {I J : Machine → Prop} {l : List Tree} {u : Tree} (hu : u ∈ l)
    (hI : ∀ t m, I m → Ends (evaluate cfg depth t env) m (fun _ => I) fun _ _ => True)
    (hJ : ∀ t m, J m → Ends (evaluate cfg depth t env) m (fun _ => J) fun _ _ => True)
    (hIJ : ∀ m, I m → Ends (evaluate cfg depth u env) m (fun _ => J) fun _ _ => True) (hm : I m) :
    Ends (Eval.block (evaluate cfg depth) l env) m (fun _ => J) fun _ _ => True := by
  unfold Eval.block
  generalize Value.null = v
  induction l generalizing m v with
  | nil => cases hu
  | cons t l ih =>
    rw [List.foldlM_cons, ends_bind]
    rcases List.mem_cons.1 hu with rfl | hu
    · refine (hIJ m hm).imp (fun v' m₁ h₁ => ?_) fun _ _ h => h
      exact (ends_foldlM (I := fun (m' : Machine) _ => J m') (E := fun _ _ => True)
        (fun t _ _ m₂ h₂ => hJ t m₂ h₂) h₁).imp (fun _ _ h => h) fun _ _ h => h
    · exact (hI t m hm).imp (fun v' m₁ h₁ => ih hu h₁ v') fun _ _ h => h

theorem evaluate_keeps_has (t : Tree) (henv : m.store.Has env) :
    Ends (evaluate cfg depth t env) m (fun _ m' => m'.store.Has env) fun _ _ => True :=
  (evaluate_keeps cfg depth t env m).imp (fun _ _ h => h.has henv) fun _ _ _ => trivial

theorem evaluate_keeps_binds (t : Tree) (h : m.store.Binds env key) :
    Ends (evaluate cfg depth t env) m (fun _ m' => m'.store.Binds env key) fun _ _ => True :=
  (evaluate_keeps cfg depth t env m).imp (fun _ _ hk => hk.binds h) fun _ _ _ => trivial

/-- A block with a statement that declares a name binds it in the scope that the block is
    evaluated in, if it comes to its end. -/
theorem block_binds {l : List Tree} (hl : ∃ t ∈ l, t.Declares key) (henv : m.store.Has env) :
    Ends (Eval.block (evaluate cfg depth) l env) m (fun _ m' => m'.store.Binds env key)
      fun _ _ => True := by
  obtain ⟨u, hu, hdecl⟩ := hl
  -- the name stays bound, whatever the later statements do
  exact block_through hu (fun t _ => evaluate_keeps_has t) (fun t _ => evaluate_keeps_binds t)
    (fun _ => hdecl.binds) henv

theorem trace_then {level : Nat} {line : Run String} {Q : Unit → Machine → Prop}
    (hline : line.Quiet .naming fun _ => True) (h : ∀ m', m'.store = m.store → Q () m') :
    Ends (Run.trace cfg level line) m Q fun _ _ => True :=
  (Run.Quiet.trace hline m).imp (fun _ m' h' => h m' h'.1) fun _ _ _ => trivial

/-- The chosen branch of an `if` statement declares into the scope of the statement. -/
theorem ifStatement_binds {test consequent alternate : Tree} {l : List Tree} {v : Value}
    {m₁ : Machine} (hl : ∃ t ∈ l, t.Declares key) (henv : m.store.Has env)
    (htest : evaluate cfg depth test env m = .ok v m₁)
    (hbranch : (if v.isTruthy then consequent else alternate) = .block (.list l)) :
    Ends (evaluate cfg (depth + 1) (.ifStatement test consequent alternate) env) m
      (fun _ m' => m'.store.Binds env key) fun _ _ => True := by
  have hkeep := evaluate_keeps cfg depth test env m
  unfold EndsIn at hkeep
  rw [ends_of_ok htest] at hkeep
  show Ends (Eval.ifStatement cfg depth (evaluate cfg depth) test consequent alternate env) m _ _
  unfold Eval.ifStatement
  rw [ends_bind, ends_of_ok htest, ends_bind]
  refine trace_then .displayLine fun m₂ h₂ => ?_
  have henv₂ : m₂.store.Has env := by
    rw [h₂]
    exact hkeep.has henv
  by_cases hv : v.isTruthy = true
  · rw [if_pos hv] at hbranch ⊢
    subst hbranch
    exact block_binds hl henv₂
  · rw [if_neg hv] at hbranch ⊢
    subst hbranch
    exact block_binds hl henv₂

/-- The body of a `while` statement declares into the scope of the statement, as soon as the test
    has been true once. -/
theorem whileStatement_binds {test body : Tree} {l : List Tree} {m₁ : Machine}
    (hl : ∃ t ∈ l, t.Declares key) (henv : m.store.Has env)
    (htest : evaluate cfg depth test env m = .ok (.boolean true) m₁)
    (hbody : body = .block (.list l)) :
    Ends (evaluate cfg (depth + 1) (.whileStatement test body) env) m
      (fun _ m' => m'.store.Binds env key) fun _ _ => True := by
  subst hbody
  have hkeep := evaluate_keeps cfg depth test env m
  unfold EndsIn at hkeep
  rw [ends_of_ok htest] at hkeep
  show Ends (Eval.whileStatement cfg (evaluate cfg depth) test (.block (.list l)) env) m _ _
  unfold Eval.whileStatement
  cases cfg.passes with
  | zero => trivial
  | succ passes =>
    unfold Eval.whilePasses
    rw [ends_bind]
    unfold Eval.whileTest
    rw [ends_bind, ends_of_ok htest, ends_bind]
    refine trace_then (.pure trivial) fun m₂ h₂ => ?_
    have henv₂ : m₂.store.Has env := by
      rw [h₂]
      exact hkeep.has henv
    rw [ends_pure, if_pos rfl, ends_bind]
    show Ends (discard (Eval.block (evaluate cfg depth) l env)) m₂ _ _
    rw [ends_discard]
    refine (block_binds hl henv₂).imp (fun _ m₃ h₃ => ?_) fun _ _ h => h
    -- later passes are a loop of their own, which keeps what the first one has bound
    have hrest : Contract.keeping.Meets env (Eval.whileStatement { cfg with passes := passes }
        (evaluate cfg depth) test (.block (.list l)) env) Contract.keeping.Holds m₃ :=
      Contract.whileStatement_meets (Contract.keeping.evaluate_meets cfg depth) (Or.inl trivial)
        (Or.inl trivial) trivial trivial
    exact Ends.imp hrest (fun _ _ h => h.2.1.binds h₃) fun _ _ _ => trivial

end

/-- **Where names are declared**, whether evaluation gives a value or halts.  Evaluation in a scope
    adds names to no other scope that is there, and the call of a function of the program to none
    at all.  A `for` statement leaves its scope with the names that it has after the two bounds;
    if the bounds halt, so does the statement.  By contrast, what the chosen branch of an `if`
    statement declares is bound in the scope of the statement, and so is what the body of a
    `while` statement declares, once the test is true. -/
theorem names_declared (cfg : Settings) (depth : Nat) (m : Machine) (env : ScopeRef) :
    (∀ t, EndsIn (evaluate cfg depth t env) m fun m' =>
      ∀ r, m.store.Has r → r ≠ env → m'.store.names r = m.store.names r) ∧
    (∀ f args, EndsIn (callValue cfg depth (.function f) args env) m fun m' =>
      ∀ r, m.store.Has r → m'.store.names r = m.store.names r) ∧
    (m.store.Has env →
      (∀ loopVar start stop body,
        Ends (Eval.bounds (evaluate cfg depth) start stop env) m
          (fun _ m₁ =>
            EndsIn (evaluate cfg (depth + 1) (.forStatement loopVar start stop body) env) m
              fun m' => m'.store.names env = m₁.store.names env)
          fun halt m₁ =>
            evaluate cfg (depth + 1) (.forStatement loopVar start stop body) env m =
              .error halt m₁) ∧
      ∀ l key, (∃ t ∈ l, t.Declares key) →
        (∀ test consequent alternate v m₁, evaluate cfg depth test env m = .ok v m₁ →
          (if v.isTruthy then consequent else alternate) = .block (.list l) →
          Ends (evaluate cfg (depth + 1) (.ifStatement test consequent alternate) env) m
            (fun _ m' => key ∈ m'.store.names env) fun _ _ => True) ∧
        ∀ test m₁, evaluate cfg depth test env m = .ok (.boolean true) m₁ →
          Ends (evaluate cfg (depth + 1) (.whileStatement test (.block (.list l))) env) m
            (fun _ m' => key ∈ m'.store.names env) fun _ _ => True) := by
  refine ⟨fun t => ?_, fun f args => Contract.callClosure_names f args env, fun henv =>
    ⟨forStatement_names henv, fun l key hl => ⟨?_, ?_⟩⟩⟩
  · have hmeets := Contract.evaluates_naming cfg depth t env m (Or.inl trivial) trivial trivial
    exact Ends.imp hmeets (fun _ _ ⟨_, h, _⟩ _ => h.names) fun _ _ ⟨_, h, _⟩ _ => h.names
  · intro test consequent alternate v m₁ htest hbranch
    exact (ifStatement_binds hl henv htest hbranch).imp (fun _ _ h => h.2) fun _ _ h => h
  · intro test m₁ htest
    exact (whileStatement_binds hl henv htest rfl).imp (fun _ _ h => h.2) fun _ _ h => h

/-- One scope, with a variable that is true. -/
def Machine.flagged : Machine where
  store := { scopes := #[⟨none, [⟨"more", .boolean true, false⟩]⟩] }
  clock := .counting 0

/-- Statements that make the variable false and declare another one. -/
def Tree.lowering : List Tree :=
  [.assignmentExpression (.identifier (.text "more")) (.booleanLiteral (.bool false)),
   .variableDeclaration (.text "x") .null (.bool false) .null]

/-- The same statements as the body of a loop with one pass, as a branch, and as the body of a
    `while` statement: the first adds no name to the scope and the others do. -/
theorem names_declared_lowering :
    let m := Machine.flagged
    let env : ScopeRef := ⟨0⟩
    let flag : Tree := .identifier (.text "more")
    let one : Tree := .numberLiteral (.num 1)
    let body : Tree := .block (.list Tree.lowering)
    let run := fun t => evaluate { passes := 3 } 8 t env
    m.store.Has env ∧ (∃ t ∈ Tree.lowering, t.Declares "x") ∧
      Ends (run (.forStatement (.text "i") one one body)) m
        (fun _ m' => m'.store.lookup env "more" = .ok (.boolean false)) (fun _ _ => False) ∧
      EndsIn (run (.forStatement (.text "i") one one body)) m
        (fun m' => m'.store.names env = [.ofText "more"]) ∧
      Ends (run (.ifStatement flag body .null)) m (fun v _ => v = .null) (fun _ _ => False) ∧
      Ends (run (.ifStatement flag body .null)) m (fun _ m' => .ofText "x" ∈ m'.store.names env)
        (fun _ _ => True) ∧
      Ends (run (.whileStatement flag body)) m (fun v _ => v = .null) (fun _ _ => False) ∧
      Ends (run (.whileStatement flag body)) m (fun _ m' => .ofText "x" ∈ m'.store.names env)
        fun _ _ => True := by
  intro m env flag one body run
  have henv : m.store.Has env := Nat.zero_lt_one
  have hl : ∃ t ∈ Tree.lowering, t.Declares "x" := by
    refine ⟨.variableDeclaration (.text "x") .null (.bool false) .null, ?_, Tree.key?_text _⟩
    simp [Tree.lowering]
  obtain ⟨-, -, hrest⟩ := names_declared { passes := 3 } 7 m env
  obtain ⟨hfor, hbranch⟩ := hrest henv
  obtain ⟨hif, hwhile⟩ := hbranch Tree.lowering "x" hl
  exact ⟨henv, hl, rfl, hfor (.text "i") one one body, rfl, hif flag body .null _ _ rfl rfl, rfl,
    hwhile flag _ rfl⟩

end BoxScript
