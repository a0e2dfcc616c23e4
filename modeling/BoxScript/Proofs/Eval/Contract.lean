/-
  Contracts of evaluation.

  A `Contract` says which stores, values and scopes evaluation works with, and how the store
  after evaluation in a scope is related to the store before.  It holds if the few operations
  on stores keep it: declaring, assigning, allocating, storing into an array, and entering a
  new scope.  A contract is loose if it is about all trees.  Else it is about the trees of
  proper shape that declare its own names, and says that evaluation halts for an expected
  reason only, in its own words.

  * `Halt.IsExpected W`: the reasons to halt that a program text can bring about, if the words
    of `W` are the names that it declares and those of the language (`Vocabulary`);
  * `Contract.Meets`: a run keeps a contract, whether it ends with a value or halts; the
    operations on the store do so by the fields of the contract (`meets_declare`, ...);
  * `Run.Quiet`: the run leaves the store alone, so it keeps every contract.

  An invariant of evaluation is proved by giving a contract, since evaluation keeps all of
  them (`Contract.evaluate_meets`).
-/
import BoxScript.Eval.Session
import BoxScript.Proofs.Outcome
import BoxScript.Proofs.Store.Operations
import BoxScript.Proofs.Tree.Names

namespace BoxScript

/-- Values that literals and operators give.  They hold no reference into a store. -/
def Value.IsPlain : Value → Prop
  | .null | .boolean _ | .number _ | .string _ => True
  | .array _ | .object _ | .function _ | .native _ | .datum _ => False

/-- The words of the language that errors repeat: the names of types and nodes, and the
    spellings of operators. -/
inductive Vocabulary : String → Prop
  | type (v : Value) : Vocabulary v.typeName
  | node (t : Tree) : Vocabulary t.typeName
  | comparison {op : String} (h : (Comparison.ofText? op).isSome = true) : Vocabulary op
  | arithmetic {op : String} (h : (Arithmetic.ofText? op).isSome = true) : Vocabulary op
  | logical {op : String} (h : op = "not" ∨ op = "and" ∨ op = "or") : Vocabulary op
  | negation {op : String} (h : Value.isNegation op = true) : Vocabulary op

/-- Errors of programs, in the words of `W`: not of an operator or a node that evaluation does
    not know.  The name of an unknown variable and the text of an index can be any text, as a
    program may have computed them. -/
def EvalError.IsExpected (W : String → Prop) : EvalError → Prop
  | unknownArithmetic _ | unknownComparison _ | unknownLogical _ | unknownUnary _
  | unsupportedNode _ => False
  | duplicateDeclaration w | constantViolation w | conditionType w | whileType w
  | invalidTarget w | notIndexable w | notCallable w | arity w _ _ | lengthType w => W w
  | logicalType w w' | unaryType w w' | boundTypes w w' | inputType w w' => W w ∧ W w'
  | arithmeticTypes w w' w'' | comparisonTypes w w' w'' => W w ∧ W w' ∧ W w''
  | unknownVariable _ | divisionByZero | indexNotWhole _ | indexOutOfBounds .. | inputArity
  | inputName | stackOverflow => True

/-- Reasons to halt that are no misuse of a tree. -/
def Halt.IsExpected (W : String → Prop) : Halt → Prop
  | error e => e.IsExpected W
  | fault _ => False
  | overflow | unfinished => True

/-- The key is that of a text of `W`. -/
def Key.IsWord (W : String → Prop) (k : Key) : Prop := ∃ w, k = .ofText w ∧ W w

/-- The name is a text of `W`. -/
def Name.IsWord (W : String → Prop) (n : Name) : Prop := ∃ w, n = .ofText w ∧ W w

theorem Name.IsWord.key {W : String → Prop} {n : Name} (h : n.IsWord W) : n.key.IsWord W := by
  obtain ⟨w, rfl, hw⟩ := h
  exact ⟨w, rfl, hw⟩

/-- What evaluation relies on and what it may change. -/
structure Contract where
  /-- are all trees evaluated, and not only those of proper shape? -/
  Loose : Prop
  /-- the names that may be declared, and the words that errors may repeat -/
  Word : String → Prop
  /-- the stores that evaluation meets -/
  Ok : Store → Prop
  /-- the values that evaluation gets hold of -/
  Holds : Store → Value → Prop
  /-- the scopes that evaluation works in -/
  Sees : Store → ScopeRef → Prop
  /-- how evaluation in a scope may change the store -/
  Change : ScopeRef → Store → Store → Prop
  refl : ∀ {r s}, Change r s s
  trans : ∀ {r s₁ s₂ s₃}, Change r s₁ s₂ → Change r s₂ s₃ → Change r s₁ s₃
  holds_mono : ∀ {r s s' v}, Change r s s' → Holds s v → Holds s' v
  sees_mono : ∀ {r s s' r'}, Change r s s' → Sees s r' → Sees s' r'
  word : ∀ {w}, Loose ∨ Vocabulary w → Word w
  bound : ∀ {s r b}, Ok s → b ∈ s.bindings r → Loose ∨ b.name.IsWord Word
  plain : ∀ {s v}, v.IsPlain → Holds s v
  native : ∀ {s f}, Holds s (.native f) → Word f.name
  datum : ∀ {s t}, Loose → Holds s (.datum t)
  function : ∀ {s f},
    Holds s (.function f) ↔
      Sees s f.scope ∧ (∀ p ∈ f.params, Loose ∨ p.IsWord Word) ∧
        ∀ t ∈ f.body, Loose ∨ t.ProperIn Word
  lookup : ∀ {s r name v}, Ok s → Sees s r → s.lookup r name = .ok v → Holds s v
  item : ∀ {s a v}, Ok s → Holds s (.array a) → v ∈ s.items a → Holds s v
  declare : ∀ {s r name v c}, Loose ∨ name.IsWord Word → Ok s → Sees s r → Holds s v →
    s.checkNew r name = .ok () →
    Ok (s.bind r ⟨name.key, v, c⟩) ∧ Change r s (s.bind r ⟨name.key, v, c⟩)
  assign : ∀ {s r name v owner}, Ok s → Sees s r → Holds s v → s.assignable r name = .ok owner →
    Ok (s.rebind owner name.key v) ∧ Change r s (s.rebind owner name.key v)
  setItem : ∀ {r s a i v}, Ok s → Holds s (.array a) → Holds s v →
    Ok (s.setItem a i v) ∧ Change r s (s.setItem a i v)
  addArray : ∀ {r s items}, Ok s → (∀ v ∈ items, Holds s v) →
    Ok (s.addArray items).2 ∧ Change r s (s.addArray items).2 ∧
      Holds (s.addArray items).2 (.array (s.addArray items).1)
  addObject : ∀ {r s entries}, Loose → Ok s → (∀ e ∈ entries, Holds s e.2) →
    Ok (s.addObject entries).2 ∧ Change r s (s.addObject entries).2 ∧
      Holds (s.addObject entries).2 (.object (s.addObject entries).1)
  /-- What is done in a new scope is one change for the scope that it was entered from. -/
  enter : ∀ {r s p}, Ok s → Sees s p →
    Ok (s.addScope (some p)).2 ∧ Sees (s.addScope (some p)).2 (s.addScope (some p)).1 ∧
      ∀ {s'}, Change (s.addScope (some p)).1 (s.addScope (some p)).2 s' → Change r s s'

/-- A contract about every tree allows every name. -/
theorem Contract.bound_of_loose (b : Binding) : True ∨ b.name.IsWord fun _ => True :=
  Or.inl trivial

/-- A contract about every tree and every value is about every function. -/
theorem Contract.function_of_loose (f : Closure) :
    True ↔ True ∧ (∀ p ∈ f.params, True ∨ p.IsWord fun _ => True) ∧
      ∀ t ∈ f.body, True ∨ t.ProperIn fun _ => True :=
  ⟨fun _ => ⟨trivial, fun _ _ => Or.inl trivial, fun _ _ => Or.inl trivial⟩, fun _ => trivial⟩

/-- The reasons for which evaluation may halt. -/
def Contract.Allows (K : Contract) (halt : Halt) : Prop := K.Loose ∨ halt.IsExpected K.Word

/-! ## Runs that leave the store alone -/

/-- A tree is read as a name of its key, or halts the run: it has no key, or is nested too deep. -/
theorem Run.nameOf_cases (depth : Nat) (t : Tree) :
    (∃ n, Run.nameOf depth t = pure n ∧ t.key? = some n.key) ∨
    (Run.nameOf depth t = throw (.fault .noName) ∧ t.key? = none) ∨
    Run.nameOf depth t = throw .overflow := by
  unfold Run.nameOf
  split
  · exact .inl ⟨_, rfl, Tree.key?_text _⟩
  · cases hkey : t.key? with
    | none => exact .inr (.inl ⟨rfl, rfl⟩)
    | some key =>
      unfold Run.spelling
      cases t.spelling? depth with
      | none => exact .inr (.inr rfl)
      | some text => exact .inl ⟨⟨key, text⟩, rfl, rfl⟩

/-- The run does not change the store, and gives what satisfies `Q`.  It halts for a reason that
    the contract allows. -/
def Run.Quiet {α : Type} (K : Contract) (x : Run α) (Q : α → Prop) : Prop :=
  ∀ m, Ends x m (fun a m' => m'.store = m.store ∧ Q a)
    fun e m' => m'.store = m.store ∧ K.Allows e

namespace Run.Quiet

variable {α β : Type} {K : Contract}

theorem bind {x : Run α} {f : α → Run β} {Q : α → Prop} {R : β → Prop} (hx : x.Quiet K Q)
    (hf : ∀ a, Q a → (f a).Quiet K R) : (x >>= f).Quiet K R := by
  intro m
  rw [ends_bind]
  refine (hx m).imp (fun a m₁ ⟨h₁, ha⟩ => ?_) fun _ _ h => h
  exact (hf a ha m₁).imp (fun _ _ ⟨h, hb⟩ => ⟨h.trans h₁, hb⟩) fun _ _ ⟨h, he⟩ => ⟨h.trans h₁, he⟩

theorem pure {a : α} {Q : α → Prop} (h : Q a) : (Pure.pure a : Run α).Quiet K Q :=
  fun _ => ⟨rfl, h⟩

theorem throw {halt : Halt} {Q : α → Prop} (h : K.Allows halt) :
    (MonadExcept.throw halt : Run α).Quiet K Q := fun _ => ⟨rfl, h⟩

theorem fail {e : EvalError} {Q : α → Prop} (h : e.IsExpected K.Word) :
    (Run.fail e : Run α).Quiet K Q := fun _ => ⟨rfl, Or.inr h⟩

theorem display (depth : Nat) (v : Value) :
    (Run.display depth v).Quiet K fun _ => True := by
  intro m
  unfold Run.display Run.store
  simp only [ends_bind, ends_get, ends_pure]
  split
  · exact ⟨rfl, trivial⟩
  · exact ⟨rfl, Or.inr trivial⟩

theorem spelling {W : String → Prop} (depth : Nat) {t : Tree} (h : K.Loose ∨ t.IsWord W) :
    (Run.spelling depth t).Quiet K fun text => K.Loose ∨ W text := by
  rcases h with hl | ⟨w, rfl, hw⟩
  · unfold Run.spelling
    split
    · exact pure (Or.inl hl)
    · exact throw (Or.inl hl)
  · exact pure (Or.inr hw)

theorem nameOf {W : String → Prop} (depth : Nat) {t : Tree} (h : K.Loose ∨ t.IsWord W) :
    (Run.nameOf depth t).Quiet K fun n => K.Loose ∨ n.IsWord W := by
  rcases h with hl | ⟨w, rfl, hw⟩
  · unfold Run.nameOf
    split
    · exact pure (Or.inl hl)
    · split
      · exact bind (spelling (W := fun _ => True) depth (Or.inl hl)) fun _ _ => pure (Or.inl hl)
      · exact throw (Or.inl hl)
  · exact pure (Or.inr ⟨w, rfl, hw⟩)

theorem paramTexts {W : String → Prop} (position : Nat) {params : List Tree}
    (h : ∀ p ∈ params, K.Loose ∨ p.IsWord W) :
    (Eval.paramTexts position params).Quiet K fun _ => True := by
  induction params generalizing position with
  | nil => exact pure trivial
  | cons p params ih =>
    obtain ⟨hp, hps⟩ := List.forall_mem_cons.1 h
    rcases hp with hl | ⟨w, rfl, -⟩
    · unfold Eval.paramTexts
      split
      · exact pure trivial
      · next he =>
        cases he
        exact bind (ih _ hps) fun _ _ => pure trivial
      · exact throw (Or.inl hl)
    · exact bind (ih _ hps) fun _ _ => pure trivial

theorem mapM {f : β → Run α} {l : List β} (hf : ∀ b ∈ l, (f b).Quiet K fun _ => True) :
    (l.mapM f).Quiet K fun _ => True := by
  intro m
  refine (ends_mapM (I := fun m' => m'.store = m.store) (R := fun _ _ => True)
    (fun b hb m₁ h₁ => ?_) rfl).imp (fun _ _ h => ⟨h.1, trivial⟩) fun _ _ h => h
  exact (hf b hb m₁).imp (fun _ _ ⟨h, _⟩ => ⟨h.trans h₁, trivial, fun _ _ => trivial⟩)
    fun _ _ ⟨h, he⟩ => ⟨h.trans h₁, he⟩

theorem write (text : String) : (Run.write text).Quiet K fun _ => True :=
  fun _ => ⟨rfl, trivial⟩

theorem trace {cfg : Settings} {level : Nat} {line : Run String}
    (h : line.Quiet K fun _ => True) :
    (Run.trace cfg level line).Quiet K fun _ => True := by
  unfold Run.trace
  split
  · refine bind h fun text _ => ?_
    unfold Run.emit
    split
    · exact write _
    · exact fun _ => ⟨rfl, trivial⟩
  · exact pure trivial

/-- A trace line that shows a value. -/
theorem displayLine {depth : Nat} {v : Value} {f : String → String} :
    (do return f (← Run.display depth v) : Run String).Quiet K fun _ => True :=
  bind (display depth v) fun _ _ => pure trivial

/-- A trace line that shows the arguments of a call. -/
theorem argumentLine {depth : Nat} {args : List Value} {f : String → String} :
    (do return f (← Eval.argumentText depth args) : Run String).Quiet K fun _ => True := by
  have htext : (Eval.argumentText depth args).Quiet K fun _ => True :=
    bind (mapM fun v _ => display depth v) fun _ _ => pure trivial
  exact bind htext fun _ _ => pure trivial

end Run.Quiet

namespace Contract

variable {K : Contract} {α β : Type} {r : ScopeRef} {m : Machine}

/-! ## Runs that keep a contract -/

variable (K) in
/-- From the machine `m`, the run `x` in the scope `r` keeps the contract, and a value that it
    ends with satisfies `Q`. -/
def Meets (r : ScopeRef) (x : Run α) (Q : Store → α → Prop) (m : Machine) : Prop :=
  Ends x m (fun a m' => K.Ok m'.store ∧ K.Change r m.store m'.store ∧ Q m'.store a)
    fun e m' => K.Ok m'.store ∧ K.Change r m.store m'.store ∧ K.Allows e

theorem Meets.bind {x : Run α} {f : α → Run β} {Q : Store → α → Prop} {R : Store → β → Prop}
    (hx : K.Meets r x Q m)
    (hf : ∀ a m', K.Ok m'.store → K.Change r m.store m'.store → Q m'.store a →
      K.Meets r (f a) R m') : K.Meets r (x >>= f) R m := by
  unfold Meets
  rw [ends_bind]
  refine hx.imp (fun a m₁ ⟨h₁, c₁, hq⟩ => ?_) fun _ _ h => h
  exact (hf a m₁ h₁ c₁ hq).imp (fun _ _ ⟨h₂, c₂, hr⟩ => ⟨h₂, K.trans c₁ c₂, hr⟩)
    fun _ _ ⟨h₂, c₂, he⟩ => ⟨h₂, K.trans c₁ c₂, he⟩

theorem meets_pure {a : α} {Q : Store → α → Prop} (ok : K.Ok m.store) (h : Q m.store a) :
    K.Meets r (pure a) Q m := ⟨ok, K.refl, h⟩

theorem holds_null {s : Store} : K.Holds s .null := K.plain (v := .null) trivial

theorem meets_throw {halt : Halt} {Q : Store → α → Prop} (ok : K.Ok m.store)
    (h : K.Allows halt) : K.Meets r (throw halt) Q m := ⟨ok, K.refl, h⟩

theorem meets_fail {e : EvalError} {Q : Store → α → Prop} (ok : K.Ok m.store)
    (h : e.IsExpected K.Word) : K.Meets r (Run.fail e) Q m := ⟨ok, K.refl, Or.inr h⟩

/-- A quiet run goes before: the store is the same. -/
theorem Meets.quiet_bind {x : Run α} {f : α → Run β} {Q : α → Prop} {R : Store → β → Prop}
    (hx : x.Quiet K Q) (ok : K.Ok m.store)
    (hf : ∀ a m', Q a → m'.store = m.store → K.Meets r (f a) R m') :
    K.Meets r (x >>= f) R m := by
  unfold Meets
  rw [ends_bind]
  refine (hx m).imp (fun a m₁ ⟨h₁, ha⟩ => ?_) fun _ m₁ ⟨h₁, he⟩ => ?_
  · have := hf a m₁ ha h₁
    unfold Meets at this
    rwa [h₁] at this
  · rw [h₁]
    exact ⟨ok, K.refl, he⟩

/-- What a check lets through, and why it does not. -/
theorem meets_lift {x : Except EvalError α} {Q : Store → α → Prop} (ok : K.Ok m.store)
    (h : ∀ a, x = .ok a → Q m.store a) (he : ∀ e, x = .error e → K.Allows (.error e)) :
    K.Meets r (Run.lift x) Q m := by
  cases x with
  | ok a => exact ⟨ok, K.refl, h a rfl⟩
  | error e => exact ⟨ok, K.refl, he e rfl⟩

/-! ## Operations on the store -/

variable (K) in
/-- The name of a type is a word. -/
theorem word_type (v : Value) : K.Word v.typeName := K.word (Or.inr (.type v))

theorem lookup_expected {s : Store} {r : ScopeRef} {name : Name} {e : EvalError}
    (h : s.lookup r name = .error e) : e.IsExpected K.Word := by
  unfold Store.lookup at h
  split at h
  · cases h
  · cases h; exact trivial

/-- The text of a name that may be declared is a word. -/
theorem word_of_name {name : Name} (h : K.Loose ∨ name.IsWord K.Word) : K.Word name.text := by
  rcases h with hl | ⟨w, rfl, hw⟩
  · exact K.word (Or.inl hl)
  · exact hw

theorem checkNew_expected {s : Store} {r : ScopeRef} {name : Name} {e : EvalError}
    (hw : K.Loose ∨ name.IsWord K.Word) (h : s.checkNew r name = .error e) :
    e.IsExpected K.Word := by
  unfold Store.checkNew at h
  split at h
  · cases h; exact word_of_name hw
  · cases h

/-- A text that a scope binds is a word, as it was declared. -/
theorem word_of_find? {s : Store} {r : ScopeRef} {name : Name} {b : Binding} (ok : K.Ok s)
    (hn : K.Loose ∨ name.IsWord fun _ => True) (h : s.find? r name.key = some b) :
    K.Word name.text := by
  have hname : b.name = name.key := by simpa using List.find?_some h
  refine word_of_name ?_
  rcases hn with hl | ⟨w, rfl, -⟩
  · exact Or.inl hl
  · refine (K.bound ok (List.mem_of_find?_eq_some h)).imp_right fun ⟨w', hw', hword⟩ => ?_
    rw [hname, Name.key_ofText, Key.ofText_inj] at hw'
    exact ⟨w, rfl, hw' ▸ hword⟩

theorem word_of_lookup {s : Store} {r : ScopeRef} {text : String} {v : Value} (ok : K.Ok s)
    (h : s.lookup r text = .ok v) : K.Word text := by
  obtain ⟨owner, b, -, hb, -⟩ := Store.lookup_eq_ok h
  have hword : (Name.ofText text).IsWord fun _ => True := ⟨text, rfl, trivial⟩
  exact word_of_find? ok (Or.inr hword) hb

theorem assignable_expected {s : Store} {r : ScopeRef} {name : Name} {e : EvalError}
    (ok : K.Ok s) (hn : K.Loose ∨ name.IsWord fun _ => True)
    (h : s.assignable r name = .error e) : e.IsExpected K.Word := by
  unfold Store.assignable at h
  split at h
  · cases h; exact trivial
  · next ho =>
    split at h
    · cases h
      obtain ⟨b, hb⟩ := Option.isSome_iff_exists.1 (Store.resolve?_isSome ho)
      exact word_of_find? ok hn hb
    · cases h

theorem meets_lookup {name : Name} (ok : K.Ok m.store) (hr : K.Sees m.store r) :
    K.Meets r (Run.lookup r name) K.Holds m :=
  meets_lift ok (fun _ h => K.lookup ok hr h) fun _ h => Or.inr (lookup_expected h)

theorem meets_lookup_word {text : String} (ok : K.Ok m.store) :
    K.Meets r (Run.lookup r text) (fun _ _ => K.Word text) m := by
  show K.Meets r (Run.lift (m.store.lookup r text)) (fun _ _ => K.Word text) m
  exact meets_lift ok (fun _ h => word_of_lookup ok h) fun _ h => Or.inr (lookup_expected h)

/-- What a check puts in the place of the store, and why it does not. -/
theorem meets_replaceStore {f : Store → Except EvalError Store} (ok : K.Ok m.store)
    (h : ∀ s, f m.store = .ok s → K.Ok s ∧ K.Change r m.store s)
    (he : ∀ e, f m.store = .error e → e.IsExpected K.Word) :
    K.Meets r (Run.replaceStore f) (fun _ _ => True) m := by
  unfold Run.replaceStore Run.store Run.changeStore Meets
  simp only [ends_bind, ends_get, ends_pure]
  cases hf : f m.store with
  | error e => exact ⟨ok, K.refl, Or.inr (he e hf)⟩
  | ok s => exact ⟨(h s hf).1, (h s hf).2, trivial⟩

theorem meets_declare {name : Name} {v : Value} {c : Bool} (hw : K.Loose ∨ name.IsWord K.Word)
    (ok : K.Ok m.store) (hr : K.Sees m.store r) (hv : K.Holds m.store v) :
    K.Meets r (Run.declare r name v c) (fun _ _ => True) m := by
  refine meets_replaceStore ok (fun s hs => ?_) fun e he => ?_
  · obtain ⟨hnew, rfl⟩ := Store.declare_eq_ok_iff.1 hs
    exact K.declare hw ok hr hv hnew
  · exact checkNew_expected hw (Store.declare_eq_error_iff.1 he)

theorem meets_assign {name : Name} {v : Value} (hn : K.Loose ∨ name.IsWord fun _ => True)
    (ok : K.Ok m.store) (hr : K.Sees m.store r) (hv : K.Holds m.store v) :
    K.Meets r (Run.assign r name v) (fun _ _ => True) m := by
  refine meets_replaceStore ok (fun s hs => ?_) fun e he => ?_
  · obtain ⟨owner, howner, rfl⟩ := Store.assign_eq_ok_iff.1 hs
    exact K.assign ok hr hv howner
  · exact assignable_expected ok hn (Store.assign_eq_error_iff.1 he)

theorem meets_setItem {a : ArrayRef} {i : Nat} {v : Value} (ok : K.Ok m.store)
    (ha : K.Holds m.store (.array a)) (hv : K.Holds m.store v) :
    K.Meets r (Run.setItem a i v) (fun _ _ => True) m := by
  obtain ⟨h₁, c₁⟩ := K.setItem (r := r) (i := i) ok ha hv
  exact ⟨h₁, c₁, trivial⟩

theorem meets_newArray {items : List Value} (ok : K.Ok m.store)
    (h : ∀ v ∈ items, K.Holds m.store v) : K.Meets r (Run.newArray items) K.Holds m :=
  K.addArray ok fun v hv => h v (by simpa using hv)

theorem meets_newObject {entries : List (Name × Value)} (hl : K.Loose) (ok : K.Ok m.store)
    (h : ∀ e ∈ entries, K.Holds m.store e.2) : K.Meets r (Run.newObject entries) K.Holds m :=
  K.addObject hl ok h

/-- What is done in a new scope, seen from another one. -/
theorem meets_inside {p : ScopeRef} {x : ScopeRef → Run α} {Q : Store → α → Prop}
    (ok : K.Ok m.store) (hp : K.Sees m.store p)
    (hx : ∀ inner m', K.Ok m'.store → K.Sees m'.store inner →
      (∀ v, K.Holds m.store v → K.Holds m'.store v) → K.Meets inner (x inner) Q m') :
    K.Meets r (Run.newScope p >>= x) Q m := by
  obtain ⟨h₁, hs, henter⟩ := K.enter (r := r) ok hp
  unfold Meets Run.newScope
  rw [ends_bind, ends_modifyGet]
  have hbody := hx (m.store.addScope (some p)).1 { m with store := (m.store.addScope (some p)).2 }
    h₁ hs fun v hv => K.holds_mono (henter K.refl) hv
  exact Ends.imp hbody (fun _ _ ⟨h₂, c₂, hq⟩ => ⟨h₂, henter c₂, hq⟩)
    fun _ _ ⟨h₂, c₂, he⟩ => ⟨h₂, henter c₂, he⟩

end Contract

end BoxScript
