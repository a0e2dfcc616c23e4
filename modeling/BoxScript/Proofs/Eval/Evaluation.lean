/-
  Evaluation keeps every contract.

  One lemma for each form of statement and expression, given that the trees inside it keep
  the contract; the whole evaluator follows by the depth.

  * `Contract.Takes`: the tree is one that the contract is about;
  * `Contract.evaluate_meets`: **evaluation keeps every contract** about the tree, whether it
    ends with a value or halts;
  * `Contract.callValue_meets` and `Contract.runProgram_meets`: so do calls and whole runs.
    A function of the program does not use the scope that it is called from
    (`Contract.callClosure_meets`).
-/
import BoxScript.Proofs.Eval.Contract

namespace BoxScript.Contract

variable {K : Contract} {α : Type} {r : ScopeRef} {m : Machine}

/-! ## Statements -/

variable (K) in
/-- The tree is one that the contract is about. -/
def Takes (t : Tree) : Prop := K.Loose ∨ t.ProperIn K.Word

variable (K) in
/-- So are the elements of a field that holds a list. -/
def TakesItems (t : Tree) : Prop := K.Loose ∨ t.ItemsIn K.Word

variable (K) in
/-- So are the statements of a field that holds a block. -/
def TakesBody (t : Tree) : Prop := K.Loose ∨ t.BodyIn K.Word

variable (K) in
/-- The evaluator keeps the contract in every scope that may be used. -/
def Evaluates (eval : Evaluator) : Prop :=
  ∀ t r m, K.Takes t → K.Ok m.store → K.Sees m.store r → K.Meets r (eval t r) K.Holds m

variable {cfg : Settings} {depth : Nat} {eval : Evaluator}

theorem sequence_quiet {t : Tree} (ht : K.TakesItems t) :
    (Eval.sequence t).Quiet K fun l => ∀ i ∈ l, K.Takes i := by
  unfold Eval.sequence
  rcases ht with hl | ⟨items, rfl, h⟩
  · split
    · exact .pure fun _ _ => Or.inl hl
    · exact .throw (Or.inl hl)
  · exact .pure fun i hi => Or.inr (h i hi)

theorem statementsOf_quiet {t : Tree} (ht : K.TakesBody t) :
    (Eval.statementsOf t).Quiet K fun l => ∀ i ∈ l, K.Takes i := by
  unfold Eval.statementsOf
  rcases ht with hl | ⟨items, rfl, h⟩
  · split
    · exact sequence_quiet (Or.inl hl)
    · exact .throw (Or.inl hl)
  · exact sequence_quiet (Or.inr ⟨items, rfl, h⟩)

theorem block_meets (heval : K.Evaluates eval) {l : List Tree} (hl : ∀ t ∈ l, K.Takes t)
    (ok : K.Ok m.store) (hr : K.Sees m.store r) :
    K.Meets r (Eval.block eval l r) K.Holds m := by
  refine ends_foldlM (I := fun (m' : Machine) v => K.Ok m'.store ∧
    K.Change r m.store m'.store ∧ K.Holds m'.store v) (fun t ht v m₁ ⟨h₁, c₁, _⟩ => ?_)
    ⟨ok, K.refl, K.holds_null⟩
  exact Ends.imp (heval t r m₁ (hl t ht) h₁ (K.sees_mono c₁ hr))
    (fun _ _ ⟨h₂, c₂, hv⟩ => ⟨h₂, K.trans c₁ c₂, hv⟩)
    fun _ _ ⟨h₂, c₂, he⟩ => ⟨h₂, K.trans c₁ c₂, he⟩

/-- The elements of a field, evaluated as a block. -/
theorem items_meets (heval : K.Evaluates eval) {t : Tree} (ht : K.TakesItems t)
    (ok : K.Ok m.store) (hr : K.Sees m.store r) :
    K.Meets r (do Eval.block eval (← Eval.sequence t) r) K.Holds m :=
  .quiet_bind (sequence_quiet ht) ok fun _ _ hl hm =>
    block_meets heval hl (hm ▸ ok) (hm ▸ hr)

/-- The statements of a field, evaluated as a block. -/
theorem body_meets (heval : K.Evaluates eval) {t : Tree} (ht : K.TakesBody t)
    (ok : K.Ok m.store) (hr : K.Sees m.store r) :
    K.Meets r (do Eval.block eval (← Eval.statementsOf t) r) K.Holds m :=
  .quiet_bind (statementsOf_quiet ht) ok fun _ _ hl hm =>
    block_meets heval hl (hm ▸ ok) (hm ▸ hr)

theorem declaration_meets (heval : K.Evaluates eval) {name initializer : Tree} (constant : Tree)
    (hw : K.Loose ∨ name.IsWord K.Word) (hi : initializer.isAbsent = false → K.Takes initializer)
    (ok : K.Ok m.store) (hr : K.Sees m.store r) :
    K.Meets r (Eval.declaration cfg depth eval name initializer constant r) K.Holds m := by
  have hrest : ∀ v m', K.Ok m'.store → K.Sees m'.store r → K.Holds m'.store v →
      K.Meets r (do
        let name ← Run.nameOf depth name
        Run.declare r name v constant.isSet
        Run.trace cfg 2 do
          let text ← Run.display depth v
          return "declare " ++ (if constant.isSet then "constant " else "variable ") ++
            name.text ++ ": " ++ v.typeName ++ " = " ++ text
        return v) K.Holds m' := by
    intro v m₁ h₁ hr₁ hv
    refine .quiet_bind (.nameOf depth hw) h₁ fun n m₂ hn h₂ => ?_
    refine (meets_declare hn (h₂ ▸ h₁) (h₂ ▸ hr₁) (h₂ ▸ hv)).bind fun _ m₃ h₃ c₃ _ => ?_
    refine .quiet_bind (.trace .displayLine) h₃ fun _ m₄ _ h₄ => ?_
    exact meets_pure (h₄ ▸ h₃) (h₄ ▸ K.holds_mono c₃ (h₂ ▸ hv))
  unfold Eval.declaration
  extract_lets rest
  split
  · exact (meets_pure ok holds_null).bind fun v m₁ h₁ c₁ hv =>
      hrest v m₁ h₁ (K.sees_mono c₁ hr) hv
  · next ha =>
    exact (heval initializer r m (hi (by simpa using ha)) ok hr).bind fun v m₁ h₁ c₁ hv =>
      hrest v m₁ h₁ (K.sees_mono c₁ hr) hv

theorem functionDeclaration_meets {name params body : Tree}
    (hw : K.Loose ∨ name.IsWord K.Word)
    (hp : K.Loose ∨ ∃ items, params = .list items ∧ ∀ p ∈ items, p.IsWord K.Word)
    (hb : K.TakesBody body) (ok : K.Ok m.store) (hr : K.Sees m.store r) :
    K.Meets r (Eval.functionDeclaration cfg depth name params body r) K.Holds m := by
  have hparams : (Eval.sequence params).Quiet K fun ps =>
      ∀ p ∈ ps, K.Loose ∨ p.IsWord K.Word := by
    unfold Eval.sequence
    rcases hp with hl | ⟨items, rfl, h⟩
    · split
      · exact .pure fun _ _ => Or.inl hl
      · exact .throw (Or.inl hl)
    · exact .pure fun p hp => Or.inr (h p hp)
  unfold Eval.functionDeclaration
  refine .quiet_bind hparams ok fun ps m₁ hps h₁ => ?_
  have ok₁ : K.Ok m₁.store := h₁ ▸ ok
  refine .quiet_bind (statementsOf_quiet hb) ok₁ fun stmts m₂ hstmts h₂ => ?_
  have ok₂ : K.Ok m₂.store := h₂ ▸ ok₁
  refine .quiet_bind (.nameOf depth hw) ok₂ fun n m₃ hn h₃ => ?_
  have hr₃ : K.Sees m₃.store r := by rw [h₃, h₂, h₁]; exact hr
  have hf : ∀ s, K.Sees s r → K.Holds s (.function ⟨n.text, ps, stmts, r⟩) :=
    fun s h => K.function.2 ⟨h, hps, hstmts⟩
  refine (meets_declare hn (h₃ ▸ ok₂) hr₃ (hf _ hr₃)).bind fun _ m₄ h₄ c₄ _ => ?_
  refine .quiet_bind (.trace (.bind (.paramTexts 0 hps) fun _ _ => .pure trivial)) h₄
    fun _ m₅ _ h₅ => ?_
  exact meets_pure (h₅ ▸ h₄) (h₅ ▸ hf _ (K.sees_mono c₄ hr₃))

theorem ifStatement_meets (heval : K.Evaluates eval) {test consequent alternate : Tree}
    (ht : K.Takes test) (hc : K.TakesBody consequent)
    (ha : alternate.isAbsent = false → K.TakesBody alternate) (ok : K.Ok m.store)
    (hr : K.Sees m.store r) :
    K.Meets r (Eval.ifStatement cfg depth eval test consequent alternate r) K.Holds m := by
  unfold Eval.ifStatement
  refine (heval test r m ht ok hr).bind fun v m₁ h₁ c₁ _ => ?_
  refine .quiet_bind (.trace .displayLine) h₁ fun _ m₂ _ h₂ => ?_
  have ok₂ : K.Ok m₂.store := h₂ ▸ h₁
  have hr₂ : K.Sees m₂.store r := h₂ ▸ K.sees_mono c₁ hr
  split
  · exact body_meets heval hc ok₂ hr₂
  · split
    · exact meets_pure ok₂ holds_null
    · next hn => exact body_meets heval (ha (by simpa using hn)) ok₂ hr₂

theorem whilePasses_meets {test : Run Bool} {pass : Run Unit}
    (htest : ∀ m, K.Ok m.store → K.Sees m.store r → K.Meets r test (fun _ _ => True) m)
    (hpass : ∀ m, K.Ok m.store → K.Sees m.store r → K.Meets r pass (fun _ _ => True) m) :
    ∀ (passes : Nat) (m : Machine), K.Ok m.store → K.Sees m.store r →
      K.Meets r (Eval.whilePasses test pass passes) K.Holds m
  | 0, _, ok, _ => meets_throw ok (Or.inr trivial)
  | passes + 1, m, ok, hr => by
    unfold Eval.whilePasses
    refine (htest m ok hr).bind fun b m₁ h₁ c₁ _ => ?_
    split
    · refine (hpass m₁ h₁ (K.sees_mono c₁ hr)).bind fun _ m₂ h₂ c₂ _ => ?_
      exact whilePasses_meets htest hpass passes m₂ h₂ (K.sees_mono c₂ (K.sees_mono c₁ hr))
    · exact meets_pure h₁ holds_null

theorem meets_discard {x : Run α} {Q : Store → α → Prop} (h : K.Meets r x Q m) :
    K.Meets r (discard x) (fun _ _ => True) m :=
  ends_discard.2 (Ends.imp h (fun _ _ ⟨h₁, c₁, _⟩ => ⟨h₁, c₁, trivial⟩) fun _ _ h => h)

theorem whileStatement_meets (heval : K.Evaluates eval) {test body : Tree} (ht : K.Takes test)
    (hb : K.TakesBody body) (ok : K.Ok m.store) (hr : K.Sees m.store r) :
    K.Meets r (Eval.whileStatement cfg eval test body r) K.Holds m := by
  unfold Eval.whileStatement
  refine whilePasses_meets (fun m₁ h₁ hr₁ => ?_) (fun m₁ h₁ hr₁ => ?_) _ m ok hr
  · unfold Eval.whileTest
    refine (heval test r m₁ ht h₁ hr₁).bind fun v m₂ h₂ _ _ => ?_
    split
    · refine .quiet_bind (.trace (.pure trivial)) h₂ fun _ m₃ _ h₃ => ?_
      exact meets_pure (h₃ ▸ h₂) trivial
    · exact meets_fail h₂ (K.word_type _)
  · refine .quiet_bind (statementsOf_quiet hb) h₁ fun l m₂ hl h₂ => ?_
    exact meets_discard (block_meets heval hl (h₂ ▸ h₁) (h₂ ▸ hr₁))

/-- A pass works in a new scope inside that of the loop, so the contract is kept as seen from any
    scope `r`. -/
theorem forPass_meets (heval : K.Evaluates eval) {loopVar body : Tree}
    (hw : K.Loose ∨ loopVar.IsWord K.Word) (hb : K.TakesBody body) (count : Float) {p : ScopeRef}
    (ok : K.Ok m.store) (hp : K.Sees m.store p) :
    K.Meets r (Eval.forPass cfg depth eval loopVar body p count) (fun _ _ => True) m := by
  unfold Eval.forPass
  refine .quiet_bind (.trace (.bind (.spelling depth hw) fun _ _ => .displayLine)) ok
    fun _ m₁ _ h₁ => ?_
  refine meets_inside (h₁ ▸ ok) (h₁ ▸ hp) fun inner m₂ h₂ hi _ => ?_
  refine .quiet_bind (.nameOf depth hw) h₂ fun n m₃ hn h₃ => ?_
  have hi₃ : K.Sees m₃.store inner := h₃ ▸ hi
  refine (meets_declare hn (h₃ ▸ h₂) hi₃ (K.plain (v := .number count) trivial)).bind
    fun _ m₄ h₄ c₄ _ => ?_
  refine .quiet_bind (statementsOf_quiet hb) h₄ fun l m₅ hl h₅ => ?_
  exact meets_discard (block_meets heval hl (h₅ ▸ h₄) (h₅ ▸ K.sees_mono c₄ hi₃))

theorem forPasses_meets {stop : Float} {pass : Float → Run Unit} {p : ScopeRef}
    (hpass : ∀ count m, K.Ok m.store → K.Sees m.store p →
      K.Meets r (pass count) (fun _ _ => True) m) :
    ∀ (passes : Nat) (count : Float) (m : Machine), K.Ok m.store → K.Sees m.store p →
      K.Meets r (Eval.forPasses stop pass passes count) K.Holds m
  | 0, _, _, ok, _ => meets_throw ok (Or.inr trivial)
  | passes + 1, count, m, ok, hp => by
    unfold Eval.forPasses
    split
    · refine (hpass count m ok hp).bind fun _ m₁ h₁ c₁ _ => ?_
      exact forPasses_meets hpass passes _ m₁ h₁ (K.sees_mono c₁ hp)
    · exact meets_pure ok holds_null

theorem forStatement_meets (heval : K.Evaluates eval) {loopVar start stop body : Tree}
    (hw : K.Loose ∨ loopVar.IsWord K.Word) (hs : K.Takes start) (ht : K.Takes stop)
    (hb : K.TakesBody body) (ok : K.Ok m.store) (hr : K.Sees m.store r) :
    K.Meets r (Eval.forStatement cfg depth eval loopVar start stop body r) K.Holds m := by
  unfold Eval.forStatement
  refine (heval start r m hs ok hr).bind fun first m₁ h₁ c₁ _ => ?_
  refine (heval stop r m₁ ht h₁ (K.sees_mono c₁ hr)).bind fun last m₂ h₂ c₂ _ => ?_
  split
  · exact forPasses_meets (fun count m₃ h₃ hr₃ => forPass_meets heval hw hb count h₃ hr₃) _ _
      m₂ h₂ (K.sees_mono c₂ (K.sees_mono c₁ hr))
  · exact meets_fail h₂ ⟨K.word_type _, K.word_type _⟩

/-! ## Expressions -/

theorem mapM_meets (heval : K.Evaluates eval) {l : List Tree} (hl : ∀ t ∈ l, K.Takes t)
    (ok : K.Ok m.store) (hr : K.Sees m.store r) :
    K.Meets r (l.mapM fun e => eval e r) (fun s vs => ∀ v ∈ vs, K.Holds s v) m := by
  refine (ends_mapM (I := fun (m' : Machine) => K.Ok m'.store ∧ K.Change r m.store m'.store)
    (R := fun (m' : Machine) v => K.Holds m'.store v) (fun t ht m₁ ⟨h₁, c₁⟩ => ?_)
    ⟨ok, K.refl⟩).imp (fun _ _ ⟨⟨h, c⟩, hvs, _⟩ => ⟨h, c, hvs⟩) fun _ _ h => h
  refine Ends.imp (heval t r m₁ (hl t ht) h₁ (K.sees_mono c₁ hr))
    (fun v m₂ ⟨h₂, c₂, hv⟩ => ?_) fun _ _ ⟨h₂, c₂, he⟩ => ⟨h₂, K.trans c₁ c₂, he⟩
  exact ⟨⟨h₂, K.trans c₁ c₂⟩, hv, fun _ hw => K.holds_mono c₂ hw⟩

/-- The elements of a field, evaluated one after the other, and what is done with them. -/
theorem arguments_bind (heval : K.Evaluates eval) {t : Tree} (ht : K.TakesItems t)
    (ok : K.Ok m.store) (hr : K.Sees m.store r) {f : List Value → Run α} {R : Store → α → Prop}
    (hf : ∀ vs m', K.Ok m'.store → K.Change r m.store m'.store → (∀ v ∈ vs, K.Holds m'.store v) →
      K.Meets r (f vs) R m') :
    K.Meets r (do f (← (← Eval.sequence t).mapM fun e => eval e r)) R m := by
  refine .quiet_bind (sequence_quiet ht) ok fun l m₁ hl h₁ => ?_
  exact (mapM_meets heval hl (h₁ ▸ ok) (h₁ ▸ hr)).bind fun vs m₂ h₂ c₂ hvs =>
    hf vs m₂ h₂ (h₁ ▸ c₂) hvs

theorem position_quiet (depth : Nat) (index : Value) (length : Nat) :
    (Eval.position depth index length).Quiet K fun _ => True := by
  unfold Eval.position
  split
  · split
    · split
      · exact .pure trivial
      · exact .fail trivial
    · exact .bind (.display _ _) fun _ _ => .fail trivial
  · exact .bind (.display _ _) fun _ _ => .fail trivial

theorem element_meets (heval : K.Evaluates eval) {array index : Tree} (ha : K.Takes array)
    (hi : K.Takes index) (ok : K.Ok m.store) (hr : K.Sees m.store r) :
    K.Meets r (Eval.element depth eval array index r) (fun s p => K.Holds s (.array p.1)) m := by
  unfold Eval.element
  refine (heval array r m ha ok hr).bind fun base m₁ h₁ c₁ hbase => ?_
  refine (heval index r m₁ hi h₁ (K.sees_mono c₁ hr)).bind fun place m₂ h₂ c₂ _ => ?_
  split
  · next a =>
    refine .quiet_bind (Q := fun _ => True) (fun _ => ⟨rfl, trivial⟩) h₂ fun s m₃ _ h₃ => ?_
    have ok₃ : K.Ok m₃.store := h₃ ▸ h₂
    refine .quiet_bind (position_quiet _ _ _) ok₃ fun i m₄ _ h₄ => ?_
    exact meets_pure (h₄ ▸ ok₃) (by rw [h₄, h₃]; exact K.holds_mono c₂ hbase)
  · exact meets_fail h₂ (K.word_type _)

theorem access_meets (heval : K.Evaluates eval) {array index : Tree} (ha : K.Takes array)
    (hi : K.Takes index) (ok : K.Ok m.store) (hr : K.Sees m.store r) :
    K.Meets r (Eval.access depth eval array index r) K.Holds m := by
  unfold Eval.access
  refine (element_meets heval ha hi ok hr).bind fun p m₁ h₁ _ hp => ?_
  refine ⟨h₁, K.refl, ?_⟩
  show K.Holds m₁.store ((m₁.store.items p.1)[p.2]?.getD .null)
  cases hi : (m₁.store.items p.1)[p.2]? with
  | none => exact holds_null
  | some v => exact K.item h₁ hp (Array.mem_of_getElem? hi)

theorem assignment_meets (heval : K.Evaluates eval) {target value : Tree}
    (ht : ∀ a i, target = .arrayAccess a i → K.Takes a ∧ K.Takes i)
    (hs : ∀ symbol, target = .identifier symbol → K.Loose ∨ symbol.IsWord fun _ => True)
    (hv : K.Takes value) (ok : K.Ok m.store) (hr : K.Sees m.store r) :
    K.Meets r (Eval.assignment depth eval target value r) K.Holds m := by
  unfold Eval.assignment
  split
  · next a i =>
    obtain ⟨ha, hi⟩ := ht a i rfl
    refine (element_meets heval ha hi ok hr).bind fun p m₁ h₁ c₁ hp => ?_
    refine (heval value r m₁ hv h₁ (K.sees_mono c₁ hr)).bind fun v m₂ h₂ c₂ hv => ?_
    refine (meets_setItem h₂ (K.holds_mono c₂ hp) hv).bind fun _ m₃ h₃ c₃ _ => ?_
    exact meets_pure h₃ (K.holds_mono c₃ hv)
  · next symbol =>
    refine (heval value r m hv ok hr).bind fun v m₁ h₁ c₁ hv => ?_
    refine .quiet_bind (.nameOf depth (hs symbol rfl)) h₁ fun n m₂ hn h₂ => ?_
    have hv₂ : K.Holds m₂.store v := h₂ ▸ hv
    refine (meets_assign hn (h₂ ▸ h₁) (h₂ ▸ K.sees_mono c₁ hr) hv₂).bind fun _ m₃ h₃ c₃ _ => ?_
    exact meets_pure h₃ (K.holds_mono c₃ hv₂)
  · exact meets_fail ok (K.word (Or.inr (.node _)))

theorem booleanOperand_quiet {operator : Tree} (ho : K.Loose ∨ operator.IsWord K.Word)
    (v : Value) : (Eval.booleanOperand depth operator v).Quiet K fun _ => True := by
  unfold Eval.booleanOperand
  split
  · exact .pure trivial
  · refine .bind (.spelling depth ho) fun op hop => ?_
    exact .fail ⟨hop.elim (fun hl => K.word (Or.inl hl)) id, K.word_type _⟩

theorem holds_boolean {s : Store} {b : Bool} : K.Holds s (.boolean b) :=
  K.plain (v := .boolean b) trivial

/-- The left operand is evaluated in any case; the right one only for `and` and `or`, and other
    operators are known only to the loose. -/
theorem logical_meets (heval : K.Evaluates eval) {operator left right : Tree}
    (ho : K.Loose ∨ operator.IsWord fun op => op = "not" ∨ op = "and" ∨ op = "or")
    (hl : K.Takes left) (hright : operator ≠ .text "not" → K.Takes right) (ok : K.Ok m.store)
    (hr : K.Sees m.store r) :
    K.Meets r (Eval.logical depth eval operator left right r) K.Holds m := by
  have hw : K.Loose ∨ operator.IsWord K.Word :=
    ho.imp_right fun ⟨op, he, hop⟩ => ⟨op, he, K.word (Or.inr (.logical hop))⟩
  unfold Eval.logical
  refine (heval left r m hl ok hr).bind fun v m₁ h₁ c₁ _ => ?_
  refine .quiet_bind (booleanOperand_quiet hw _) h₁ fun a m₂ _ h₂ => ?_
  have ok₂ : K.Ok m₂.store := h₂ ▸ h₁
  have hrest : operator ≠ .text "not" → K.Meets r (do
      return Value.boolean (← Eval.booleanOperand depth operator (← eval right r)))
      K.Holds m₂ := by
    intro hn
    refine (heval right r m₂ (hright hn) ok₂ (h₂ ▸ K.sees_mono c₁ hr)).bind fun w m₃ h₃ _ _ => ?_
    refine .quiet_bind (booleanOperand_quiet hw _) h₃ fun b m₄ _ h₄ => ?_
    exact meets_pure (h₄ ▸ h₃) holds_boolean
  extract_lets rest
  split
  · exact meets_pure ok₂ holds_boolean
  · split
    · exact hrest (by simp)
    · exact meets_pure ok₂ holds_boolean
  · split
    · exact meets_pure ok₂ holds_boolean
    · exact hrest (by simp)
  · next hn ha hor =>
    have hloose : K.Loose := by
      refine ho.resolve_right ?_
      rintro ⟨_, rfl, rfl | rfl | rfl⟩
      · exact hn rfl
      · exact ha rfl
      · exact hor rfl
    refine .quiet_bind (.spelling (W := fun _ => True) depth (Or.inl hloose)) ok₂
      fun op m₃ _ h₃ => ?_
    exact meets_throw (h₃ ▸ ok₂) (Or.inl hloose)

theorem mem_insertEntry {entries : List (Name × Value)} {name : Name} {v : Value}
    {e : Name × Value} (h : e ∈ Store.insertEntry entries name v) : e ∈ entries ∨ e.2 = v := by
  induction entries with
  | nil =>
    simp only [Store.insertEntry, List.mem_singleton] at h
    exact Or.inr (by rw [h])
  | cons p rest ih =>
    obtain ⟨n, w⟩ := p
    unfold Store.insertEntry at h
    split at h
    · rcases List.mem_cons.1 h with rfl | h
      · exact Or.inr rfl
      · exact Or.inl (List.mem_cons_of_mem _ h)
    · rcases List.mem_cons.1 h with rfl | h
      · exact Or.inl (List.mem_cons_self ..)
      · exact (ih h).imp (List.mem_cons_of_mem _) id

theorem property_meets (hl : K.Loose) (heval : K.Evaluates eval) (key value : Tree)
    (ok : K.Ok m.store) (hr : K.Sees m.store r) :
    K.Meets r (Eval.property depth eval key value r) (fun s p => K.Holds s p.2) m := by
  have hname : (Run.nameOf depth key).Quiet K fun n => K.Loose ∨ n.IsWord fun _ => True :=
    .nameOf depth (Or.inl hl)
  unfold Eval.property
  split
  · refine .quiet_bind hname ok fun n m₁ _ h₁ => ?_
    refine (meets_lookup (h₁ ▸ ok) (h₁ ▸ hr)).bind fun v m₂ h₂ _ hv => ?_
    exact meets_pure h₂ hv
  · refine (heval value r m (Or.inl hl) ok hr).bind fun v m₁ h₁ _ hv => ?_
    refine .quiet_bind hname h₁ fun n m₂ _ h₂ => ?_
    exact meets_pure (h₂ ▸ h₁) (h₂ ▸ hv)

theorem properties_meets (hl : K.Loose) (heval : K.Evaluates eval) :
    ∀ (l : List Tree) (done : List (Name × Value)) (m : Machine), K.Ok m.store →
      K.Sees m.store r → (∀ e ∈ done, K.Holds m.store e.2) →
      K.Meets r (Eval.properties depth eval r done l) (fun s es => ∀ e ∈ es, K.Holds s e.2) m
  | [], _, _, ok, _, hdone => meets_pure ok hdone
  | t :: rest, done, m, ok, hr, hdone => by
    unfold Eval.properties
    split
    · next h => cases h
    · next key value _ h =>
      cases h
      refine (property_meets hl heval key value ok hr).bind fun p m₁ h₁ c₁ hp => ?_
      refine properties_meets hl heval rest _ m₁ h₁ (K.sees_mono c₁ hr) fun e he => ?_
      rcases mem_insertEntry he with he | he
      · exact K.holds_mono c₁ (hdone e he)
      · rw [he]; exact hp
    · next other _ h =>
      cases h
      split
      · exact meets_throw ok (Or.inl hl)
      · next value _ =>
        extract_lets next
        split
        · exact meets_throw ok (Or.inl hl)
        · exact (meets_discard (heval value r m (Or.inl hl) ok hr)).bind fun _ m₁ h₁ _ _ =>
            meets_throw h₁ (Or.inl hl)

/-! ## Calls -/

theorem bindParams_meets :
    ∀ (params : List Tree) (args : List Value) (m : Machine),
      (∀ p ∈ params, K.Loose ∨ p.IsWord K.Word) → K.Ok m.store → K.Sees m.store r →
      (∀ v ∈ args, K.Holds m.store v) →
      K.Meets r (Eval.bindParams depth r params args) (fun _ _ => True) m
  | [], _, _, _, ok, _, _ => meets_pure ok trivial
  | p :: params, [], m, hp, ok, hr, _ => by
    obtain ⟨hp, hps⟩ := List.forall_mem_cons.1 hp
    unfold Eval.bindParams
    refine .quiet_bind (.nameOf depth hp) ok fun n m₁ hn h₁ => ?_
    have hr₁ : K.Sees m₁.store r := h₁ ▸ hr
    refine (meets_declare hn (h₁ ▸ ok) hr₁ holds_null).bind fun _ m₂ h₂ c₂ _ => ?_
    exact bindParams_meets params [] m₂ hps h₂ (K.sees_mono c₂ hr₁) (by simp)
  | p :: params, v :: args, m, hp, ok, hr, hargs => by
    obtain ⟨hp, hps⟩ := List.forall_mem_cons.1 hp
    unfold Eval.bindParams
    refine .quiet_bind (.nameOf depth hp) ok fun n m₁ hn h₁ => ?_
    have hr₁ : K.Sees m₁.store r := h₁ ▸ hr
    have hargs₁ : ∀ w ∈ v :: args, K.Holds m₁.store w := h₁ ▸ hargs
    refine (meets_declare hn (h₁ ▸ ok) hr₁ (hargs₁ v (by simp))).bind fun _ m₂ h₂ c₂ _ => ?_
    exact bindParams_meets params args m₂ hps h₂ (K.sees_mono c₂ hr₁)
      fun w hw => K.holds_mono c₂ (hargs₁ w (by simp [hw]))

/-- A call of a function of the program works in a new scope inside the one of the function,
    so the contract is kept as seen from any scope `r`. -/
theorem callClosure_meets (heval : K.Evaluates eval) (f : Closure) (args : List Value)
    (ok : K.Ok m.store) (hf : K.Holds m.store (.function f))
    (hargs : ∀ v ∈ args, K.Holds m.store v) :
    K.Meets r (Eval.callClosure cfg depth eval f args) K.Holds m := by
  unfold Eval.callClosure
  refine .quiet_bind (.trace .argumentLine) ok fun _ m₁ _ h₁ => ?_
  obtain ⟨hscope, hparams, hbody⟩ := K.function.1 hf
  refine meets_inside (h₁ ▸ ok) (h₁ ▸ hscope) fun inner m₂ h₂ hi hkeep => ?_
  have hargs₂ : ∀ v ∈ args, K.Holds m₂.store v := fun v hv => hkeep v (h₁ ▸ hargs v hv)
  refine (bindParams_meets f.params args m₂ hparams h₂ hi hargs₂).bind fun _ m₃ h₃ c₃ _ => ?_
  exact block_meets heval hbody h₃ (K.sees_mono c₃ hi)

theorem askFor_meets {name : String} (hw : K.Word name) (prompt : String) (current : Value)
    (ok : K.Ok m.store) (hr : K.Sees m.store r) :
    K.Meets r (Native.askFor r name prompt current) K.Holds m := by
  have hn : K.Loose ∨ (Name.ofText name).IsWord fun _ => True := Or.inr ⟨name, rfl, trivial⟩
  unfold Native.askFor
  split
  · refine .quiet_bind (Q := fun _ => True) (fun _ => ⟨rfl, trivial⟩) ok fun answer m₁ _ h₁ => ?_
    split
    · next x =>
      refine (meets_assign hn (h₁ ▸ ok) (h₁ ▸ hr) (K.plain (v := .number x) trivial)).bind
        fun _ m₂ h₂ _ _ => ?_
      exact meets_pure h₂ holds_null
    · exact meets_pure (h₁ ▸ ok) holds_null
  · refine .quiet_bind (Q := fun _ => True) (fun _ => ⟨rfl, trivial⟩) ok fun answer m₁ _ h₁ => ?_
    split
    · next reply =>
      refine (meets_assign hn (h₁ ▸ ok) (h₁ ▸ hr) (K.plain (v := .string reply) trivial)).bind
        fun _ m₂ h₂ _ _ => ?_
      exact meets_pure h₂ holds_null
    · exact meets_pure (h₁ ▸ ok) holds_null
  · exact meets_fail ok ⟨hw, K.word_type _⟩

/-- A variable that is asked for has a value, so its name is a word. -/
theorem lookup_askFor_meets (name prompt : String) (ok : K.Ok m.store) (hr : K.Sees m.store r) :
    K.Meets r (do Native.askFor r name prompt (← Run.lookup r name)) K.Holds m :=
  (meets_lookup_word ok).bind fun v _ h₁ c₁ hw => askFor_meets hw prompt v h₁ (K.sees_mono c₁ hr)

theorem input_meets (args : List Value) (ok : K.Ok m.store) (hr : K.Sees m.store r) :
    K.Meets r (Native.input depth r args) K.Holds m := by
  unfold Native.input
  split
  · exact lookup_askFor_meets _ _ ok hr
  · refine .quiet_bind (.display _ _) ok fun text m₁ _ h₁ => ?_
    exact lookup_askFor_meets _ _ (h₁ ▸ ok) (h₁ ▸ hr)
  · exact meets_fail ok trivial
  · exact meets_fail ok trivial
  · exact meets_fail ok trivial

theorem perform_meets (args : List Value) (action : Action) (ok : K.Ok m.store)
    (hr : K.Sees m.store r) :
    K.Meets r (Native.perform depth r args action) K.Holds m := by
  unfold Native.perform
  split
  · refine .quiet_bind (.mapM fun v _ => .display depth v) ok fun texts m₁ _ h₁ => ?_
    refine .quiet_bind (.write _) (h₁ ▸ ok) fun _ m₂ _ h₂ => ?_
    exact meets_pure (by rw [h₂, h₁]; exact ok) holds_null
  · exact input_meets args ok hr
  · exact .quiet_bind (Q := fun _ => True) (fun _ => ⟨rfl, trivial⟩) ok fun x m₁ _ h₁ =>
      meets_pure (h₁ ▸ ok) (K.plain (v := .number x) trivial)
  · unfold Native.length
    split
    · exact .quiet_bind (Q := fun _ => True) (fun _ => ⟨rfl, trivial⟩) ok fun s m₁ _ h₁ =>
        meets_pure (h₁ ▸ ok) (K.plain (v := .number _) trivial)
    · exact meets_fail ok (K.word_type _)
    · exact meets_pure ok holds_null
  · exact meets_pure ok holds_null

theorem callNative_meets (f : Native) (args : List Value) (ok : K.Ok m.store)
    (hr : K.Sees m.store r) (hf : K.Holds m.store (.native f)) :
    K.Meets r (Eval.callNative cfg depth f args r) K.Holds m := by
  have hrest : K.Meets r (do
      Run.trace cfg 4 do
        return "call native " ++ f.name ++ "(" ++ (← Eval.argumentText depth args) ++ ")"
      Native.perform depth r args f.action) K.Holds m :=
    .quiet_bind (.trace .argumentLine) ok fun _ m₁ _ h₁ =>
      perform_meets args f.action (h₁ ▸ ok) (h₁ ▸ hr)
  unfold Eval.callNative
  extract_lets rest
  split
  · split
    · exact (meets_fail (e := .arity _ _ _) (Q := fun _ _ => False) ok (K.native hf)).bind
        fun _ _ _ _ h => h.elim
    · exact hrest
  · exact hrest

theorem call_meets (heval : K.Evaluates eval) (f : Value) (args : List Value)
    (ok : K.Ok m.store) (hr : K.Sees m.store r) (hf : K.Holds m.store f)
    (hargs : ∀ v ∈ args, K.Holds m.store v) :
    K.Meets r (Eval.call cfg depth eval f args r) K.Holds m := by
  unfold Eval.call
  split
  · exact callClosure_meets heval _ args ok hf hargs
  · exact callNative_meets _ args ok hr hf
  · exact meets_fail ok (K.word_type _)

/-! ## Trees -/

theorem numberOf_meets {t : Tree} (ht : K.Loose ∨ ∃ x, t = .num x) (ok : K.Ok m.store) :
    K.Meets r (Eval.numberOf t) K.Holds m := by
  rcases ht with hl | ⟨x, rfl⟩
  · unfold Eval.numberOf
    split
    · exact meets_pure ok (K.plain (v := .number _) trivial)
    · exact meets_pure ok (K.plain (v := .number _) trivial)
    · split
      · exact meets_pure ok (K.plain (v := .number _) trivial)
      · exact meets_throw ok (Or.inl hl)
    · split
      · exact meets_pure ok (K.plain (v := .number _) trivial)
      · exact meets_throw ok (Or.inl hl)
    · exact meets_throw ok (Or.inl hl)
  · exact meets_pure ok (K.plain (v := .number x) trivial)

theorem holds_ofContent {s : Store} {t : Tree}
    (ht : K.Loose ∨ (∃ x, t = .text x) ∨ ∃ b, t = .bool b) : K.Holds s (.ofContent t) := by
  rcases ht with hl | ⟨x, rfl⟩ | ⟨b, rfl⟩
  · unfold Value.ofContent
    split
    · exact K.plain trivial
    · exact K.plain trivial
    · exact K.plain trivial
    · exact K.datum hl
  · exact K.plain (v := .string x) trivial
  · exact holds_boolean

theorem compare_isPlain {op : String} {a b v : Value} (h : Value.compare op a b = .ok v) :
    v.IsPlain := by
  unfold Value.compare at h
  split at h
  · cases h
  · split at h
    · cases h; exact trivial
    · cases h

theorem compare_expected {op : String} {a b : Value} {e : EvalError}
    (ho : (Comparison.ofText? op).isSome = true) (h : Value.compare op a b = .error e) :
    e.IsExpected K.Word := by
  have hw : K.Word op := K.word (Or.inr (.comparison ho))
  unfold Value.compare at h
  split at h
  · next hn => simp [hn] at ho
  · split at h
    · cases h
    · cases h; exact ⟨hw, K.word_type _, K.word_type _⟩

theorem binary_isPlain {op : String} {a b v : Value} (h : Value.binary op a b = .ok v) :
    v.IsPlain := by
  unfold Value.binary at h
  split at h
  · exact compare_isPlain h
  · split at h
    · cases h
    · split at h
      · obtain ⟨x, -, rfl⟩ := map_eq_ok_iff.1 h; exact trivial
      · cases h

theorem apply_expected {op : Arithmetic} {x y : Float} {e : EvalError}
    (h : op.apply x y = .error e) : e.IsExpected K.Word := by
  unfold Arithmetic.apply at h
  split at h
  · cases h
  · cases h
  · cases h
  · split at h
    · cases h; exact trivial
    · cases h

theorem binary_expected {op : String} {a b : Value} {e : EvalError}
    (ho : (Comparison.ofText? op).isSome = true ∨ (Arithmetic.ofText? op).isSome = true)
    (h : Value.binary op a b = .error e) : e.IsExpected K.Word := by
  unfold Value.binary at h
  split at h
  · next hc => exact compare_expected hc h
  · next hc =>
    have ha := ho.resolve_left hc
    split at h
    · next hn => simp [hn] at ha
    · next op' _ =>
      split at h
      · next x y =>
        cases hxy : op'.apply x y with
        | ok z => rw [hxy] at h; cases h
        | error e' => rw [hxy] at h; cases h; exact apply_expected hxy
      · cases h; exact ⟨K.word (Or.inr (.arithmetic ha)), K.word_type _, K.word_type _⟩

theorem unary_isPlain {op : String} {a v : Value} (h : Value.unary op a = .ok v) :
    v.IsPlain := by
  unfold Value.unary at h
  split at h
  · split at h
    · cases h; exact trivial
    · cases h
  · cases h

theorem unary_expected {op : String} {a : Value} {e : EvalError}
    (ho : Value.isNegation op = true) (h : Value.unary op a = .error e) :
    e.IsExpected K.Word := by
  unfold Value.unary at h
  rw [if_pos ho] at h
  split at h
  · cases h
  · cases h; exact ⟨K.word (Or.inr (.negation ho)), K.word_type _⟩

/-! What a contract that is about a tree says of the fields of the tree. -/

theorem Takes.program {body : Tree} (h : K.Takes (.program body)) : K.TakesItems body := by
  rcases h with hl | ⟨h, hn⟩
  · exact Or.inl hl
  · cases h with | program h => exact Or.inr ⟨_, rfl, Tree.properIn_items h hn⟩

theorem Takes.declaration {name init constant isArray : Tree}
    (h : K.Takes (.variableDeclaration name init constant isArray)) :
    (K.Loose ∨ name.IsWord K.Word) ∧ (init.isAbsent = false → K.Takes init) := by
  rcases h with hl | ⟨h, hn⟩
  · exact ⟨Or.inl hl, fun _ => Or.inl hl⟩
  · cases h with
    | declaration h =>
      obtain ⟨hw, hni⟩ := List.forall_mem_append.1 hn
      exact ⟨Or.inr ⟨_, rfl, List.forall_mem_singleton.1 hw⟩, fun ha => Or.inr ⟨h ha, hni⟩⟩

theorem Takes.function {name params body : Tree}
    (h : K.Takes (.functionDeclaration name params body)) :
    (K.Loose ∨ name.IsWord K.Word) ∧
      (K.Loose ∨ ∃ items, params = .list items ∧ ∀ p ∈ items, p.IsWord K.Word) ∧
      K.TakesBody body := by
  rcases h with hl | ⟨h, hn⟩
  · exact ⟨Or.inl hl, Or.inl hl, Or.inl hl⟩
  · cases h with
    | function h =>
      obtain ⟨hw, hn⟩ := List.forall_mem_append.1 hn
      obtain ⟨hp, hnb⟩ := List.forall_mem_append.1 hn
      have hparams : ∀ w ∈ _, K.Word w := Tree.forall_mem_paramTexts.1 hp
      exact ⟨Or.inr ⟨_, rfl, List.forall_mem_singleton.1 hw⟩,
        Or.inr ⟨_, rfl, List.forall_mem_map.2 fun w hmem => ⟨w, rfl, hparams w hmem⟩⟩,
        Or.inr ⟨_, rfl, Tree.properIn_items h hnb⟩⟩

theorem Takes.ifStatement {test consequent alternate : Tree}
    (h : K.Takes (.ifStatement test consequent alternate)) :
    K.Takes test ∧ K.TakesBody consequent ∧
      (alternate.isAbsent = false → K.TakesBody alternate) := by
  rcases h with hl | ⟨h, hn⟩
  · exact ⟨Or.inl hl, Or.inl hl, fun _ => Or.inl hl⟩
  · obtain ⟨hnt, hn⟩ := List.forall_mem_append.1 hn
    obtain ⟨hnc, hna⟩ := List.forall_mem_append.1 hn
    cases h with
    | ifThen ht h =>
      exact ⟨Or.inr ⟨ht, hnt⟩, Or.inr ⟨_, rfl, Tree.properIn_items h hnc⟩, fun ha => by cases ha⟩
    | ifElse ht h h' =>
      exact ⟨Or.inr ⟨ht, hnt⟩, Or.inr ⟨_, rfl, Tree.properIn_items h hnc⟩,
        fun _ => Or.inr ⟨_, rfl, Tree.properIn_items h' hna⟩⟩

theorem Takes.whileStatement {test body : Tree} (h : K.Takes (.whileStatement test body)) :
    K.Takes test ∧ K.TakesBody body := by
  rcases h with hl | ⟨h, hn⟩
  · exact ⟨Or.inl hl, Or.inl hl⟩
  · obtain ⟨hnt, hnb⟩ := List.forall_mem_append.1 hn
    cases h with
    | whileDo ht h => exact ⟨Or.inr ⟨ht, hnt⟩, Or.inr ⟨_, rfl, Tree.properIn_items h hnb⟩⟩

theorem Takes.forStatement {loopVar start stop body : Tree}
    (h : K.Takes (.forStatement loopVar start stop body)) :
    (K.Loose ∨ loopVar.IsWord K.Word) ∧ K.Takes start ∧ K.Takes stop ∧ K.TakesBody body := by
  rcases h with hl | ⟨h, hn⟩
  · exact ⟨Or.inl hl, Or.inl hl, Or.inl hl, Or.inl hl⟩
  · cases h with
    | forTo hs ht h =>
      obtain ⟨hw, hn⟩ := List.forall_mem_append.1 hn
      obtain ⟨hns, hn⟩ := List.forall_mem_append.1 hn
      obtain ⟨hnt, hnb⟩ := List.forall_mem_append.1 hn
      exact ⟨Or.inr ⟨_, rfl, List.forall_mem_singleton.1 hw⟩, Or.inr ⟨hs, hns⟩, Or.inr ⟨ht, hnt⟩,
        Or.inr ⟨_, rfl, Tree.properIn_items h hnb⟩⟩

theorem Takes.returning {value : Tree} (h : K.Takes (.returnStatement value)) :
    value.isAbsent = false → K.Takes value := by
  rcases h with hl | ⟨h, hn⟩
  · exact fun _ => Or.inl hl
  · cases h with | returning h => exact fun ha => Or.inr ⟨h ha, hn⟩

theorem Takes.array {elements : Tree} (h : K.Takes (.arrayLiteral elements)) :
    K.TakesItems elements := by
  rcases h with hl | ⟨h, hn⟩
  · exact Or.inl hl
  · cases h with | array h => exact Or.inr ⟨_, rfl, Tree.properIn_items h hn⟩

theorem Takes.access {array index : Tree} (h : K.Takes (.arrayAccess array index)) :
    K.Takes array ∧ K.Takes index := by
  rcases h with hl | ⟨h, hn⟩
  · exact ⟨Or.inl hl, Or.inl hl⟩
  · obtain ⟨hna, hni⟩ := List.forall_mem_append.1 hn
    cases h with | access ha hi => exact ⟨Or.inr ⟨ha, hna⟩, Or.inr ⟨hi, hni⟩⟩

theorem Takes.binary {operator left right : Tree}
    (h : K.Takes (.binaryExpression operator left right)) :
    (K.Loose ∨ operator.IsWord fun op =>
      (Comparison.ofText? op).isSome = true ∨ (Arithmetic.ofText? op).isSome = true) ∧
      K.Takes left ∧ K.Takes right := by
  rcases h with hl | ⟨h, hn⟩
  · exact ⟨Or.inl hl, Or.inl hl, Or.inl hl⟩
  · obtain ⟨hna, hnb⟩ := List.forall_mem_append.1 hn
    cases h with
    | binary ho ha hb => exact ⟨Or.inr ⟨_, rfl, ho⟩, Or.inr ⟨ha, hna⟩, Or.inr ⟨hb, hnb⟩⟩

theorem Takes.comparison {operator left right : Tree}
    (h : K.Takes (.comparisonExpression operator left right)) :
    (K.Loose ∨ operator.IsWord fun op => (Comparison.ofText? op).isSome = true) ∧ K.Takes left ∧
      K.Takes right := by
  rcases h with hl | ⟨h, hn⟩
  · exact ⟨Or.inl hl, Or.inl hl, Or.inl hl⟩
  · obtain ⟨hna, hnb⟩ := List.forall_mem_append.1 hn
    cases h with
    | comparison ho ha hb => exact ⟨Or.inr ⟨_, rfl, ho⟩, Or.inr ⟨ha, hna⟩, Or.inr ⟨hb, hnb⟩⟩

theorem Takes.logical {operator left right : Tree}
    (h : K.Takes (.logicalExpression operator left right)) :
    (K.Loose ∨ operator.IsWord fun op => op = "not" ∨ op = "and" ∨ op = "or") ∧
      K.Takes left ∧ (operator ≠ .text "not" → K.Takes right) := by
  rcases h with hl | ⟨h, hn⟩
  · exact ⟨Or.inl hl, Or.inl hl, fun _ => Or.inl hl⟩
  · obtain ⟨hna, hnb⟩ := List.forall_mem_append.1 hn
    cases h with
    | logical ho ha hb =>
      exact ⟨Or.inr ⟨_, rfl, Or.inr ho⟩, Or.inr ⟨ha, hna⟩, fun _ => Or.inr ⟨hb, hnb⟩⟩
    | not ha => exact ⟨Or.inr ⟨_, rfl, Or.inl rfl⟩, Or.inr ⟨ha, hna⟩, fun hne => absurd rfl hne⟩

theorem Takes.negation {operator argument : Tree}
    (h : K.Takes (.unaryExpression operator argument)) :
    (K.Loose ∨ operator.IsWord fun op => Value.isNegation op = true) ∧ K.Takes argument := by
  rcases h with hl | ⟨h, hn⟩
  · exact ⟨Or.inl hl, Or.inl hl⟩
  · cases h with | negation ho ha => exact ⟨Or.inr ⟨_, rfl, ho⟩, Or.inr ⟨ha, hn⟩⟩

theorem Takes.assignment {target value : Tree}
    (h : K.Takes (.assignmentExpression target value)) :
    (∀ a i, target = .arrayAccess a i → K.Takes a ∧ K.Takes i) ∧
      (∀ symbol, target = .identifier symbol → K.Loose ∨ symbol.IsWord fun _ => True) ∧
      K.Takes value := by
  rcases h with hl | ⟨h, hn⟩
  · exact ⟨fun _ _ _ => ⟨Or.inl hl, Or.inl hl⟩, fun _ _ => Or.inl hl, Or.inl hl⟩
  · obtain ⟨hnt, hnv⟩ := List.forall_mem_append.1 hn
    cases h with
    | assign h =>
      refine ⟨fun _ _ ht => (by cases ht), fun _ hs => ?_, Or.inr ⟨h, hnv⟩⟩
      cases hs
      exact Or.inr ⟨_, rfl, trivial⟩
    | store ha hi h =>
      refine ⟨fun a i ht => ?_, fun _ hs => (by cases hs), Or.inr ⟨h, hnv⟩⟩
      cases ht
      obtain ⟨hna, hni⟩ := List.forall_mem_append.1 hnt
      exact ⟨Or.inr ⟨ha, hna⟩, Or.inr ⟨hi, hni⟩⟩

theorem Takes.call {callee arguments : Tree} (h : K.Takes (.callExpression callee arguments)) :
    K.Takes callee ∧ K.TakesItems arguments := by
  rcases h with hl | ⟨h, hn⟩
  · exact ⟨Or.inl hl, Or.inl hl⟩
  · obtain ⟨hnf, hna⟩ := List.forall_mem_append.1 hn
    cases h with
    | call hf h => exact ⟨Or.inr ⟨hf, hnf⟩, Or.inr ⟨_, rfl, Tree.properIn_items h hna⟩⟩

theorem Takes.identifier {symbol : Tree} (h : K.Takes (.identifier symbol)) :
    K.Loose ∨ symbol.IsWord fun _ => True := by
  refine h.imp_right fun h => ?_
  cases h.1 with | identifier s => exact ⟨s, rfl, trivial⟩

/-- An operator that is known to all contracts, or to the loose only. -/
theorem operator_meets {operator : Tree} {P : String → Prop} (ho : K.Loose ∨ operator.IsWord P)
    (ok : K.Ok m.store) {op : String → Except EvalError Value}
    (hplain : ∀ w v, op w = .ok v → v.IsPlain)
    (hexpected : ∀ w e, P w → op w = .error e → e.IsExpected K.Word) :
    K.Meets r (do Run.lift (op (← Run.nameOf depth operator).text)) K.Holds m := by
  refine .quiet_bind (.nameOf depth ho) ok fun n m₁ hn h₁ => ?_
  refine meets_lift (h₁ ▸ ok) (fun v hv => K.plain (hplain _ v hv)) fun e he => ?_
  refine hn.imp_right fun ⟨w, hw, hP⟩ => ?_
  subst hw
  exact hexpected w e hP he

/-- A node that is never of proper shape is taken by the loose only. -/
theorem Takes.loose {t : Tree} (h : K.Takes t) (hn : ¬t.Proper) : K.Loose :=
  h.resolve_right fun hp => hn hp.1

/-- One node: every kind of tree keeps the contract if the trees inside it do. -/
theorem evalStep_meets (heval : K.Evaluates eval) :
    K.Evaluates (Eval.evalStep cfg depth eval) := by
  intro t r m ht ok hr
  unfold Eval.evalStep
  split
  · exact items_meets heval ht.program ok hr
  · exact items_meets heval (Or.inl (ht.loose nofun)) ok hr
  · exact declaration_meets heval _ ht.declaration.1 ht.declaration.2 ok hr
  · obtain ⟨hw, hp, hb⟩ := ht.function
    exact functionDeclaration_meets hw hp hb ok hr
  · obtain ⟨ht, hc, ha⟩ := ht.ifStatement
    exact ifStatement_meets heval ht hc ha ok hr
  · exact whileStatement_meets heval ht.whileStatement.1 ht.whileStatement.2 ok hr
  · obtain ⟨hw, hs, ht, hb⟩ := ht.forStatement
    exact forStatement_meets heval hw hs ht hb ok hr
  · split
    · exact meets_pure ok holds_null
    · next ha => exact heval _ r m (ht.returning (by simpa using ha)) ok hr
  · refine .quiet_bind (.nameOf depth ht.identifier) ok fun _ m₁ _ h₁ => ?_
    exact meets_lookup (h₁ ▸ ok) (h₁ ▸ hr)
  · refine numberOf_meets (ht.imp_right fun h => ?_) ok
    cases h.1 with | number x => exact ⟨x, rfl⟩
  · refine meets_pure ok (holds_ofContent (ht.imp_right fun h => ?_))
    cases h.1 with | string s => exact Or.inl ⟨s, rfl⟩
  · refine meets_pure ok (holds_ofContent (ht.imp_right fun h => ?_))
    cases h.1 with | boolean b => exact Or.inr ⟨b, rfl⟩
  · exact arguments_bind heval ht.array ok hr fun vs m₁ h₁ _ hvs => meets_newArray h₁ hvs
  · exact access_meets heval ht.access.1 ht.access.2 ok hr
  · have hl : K.Loose := ht.loose nofun
    refine .quiet_bind (sequence_quiet (Or.inl hl)) ok fun l m₁ _ h₁ => ?_
    exact (properties_meets hl heval l [] m₁ (h₁ ▸ ok) (h₁ ▸ hr) (by simp)).bind
      fun es m₂ h₂ _ hes => meets_newObject hl h₂ hes
  · obtain ⟨ho, ha, hb⟩ := ht.binary
    refine (heval _ r m ha ok hr).bind fun a m₁ h₁ c₁ _ => ?_
    refine (heval _ r m₁ hb h₁ (K.sees_mono c₁ hr)).bind fun b m₂ h₂ _ _ => ?_
    exact operator_meets ho h₂ (fun _ _ => binary_isPlain) fun _ _ => binary_expected
  · obtain ⟨ho, ha, hb⟩ := ht.comparison
    refine (heval _ r m ha ok hr).bind fun a m₁ h₁ c₁ _ => ?_
    refine (heval _ r m₁ hb h₁ (K.sees_mono c₁ hr)).bind fun b m₂ h₂ _ _ => ?_
    exact operator_meets ho h₂ (fun _ _ => compare_isPlain) fun _ _ => compare_expected
  · obtain ⟨ho, ha, hb⟩ := ht.logical
    exact logical_meets heval ho ha hb ok hr
  · obtain ⟨ho, ha⟩ := ht.negation
    refine (heval _ r m ha ok hr).bind fun a m₁ h₁ _ _ => ?_
    exact operator_meets ho h₁ (fun _ _ => unary_isPlain) fun _ _ => unary_expected
  · have hl : K.Loose := ht.loose nofun
    refine (heval _ r m (Or.inl hl) ok hr).bind fun v m₁ h₁ c₁ _ => ?_
    split
    · exact heval _ r m₁ (Or.inl hl) h₁ (K.sees_mono c₁ hr)
    · exact heval _ r m₁ (Or.inl hl) h₁ (K.sees_mono c₁ hr)
    · exact meets_fail h₁ (K.word_type _)
  · obtain ⟨ht, hs, hv⟩ := ht.assignment
    exact assignment_meets heval ht hs hv ok hr
  · refine (heval _ r m ht.call.1 ok hr).bind fun f m₁ h₁ c₁ hf => ?_
    have hr₁ : K.Sees m₁.store r := K.sees_mono c₁ hr
    refine arguments_bind heval ht.call.2 h₁ hr₁ fun args m₂ h₂ c₂ hargs => ?_
    exact call_meets heval f args h₂ (K.sees_mono c₂ hr₁) (K.holds_mono c₂ hf) hargs
  · -- no other node is of proper shape
    refine meets_throw ok (Or.inl (ht.loose fun h => ?_))
    cases h <;> grind

/-- **Evaluation keeps every contract.** -/
theorem evaluate_meets (K : Contract) (cfg : Settings) :
    ∀ depth, K.Evaluates (evaluate cfg depth)
  | 0 => fun _ _ _ _ ok _ => meets_throw ok (Or.inr trivial)
  | depth + 1 => evalStep_meets (evaluate_meets K cfg depth)

/-- **Calls keep every contract.** -/
theorem callValue_meets (K : Contract) (cfg : Settings) (depth : Nat) {f : Value}
    {args : List Value} (ok : K.Ok m.store) (hr : K.Sees m.store r) (hf : K.Holds m.store f)
    (hargs : ∀ v ∈ args, K.Holds m.store v) :
    K.Meets r (callValue cfg depth f args r) K.Holds m := by
  cases depth with
  | zero => exact meets_throw ok (Or.inr trivial)
  | succ depth => exact call_meets (evaluate_meets K cfg depth) f args ok hr hf hargs

/-! ## Whole runs -/

variable (K) in
/-- The tree is a program that the contract is about. -/
def TakesProgram (t : Tree) : Prop :=
  K.Loose ∨ ∃ items, t = .program (.list items) ∧ ∀ i ∈ items, i.ProperIn K.Word

theorem TakesProgram.takes {t : Tree} (h : K.TakesProgram t) : K.Takes t := by
  rcases h with hl | ⟨items, rfl, h⟩
  · exact Or.inl hl
  · refine Or.inr ⟨.program fun t ht => (h t ht).1, fun n hn => ?_⟩
    obtain ⟨t, ht, hn⟩ := Tree.mem_declaredIn.1 hn
    exact (h t ht).2 n hn

theorem openLog_quiet (cfg : Settings) :
    (Session.openLog cfg).Quiet K fun _ => True := by
  unfold Session.openLog
  split <;> exact fun _ => ⟨rfl, trivial⟩

theorem statementCount_quiet {program : Tree} (hp : K.TakesProgram program) :
    (Session.statementCount program).Quiet K fun _ => True := by
  rcases hp with hl | ⟨items, rfl, -⟩
  · unfold Session.statementCount
    split
    · exact .throw (Or.inl hl)
    · split
      · exact .pure trivial
      · exact .throw (Or.inl hl)
  · exact .pure trivial

/-- A run that halted does so for the same reason, but for an overflow, which is an error now. -/
theorem conclude_halts {halt : Halt} (h : K.Allows halt) (cfg : Settings)
    (m : Machine) :
    Ends (Session.conclude cfg halt) m (fun _ _ => False) fun e m' =>
      m'.store = m.store ∧ K.Allows e := by
  have htrace : ∀ (text : String) (e : EvalError), K.Allows (.error e) →
      Ends (do Run.trace cfg 1 (pure text); Run.fail e : Run Value) m (fun _ _ => False)
        fun e m' => m'.store = m.store ∧ K.Allows e := fun text e he =>
    ends_bind.2 ((Run.Quiet.trace (.pure trivial) m).imp (fun _ _ h => ⟨h.1, he⟩) fun _ _ h => h)
  unfold Session.conclude
  split
  · exact htrace _ _ (Or.inr trivial)
  · exact htrace _ _ h
  · exact ⟨rfl, h⟩

theorem attempt_meets (K : Contract) (cfg : Settings) (depth : Nat) {program : Tree}
    (hp : K.Takes program) (ok : K.Ok m.store) (hr : K.Sees m.store r) :
    K.Meets r (Session.attempt cfg depth program r) K.Holds m := by
  unfold Session.attempt
  refine (evaluate_meets K cfg depth program r m hp ok hr).bind fun v m₁ h₁ _ hv => ?_
  refine .quiet_bind (.display _ _) h₁ fun text m₂ _ h₂ => ?_
  refine .quiet_bind (.trace (.pure trivial)) (h₂ ▸ h₁) fun _ m₃ _ h₃ => ?_
  exact meets_pure (by rw [h₃, h₂]; exact h₁) (by rw [h₃, h₂]; exact hv)

/-- **Whole runs keep every contract.** -/
theorem runProgram_meets (K : Contract) (cfg : Settings) (depth : Nat) {program : Tree}
    (hp : K.TakesProgram program) (ok : K.Ok m.store) (hr : K.Sees m.store r) :
    K.Meets r (runProgram cfg depth program r) K.Holds m := by
  unfold runProgram
  refine .quiet_bind (openLog_quiet cfg) ok fun _ m₁ _ h₁ => ?_
  refine .quiet_bind (statementCount_quiet hp) (h₁ ▸ ok) fun count m₂ _ h₂ => ?_
  have h₂' : m₂.store = m.store := h₂.trans h₁
  refine .quiet_bind (.trace (.pure trivial)) (h₂' ▸ ok) fun _ m₃ _ h₃ => ?_
  have h₃' : m₃.store = m.store := h₃.trans h₂'
  have hrun := attempt_meets K cfg depth hp.takes (h₃' ▸ ok) (h₃' ▸ hr)
  unfold Meets at hrun
  cases ha : Session.attempt cfg depth program r m₃ with
  | ok v m₄ =>
    rw [ends_of_ok ha] at hrun
    exact (ends_of_ok (by simp only [ha])).2 hrun
  | error halt m₄ =>
    rw [ends_of_error ha] at hrun
    obtain ⟨h₄, c₄, he⟩ := hrun
    -- what is noted at the end does not touch the store that the failed run left
    have hend : ∀ Q : Value → Machine → Prop, Ends (Session.conclude cfg halt) m₄ Q fun e m' =>
        K.Ok m'.store ∧ K.Change r m₃.store m'.store ∧ K.Allows e := fun Q =>
      (conclude_halts he cfg m₄).imp (fun _ _ h => h.elim) fun _ _ ⟨h, he⟩ => by
        rw [h]; exact ⟨h₄, c₄, he⟩
    unfold Meets Ends
    simp only [ha]
    exact hend _

end BoxScript.Contract
