/-
  Evaluation of trees that are alike.

  One lemma for each form of statement and expression, given that the trees inside it are evaluated
  alike; the whole evaluator follows by the depth.

  * `Likeness.evalStep_follows`: **evaluation of one node** does as that of a node that is like it,
    if this is so for the trees inside them;
  * `Likeness.evaluate_follows`: so does evaluation as a whole, if trees that correspond are alike;
  * `Likeness.runProgram_follows`: so do whole runs, if evaluation does;
  * `Likeness.same`: two runs of the same program (`Likeness.runProgram_same`).
-/
import BoxScript.Proofs.Eval.Evaluation
import BoxScript.Proofs.Eval.Likeness
import BoxScript.Proofs.Tree.Likeness

namespace BoxScript

/-! ## Overflows at the end of a run -/

/-- A line that is there already is traced without an overflow. -/
theorem Run.trace_pure (cfg : Settings) (level : Nat) (line : String) (m : Machine) :
    ∃ m₁, Run.trace cfg level (pure line) m = .ok () m₁ := by
  unfold Run.trace
  split
  · cases cfg.traceSink with
    | console => exact ⟨_, rfl⟩
    | log => exact ⟨_, rfl⟩
  · exact ⟨_, rfl⟩

/-- An overflow ends a run as an error of the language. -/
theorem Session.conclude_overflow (cfg : Settings) (m : Machine) :
    ∃ m₁, Session.conclude cfg .overflow m = .error (.error .stackOverflow) m₁ := by
  obtain ⟨m₁, h⟩ := Run.trace_pure cfg 1 "error: StackOverflow" m
  exact ⟨m₁, bind_of_ok h⟩

/-! ## Operators -/

namespace Value

variable {T : Tree → Tree → Prop} {v a a' b b' : Value}

theorem IsPlain.like (h : v.IsPlain) : v.Like T v := by
  cases v with
  | array _ | object _ | function _ | datum _ => exact h.elim
  | _ => constructor

theorem Like.compare (ha : a.Like T a') (hb : b.Like T b') (operator : String) :
    Value.compare operator a' b' = Value.compare operator a b := by
  unfold Value.compare
  cases Comparison.ofText? operator with
  | none => rfl
  | some op => cases ha <;> cases hb <;> rfl

theorem Like.binary (ha : a.Like T a') (hb : b.Like T b') (operator : String) :
    Value.binary operator a' b' = Value.binary operator a b := by
  unfold Value.binary
  rw [ha.compare hb]
  cases Arithmetic.ofText? operator with
  | none => rfl
  | some op => cases ha <;> cases hb <;> rfl

theorem Like.unary (ha : a.Like T a') (operator : String) :
    Value.unary operator a' = Value.unary operator a := by
  cases ha <;> rfl

end Value

namespace Likeness

variable {L : Likeness} {α : Type}

/-! ## Fields -/

theorem follows_sequence {R : Tree → Tree → Prop} {t t' : Tree} (h : Tree.SequenceLike R t t') :
    L.Follows (List.Forall₂ R) (Eval.sequence t) (Eval.sequence t') := by
  unfold Eval.sequence
  rw [h.typeName]
  match t.items?, t'.items?, h.items with
  | _, _, .none => exact follows_fault _
  | _, _, .some hitems => exact follows_pure hitems

theorem follows_statementsOf {R : Tree → Tree → Prop} {t t' : Tree} (h : Tree.BodyLike R t t') :
    L.Follows (List.Forall₂ R) (Eval.statementsOf t) (Eval.statementsOf t') := by
  unfold Eval.statementsOf
  rw [h.typeName]
  match t.body?, t'.body?, h.body with
  | _, _, .none => exact follows_fault _
  | _, _, .some hbody => exact follows_sequence hbody

/-! ## Statements -/

/-- The second evaluator does as the first on trees that correspond. -/
def Evaluators (L : Likeness) (eval eval' : Evaluator) : Prop :=
  ∀ t t' r, L.Trees t t' → L.Follows L.Values (eval t r) (eval' t' r)

section

variable {eval eval' : Evaluator} {depth depth' : Nat}

theorem follows_block (heval : L.Evaluators eval eval') {l l' : List Tree}
    (hl : List.Forall₂ L.Trees l l') (r : ScopeRef) :
    L.Follows L.Values (Eval.block eval l r) (Eval.block eval' l' r) :=
  Follows.foldlM hl (fun _ _ t t' _ ht => heval t t' r ht) .null

/-- The statements of a field, evaluated as a block. -/
theorem follows_body (heval : L.Evaluators eval eval') {t t' : Tree}
    (h : Tree.BodyLike L.Trees t t') (r : ScopeRef) :
    L.Follows L.Values (do Eval.block eval (← Eval.statementsOf t) r)
      (do Eval.block eval' (← Eval.statementsOf t') r) :=
  (follows_statementsOf h).bind fun _ _ hl => follows_block heval hl r

theorem declaration_follows (heval : L.Evaluators eval eval') (hd : depth ≤ depth')
    (name constant : Tree) {initializer initializer' : Tree}
    (hi : Tree.OptionalLike L.Trees initializer initializer') (r : ScopeRef) :
    L.Follows L.Values (Eval.declaration L.cfg depth eval name initializer constant r)
      (Eval.declaration L.cfg' depth' eval' name initializer' constant r) := by
  unfold Eval.declaration
  -- what comes after the initializer is the same whether there is one or not
  extract_lets rest rest'
  have hrest : ∀ v v', L.Values v v' → L.Follows L.Values (rest v) (rest' v') := by
    intro v v' hv
    refine (follows_nameOf hd name).bind_same fun n => ?_
    refine (follows_declare r n constant.isSet hv).bind fun _ _ _ => ?_
    rw [hv.typeName]
    refine (follows_trace 2 ((reads_display hd hv).bind fun _ => reads_pure _)).bind fun _ _ _ => ?_
    exact follows_pure hv
  cases hi with
  | absent => exact hrest _ _ .null
  | present ht ht' h =>
    rw [if_neg (by simp [ht]), if_neg (by simp [ht'])]
    exact (heval _ _ r h).bind hrest

theorem functionDeclaration_follows (hd : depth ≤ depth') (name params : Tree)
    {body body' : Tree} (hb : Tree.BodyLike L.Trees body body') (r : ScopeRef) :
    L.Follows L.Values (Eval.functionDeclaration L.cfg depth name params body r)
      (Eval.functionDeclaration L.cfg' depth' name params body' r) := by
  unfold Eval.functionDeclaration
  refine (follows_sequence (.refl (fun _ => rfl) params)).bind fun ps ps' hps => ?_
  rw [List.forall₂_eq_eq_eq] at hps
  subst hps
  refine (follows_statementsOf hb).bind fun l l' hl => ?_
  refine (follows_nameOf hd name).bind_same fun n => ?_
  have hf : L.Values (.function ⟨n.text, ps, l, r⟩) (.function ⟨n.text, ps, l', r⟩) :=
    .function ⟨rfl, rfl, hl, rfl⟩
  refine (follows_declare r n true hf).bind fun _ _ _ => ?_
  refine (follows_trace 2 ((reads_paramTexts 0 ps).bind fun _ => reads_pure _)).bind fun _ _ _ => ?_
  exact follows_pure hf

theorem ifStatement_follows (heval : L.Evaluators eval eval') (hd : depth ≤ depth')
    {test test' consequent consequent' alternate alternate' : Tree} (ht : L.Trees test test')
    (hc : Tree.BodyLike L.Trees consequent consequent')
    (ha : Tree.OptionalLike (Tree.BodyLike L.Trees) alternate alternate') (r : ScopeRef) :
    L.Follows L.Values (Eval.ifStatement L.cfg depth eval test consequent alternate r)
      (Eval.ifStatement L.cfg' depth' eval' test' consequent' alternate' r) := by
  unfold Eval.ifStatement
  refine (heval test test' r ht).bind fun v v' hv => ?_
  rw [hv.isTruthy]
  refine (follows_trace 3 ((reads_display hd hv).bind fun _ => reads_pure _)).bind fun _ _ _ => ?_
  by_cases htrue : v.isTruthy = true
  · rw [if_pos htrue, if_pos htrue]
    exact follows_body heval hc r
  · rw [if_neg htrue, if_neg htrue]
    cases ha with
    | absent => exact follows_pure .null
    | present habs habs' h =>
      rw [if_neg (by simp [habs]), if_neg (by simp [habs'])]
      exact follows_body heval h r

theorem whilePasses_follows {test test' : Run Bool} {pass pass' : Run Unit}
    (ht : L.Follows Eq test test') (hp : L.Follows Eq pass pass') (passes : Nat) :
    L.Follows L.Values (Eval.whilePasses test pass passes)
      (Eval.whilePasses test' pass' passes) := by
  induction passes with
  | zero => exact follows_throw (.same _)
  | succ passes ih =>
    refine ht.bind_same fun b => ?_
    cases b with
    | true => exact hp.bind fun _ _ _ => ih
    | false => exact follows_pure .null

theorem whileStatement_follows (heval : L.Evaluators eval eval') {test test' body body' : Tree}
    (ht : L.Trees test test') (hb : Tree.BodyLike L.Trees body body') (r : ScopeRef) :
    L.Follows L.Values (Eval.whileStatement L.cfg eval test body r)
      (Eval.whileStatement L.cfg' eval' test' body' r) := by
  refine whilePasses_follows ?_ ?_ L.cfg.passes
  · refine (heval test test' r ht).bind fun v v' hv => ?_
    cases hv with
    | boolean b => exact (follows_trace 3 (reads_pure _)).bind fun _ _ _ => follows_pure rfl
    | _ => exact follows_fail _
  · exact (follows_statementsOf hb).bind fun _ _ hl => (follows_block heval hl r).discard

theorem forPasses_follows (stop : Float) {pass pass' : Float → Run Unit}
    (hp : ∀ count, L.Follows Eq (pass count) (pass' count)) (passes : Nat) (count : Float) :
    L.Follows L.Values (Eval.forPasses stop pass passes count)
      (Eval.forPasses stop pass' passes count) := by
  induction passes generalizing count with
  | zero => exact follows_throw (.same _)
  | succ passes ih =>
    unfold Eval.forPasses
    by_cases h : count ≤ stop
    · rw [if_pos h, if_pos h]
      exact (hp count).bind fun _ _ _ => ih (count + 1)
    · rw [if_neg h, if_neg h]
      exact follows_pure .null

theorem forStatement_follows (heval : L.Evaluators eval eval') (hd : depth ≤ depth')
    (loopVar : Tree) {start start' stop stop' body body' : Tree} (hstart : L.Trees start start')
    (hstop : L.Trees stop stop') (hb : Tree.BodyLike L.Trees body body') (r : ScopeRef) :
    L.Follows L.Values (Eval.forStatement L.cfg depth eval loopVar start stop body r)
      (Eval.forStatement L.cfg' depth' eval' loopVar start' stop' body' r) := by
  have hpass : ∀ count, L.Follows Eq (Eval.forPass L.cfg depth eval loopVar body r count)
      (Eval.forPass L.cfg' depth' eval' loopVar body' r count) := by
    intro count
    refine (follows_trace 3 ((reads_spelling hd loopVar).bind fun _ =>
      (reads_display hd (.number count)).bind fun _ => reads_pure _)).bind fun _ _ _ => ?_
    refine (follows_newScope r).bind_same fun inner => ?_
    refine (follows_nameOf hd loopVar).bind_same fun n => ?_
    refine (follows_declare inner n false (.number count)).bind fun _ _ _ => ?_
    exact (follows_statementsOf hb).bind fun _ _ hl => (follows_block heval hl inner).discard
  refine (heval start start' r hstart).bind fun first first' hfirst => ?_
  refine (heval stop stop' r hstop).bind fun last last' hlast => ?_
  cases hfirst with
  | number first =>
    cases hlast with
    | number last => exact forPasses_follows last hpass L.cfg.passes first
    | _ => exact follows_fail _
  | _ =>
    rw [hlast.typeName]
    exact follows_fail _

/-! ## Expressions -/

theorem position_follows (hd : depth ≤ depth') {v v' : Value} (hv : L.Values v v')
    (length : Nat) :
    L.Follows Eq (Eval.position depth v length) (Eval.position depth' v' length) := by
  have hfail : L.Follows Eq (do Run.fail (.indexNotWhole (← Run.display depth v)) : Run Nat)
      (do Run.fail (.indexNotWhole (← Run.display depth' v'))) := by
    refine (follows_display hd hv).bind_same fun text => ?_
    exact follows_fail _
  cases hv with
  | number x =>
    simp only [Eval.position]
    cases Number.whole? x with
    | none => exact hfail
    | some n =>
      by_cases h : 0 ≤ n ∧ n < length
      · simp only [if_pos h]
        exact follows_pure rfl
      · simp only [if_neg h]
        exact follows_fail _
  | _ => exact hfail

theorem element_follows (heval : L.Evaluators eval eval') (hd : depth ≤ depth')
    {array array' index index' : Tree} (ha : L.Trees array array') (hi : L.Trees index index')
    (r : ScopeRef) :
    L.Follows Eq (Eval.element depth eval array index r)
      (Eval.element depth' eval' array' index' r) := by
  refine (heval array array' r ha).bind fun base base' hbase => ?_
  refine (heval index index' r hi).bind fun place place' hplace => ?_
  cases hbase with
  | array a =>
    refine follows_store.bind fun s s' hs => ?_
    rw [hs.items_size]
    refine (position_follows hd hplace _).bind fun i _ hi => ?_
    exact follows_pure (congrArg (Prod.mk a) hi)
  | _ => exact follows_fail _

theorem access_follows (heval : L.Evaluators eval eval') (hd : depth ≤ depth')
    {array array' index index' : Tree} (ha : L.Trees array array') (hi : L.Trees index index')
    (r : ScopeRef) :
    L.Follows L.Values (Eval.access depth eval array index r)
      (Eval.access depth' eval' array' index' r) := by
  refine (element_follows heval hd ha hi r).bind_same fun p => ?_
  exact follows_store.bind fun s s' hs => follows_pure (hs.item p.1 p.2)

/-- What is neither an element nor a name cannot be assigned to. -/
theorem assignment_of_other {target value : Tree} (ha : ∀ a i, target ≠ .arrayAccess a i)
    (hs : ∀ s, target ≠ .identifier s) (r : ScopeRef) :
    Eval.assignment depth eval target value r =
      Run.fail (.invalidTarget target.typeName) := by
  unfold Eval.assignment
  split
  · exact absurd rfl (ha _ _)
  · exact absurd rfl (hs _)
  · rfl

theorem assignment_follows (heval : L.Evaluators eval eval') (hd : depth ≤ depth')
    {target target' value value' : Tree} (ht : Tree.TargetLike L.Trees target target')
    (hv : L.Trees value value') (r : ScopeRef) :
    L.Follows L.Values (Eval.assignment depth eval target value r)
      (Eval.assignment depth' eval' target' value' r) := by
  cases ht with
  | element ha hi =>
    refine (element_follows heval hd ha hi r).bind_same fun p => ?_
    refine (heval value value' r hv).bind fun v v' hv => ?_
    exact (follows_setItem p.1 p.2 hv).bind fun _ _ _ => follows_pure hv
  | name symbol =>
    refine (heval value value' r hv).bind fun v v' hv => ?_
    refine (follows_nameOf hd symbol).bind_same fun n => ?_
    exact (follows_assign r n hv).bind fun _ _ _ => follows_pure hv
  | other ht hs ht' hs' h =>
    rw [assignment_of_other ht hs, assignment_of_other ht' hs', h]
    exact follows_fail _

theorem booleanOperand_follows (hd : depth ≤ depth') (operator : Tree) {v v' : Value}
    (hv : L.Values v v') :
    L.Follows Eq (Eval.booleanOperand depth operator v)
      (Eval.booleanOperand depth' operator v') := by
  cases hv with
  | boolean b => exact follows_pure rfl
  | _ => exact (follows_spelling hd operator).bind_same fun _ => follows_fail _

theorem logical_follows (heval : L.Evaluators eval eval') (hd : depth ≤ depth') (operator : Tree)
    {left left' right right' : Tree} (hl : L.Trees left left')
    (hr : operator ≠ .text "not" → L.Trees right right') (r : ScopeRef) :
    L.Follows L.Values (Eval.logical depth eval operator left right r)
      (Eval.logical depth' eval' operator left' right' r) := by
  unfold Eval.logical
  refine (heval left left' r hl).bind fun v v' hv => ?_
  refine (booleanOperand_follows hd operator hv).bind_same fun a => ?_
  by_cases hnot : operator = .text "not"
  · subst hnot
    exact follows_pure (.boolean _)
  have hrest : L.Follows L.Values
      (do return .boolean (← Eval.booleanOperand depth operator (← eval right r)))
      (do return .boolean (← Eval.booleanOperand depth' operator (← eval' right' r))) := by
    refine (heval right right' r (hr hnot)).bind fun v v' hv => ?_
    refine (booleanOperand_follows hd operator hv).bind_same fun b => ?_
    exact follows_pure (.boolean b)
  split
  · contradiction
  · cases a with
    | true => exact hrest
    | false => exact follows_pure (.boolean false)
  · cases a with
    | true => exact follows_pure (.boolean true)
    | false => exact hrest
  · exact (follows_spelling hd _).bind_same fun _ => follows_fail _

/-- What is no property and holds no value. -/
theorem properties_of_none {done : List (Name × Value)} {t : Tree} {ts : List Tree}
    (ht : ∀ key value, t ≠ .property key value) (hv : t.value? = none) (r : ScopeRef) :
    Eval.properties depth eval r done (t :: ts) = throw (.fault (.noField t.typeName "value")) := by
  cases t with
  | property key value => exact absurd rfl (ht key value)
  | _ =>
    unfold Eval.properties
    rw [hv]

/-- What is no property but holds a value, which is evaluated if it is there. -/
theorem properties_of_some {done : List (Name × Value)} {t value : Tree} {ts : List Tree}
    (ht : ∀ key value, t ≠ .property key value) (hv : t.value? = some value) (r : ScopeRef) :
    Eval.properties depth eval r done (t :: ts) = (do
      unless value.isAbsent do discard (eval value r)
      throw (.fault (.noField t.typeName "key"))) := by
  cases t with
  | property key value => exact absurd rfl (ht key value)
  | _ =>
    unfold Eval.properties
    rw [hv]

theorem property_follows (heval : L.Evaluators eval eval') (hd : depth ≤ depth') (key : Tree)
    {value value' : Tree} (hv : Tree.OptionalLike L.Trees value value') (r : ScopeRef) :
    L.Follows (EntryLike L.Trees) (Eval.property depth eval key value r)
      (Eval.property depth' eval' key value' r) := by
  unfold Eval.property
  cases hv with
  | absent =>
    refine (follows_nameOf hd key).bind_same fun n => ?_
    exact (follows_lookup r n).bind fun _ _ hv => follows_pure ⟨rfl, hv⟩
  | present habs habs' hv =>
    rw [if_neg (by simp [habs]), if_neg (by simp [habs'])]
    refine (heval _ _ r hv).bind fun _ _ hv => ?_
    exact (follows_nameOf hd key).bind_same fun _ => follows_pure ⟨rfl, hv⟩

theorem properties_follows (heval : L.Evaluators eval eval') (hd : depth ≤ depth') (r : ScopeRef)
    {props props' : List Tree} (h : List.Forall₂ (Tree.PropertyLike L.Trees) props props')
    {done done' : List (Name × Value)} (hdone : List.Forall₂ (EntryLike L.Trees) done done') :
    L.Follows (List.Forall₂ (EntryLike L.Trees)) (Eval.properties depth eval r done props)
      (Eval.properties depth' eval' r done' props') := by
  induction h generalizing done done' with
  | nil => exact follows_pure hdone
  | @cons t t' ts ts' ht _ ih =>
    cases ht with
    | property key hv =>
      unfold Eval.properties
      refine (property_follows heval hd key hv r).bind ?_
      rintro ⟨name, v⟩ ⟨name', v'⟩ hp
      obtain ⟨rfl, hv⟩ : name' = name ∧ L.Values v v' := hp
      exact ih (Store.insertEntry_like hdone hv name')
    | other ht ht' hname hv =>
      rcases Tree.optionRel_cases hv with ⟨hnone, hnone'⟩ | ⟨value, value', hsome, hsome', hv⟩
      · rw [properties_of_none ht hnone, properties_of_none ht' hnone', hname]
        exact follows_fault _
      · rw [properties_of_some ht hsome, properties_of_some ht' hsome', hname]
        cases hv with
        | absent => exact follows_fault _
        | present habs habs' hv =>
          simp only [habs, habs']
          exact (heval _ _ r hv).discard.bind fun _ _ _ => follows_fault _

/-- An operator has the same result on values that are alike, and its value is plain. -/
theorem follows_operator {x y : Except EvalError Value} (heq : y = x)
    (hplain : ∀ v, x = .ok v → v.IsPlain) : L.Follows L.Values (Run.lift x) (Run.lift y) := by
  subst heq
  refine follows_lift ?_
  cases y with
  | ok v => exact .ok (hplain v rfl).like
  | error e => exact .error (.same _)

/-! ## Calls -/

theorem bindParams_follows (hd : depth ≤ depth') (r : ScopeRef) (params : List Tree)
    {args args' : List Value} (h : List.Forall₂ L.Values args args') :
    L.Follows Eq (Eval.bindParams depth r params args)
      (Eval.bindParams depth' r params args') := by
  induction params generalizing args args' with
  | nil => exact follows_pure rfl
  | cons p params ih =>
    cases h with
    | nil =>
      refine (follows_nameOf hd p).bind_same fun n => ?_
      exact (follows_declare r n false .null).bind fun _ _ _ => ih .nil
    | cons hv h =>
      refine (follows_nameOf hd p).bind_same fun n => ?_
      exact (follows_declare r n false hv).bind fun _ _ _ => ih h

theorem callClosure_follows (heval : L.Evaluators eval eval') (hd : depth ≤ depth')
    {f f' : Closure} (hf : f.Like L.Trees f') {args args' : List Value}
    (h : List.Forall₂ L.Values args args') :
    L.Follows L.Values (Eval.callClosure L.cfg depth eval f args)
      (Eval.callClosure L.cfg' depth' eval' f' args') := by
  unfold Eval.callClosure
  rw [hf.name, hf.params, hf.scope]
  refine (follows_trace 4 ((reads_argumentText hd h).bind fun _ => reads_pure _)).bind
    fun _ _ _ => ?_
  refine (follows_newScope f.scope).bind_same fun inner => ?_
  refine (bindParams_follows hd inner f.params h).bind fun _ _ _ => ?_
  exact follows_block heval hf.body inner

theorem answered_follows (ask : List String → String × α × List String) :
    L.Follows Eq (Native.answered ask) (Native.answered ask) := by
  intro m m' hm
  unfold Native.answered
  refine .ok ?_ ⟨hm.store, ?_, hm.clock, hm.lines, hm.same⟩
  · simp only [hm.console]
  · simp only [hm.console]

theorem askFor_follows (r : ScopeRef) (name prompt : String) {v v' : Value} (hv : L.Values v v') :
    L.Follows L.Values (Native.askFor r name prompt v) (Native.askFor r name prompt v') := by
  cases hv with
  | number _ =>
    refine (answered_follows (Native.askNumber name prompt)).bind_same fun answer => ?_
    cases answer with
    | none => exact follows_pure .null
    | some x =>
      exact (follows_assign r name (.number x)).bind fun _ _ _ => follows_pure .null
  | string _ =>
    refine (answered_follows (Native.askText prompt)).bind_same fun answer => ?_
    cases answer with
    | none => exact follows_pure .null
    | some reply =>
      exact (follows_assign r name (.string reply)).bind fun _ _ _ => follows_pure .null
  | _ => exact follows_fail _

theorem input_follows (hd : depth ≤ depth') (r : ScopeRef) {args args' : List Value}
    (h : List.Forall₂ L.Values args args') :
    L.Follows L.Values (Native.input depth r args) (Native.input depth' r args') := by
  cases h with
  | nil => exact follows_fail _
  | cons hname h =>
    cases h with
    | nil =>
      cases hname with
      | string name =>
        unfold Native.input
        exact (follows_lookup r name).bind fun _ _ hv => askFor_follows r name _ hv
      | _ => exact follows_fail _
    | cons hprompt h =>
      cases h with
      | nil =>
        cases hname with
        | string name =>
          unfold Native.input
          refine (follows_display hd hprompt).bind_same fun text => ?_
          exact (follows_lookup r name).bind fun _ _ hv => askFor_follows r name text hv
        | _ => exact follows_fail _
      | cons _ _ => cases hname <;> exact follows_fail _

theorem print_follows (hd : depth ≤ depth') {args args' : List Value}
    (h : List.Forall₂ L.Values args args') :
    L.Follows L.Values (Native.print depth args) (Native.print depth' args') := by
  have htexts := Reads.mapM h fun v v' hv => reads_display hd hv
  refine htexts.follows.bind_same fun texts => ?_
  exact (follows_write _).bind fun _ _ _ => follows_pure .null

theorem length_follows {args args' : List Value} (h : List.Forall₂ L.Values args args') :
    L.Follows L.Values (Native.length args) (Native.length args') := by
  cases h with
  | nil => exact follows_pure .null
  | cons hv _ =>
    cases hv with
    | array a =>
      refine follows_store.bind fun s s' hs => ?_
      rw [hs.items_size]
      exact follows_pure (.number _)
    | _ => exact follows_fail _

theorem perform_follows (hd : depth ≤ depth') (r : ScopeRef) (action : Action)
    {args args' : List Value} (h : List.Forall₂ L.Values args args') :
    L.Follows L.Values (Native.perform depth r args action)
      (Native.perform depth' r args' action) := by
  cases action with
  | print => exact print_follows hd h
  | input => exact input_follows hd r h
  | time => exact follows_readClock.bind_same fun x => follows_pure (.number x)
  | length => exact length_follows h
  | none => exact follows_pure .null

theorem callNative_follows (hd : depth ≤ depth') (f : Native) (r : ScopeRef)
    {args args' : List Value} (h : List.Forall₂ L.Values args args') :
    L.Follows L.Values (Eval.callNative L.cfg depth f args r)
      (Eval.callNative L.cfg' depth' f args' r) := by
  have hlength : args'.length = args.length := h.length_eq.symm
  unfold Eval.callNative
  extract_lets rest rest'
  have hrest : L.Follows L.Values (rest ()) (rest' ()) :=
    (follows_trace 4 ((reads_argumentText hd h).bind fun _ => reads_pure _)).bind fun _ _ _ =>
      perform_follows hd r f.action h
  cases f.arity with
  | none => exact hrest
  | some n =>
    simp only [hlength]
    by_cases hn : args.length ≠ n
    · rw [if_pos hn, if_pos hn]
      exact (follows_fail (V := Eq) _).bind fun _ _ _ => hrest
    · rw [if_neg hn, if_neg hn]
      exact hrest

theorem call_follows (heval : L.Evaluators eval eval') (hd : depth ≤ depth') {f f' : Value}
    (hf : L.Values f f') {args args' : List Value} (h : List.Forall₂ L.Values args args')
    (r : ScopeRef) :
    L.Follows L.Values (Eval.call L.cfg depth eval f args r)
      (Eval.call L.cfg' depth' eval' f' args' r) := by
  cases hf with
  | function hf => exact callClosure_follows heval hd hf h
  | native f => exact callNative_follows hd f r h
  | _ => exact follows_fail _

/-! ## Trees -/

theorem numberOf_follows (t : Tree) : L.Follows L.Values (Eval.numberOf t) (Eval.numberOf t) := by
  unfold Eval.numberOf
  split
  · exact follows_pure (.number _)
  · exact follows_pure (.number _)
  · split
    · exact follows_pure (.number _)
    · exact follows_fault _
  · split
    · exact follows_pure (.number _)
    · exact follows_fault _
  · exact follows_fault _

theorem leaf_follows (hd : depth ≤ depth') {t : Tree} (h : t.IsLeaf) (r : ScopeRef) :
    L.Follows L.Values (Eval.evalStep L.cfg depth eval t r)
      (Eval.evalStep L.cfg' depth' eval' t r) := by
  cases t with
  | identifier symbol => exact (follows_nameOf hd symbol).bind_same fun n => follows_lookup r n
  | numberLiteral value => exact numberOf_follows value
  | stringLiteral value => exact follows_pure (.ofContent value)
  | booleanLiteral value => exact follows_pure (.ofContent value)
  | null | bool _ | int _ | num _ | text _ | list _ | property _ _ => exact follows_fail _
  | _ => exact h.elim

/-- The values of a list of trees, in order. -/
theorem follows_mapM (heval : L.Evaluators eval eval') {l l' : List Tree}
    (h : List.Forall₂ L.Trees l l') (r : ScopeRef) :
    L.Follows (List.Forall₂ L.Values) (l.mapM fun t => eval t r) (l'.mapM fun t => eval' t r) :=
  Follows.mapM h fun t t' ht => heval t t' r ht

/-- **Evaluation of one node** does as that of a node that is like it. -/
theorem evalStep_follows (heval : L.Evaluators eval eval') (hd : depth ≤ depth') {t t' : Tree}
    (h : Tree.Like L.Trees t t') (r : ScopeRef) :
    L.Follows L.Values (Eval.evalStep L.cfg depth eval t r)
      (Eval.evalStep L.cfg' depth' eval' t' r) := by
  cases h with
  | leaf h => exact leaf_follows hd h r
  | program h => exact (follows_sequence h).bind fun _ _ hl => follows_block heval hl r
  | block h => exact (follows_sequence h).bind fun _ _ hl => follows_block heval hl r
  | variableDeclaration name constant _ h => exact declaration_follows heval hd name constant h r
  | functionDeclaration name params h => exact functionDeclaration_follows hd name params h r
  | ifStatement ht hc ha => exact ifStatement_follows heval hd ht hc ha r
  | whileStatement ht hb => exact whileStatement_follows heval ht hb r
  | forStatement loopVar hstart hstop hb =>
    exact forStatement_follows heval hd loopVar hstart hstop hb r
  | returnStatement h =>
    cases h with
    | absent => exact follows_pure .null
    | present habs habs' h =>
      simp only [Eval.evalStep, habs, habs']
      exact heval _ _ r h
  | arrayLiteral h =>
    refine (follows_sequence h).bind fun _ _ hl => ?_
    exact (follows_mapM heval hl r).bind fun _ _ hvs => follows_newArray hvs
  | arrayAccess ha hi => exact access_follows heval hd ha hi r
  | objectExpression h =>
    refine (follows_sequence h).bind fun _ _ hl => ?_
    exact (properties_follows heval hd r hl .nil).bind fun _ _ hes => follows_newObject hes
  | binaryExpression operator hl hr =>
    refine (heval _ _ r hl).bind fun a a' ha => (heval _ _ r hr).bind fun b b' hb => ?_
    refine (follows_nameOf hd operator).bind_same fun n => ?_
    exact follows_operator (ha.binary hb n.text) fun _ => Contract.binary_isPlain
  | comparisonExpression operator hl hr =>
    refine (heval _ _ r hl).bind fun a a' ha => (heval _ _ r hr).bind fun b b' hb => ?_
    refine (follows_nameOf hd operator).bind_same fun n => ?_
    exact follows_operator (ha.compare hb n.text) fun _ => Contract.compare_isPlain
  | logicalExpression operator hl hr => exact logical_follows heval hd operator hl hr r
  | unaryExpression operator h =>
    refine (heval _ _ r h).bind fun a a' ha => ?_
    refine (follows_nameOf hd operator).bind_same fun n => ?_
    exact follows_operator (ha.unary n.text) fun _ => Contract.unary_isPlain
  | conditionalExpression ht hc ha =>
    refine (heval _ _ r ht).bind fun v v' hv => ?_
    cases hv with
    | boolean b =>
      cases b with
      | true => exact heval _ _ r hc
      | false => exact heval _ _ r ha
    | _ => exact follows_fail _
  | assignmentExpression ht hv => exact assignment_follows heval hd ht hv r
  | callExpression hf h =>
    refine (heval _ _ r hf).bind fun f f' hf => ?_
    refine (follows_sequence h).bind fun _ _ hl => ?_
    exact (follows_mapM heval hl r).bind fun _ _ hargs => call_follows heval hd hf hargs r

end

/-- **Evaluation does as evaluation with a lower limit**, on trees that correspond. -/
theorem evaluate_follows (h : ∀ t t', L.Trees t t' → Tree.Like L.Trees t t') {depth depth' : Nat}
    (hd : depth ≤ depth') : L.Evaluators (evaluate L.cfg depth) (evaluate L.cfg' depth') := by
  -- by the lower limit; when it is used up the first run is cut off, and nothing is left to show
  induction depth generalizing depth' with
  | zero => exact fun _ _ _ _ => follows_cut (cuts_limit _)
  | succ depth ih =>
    obtain ⟨d, rfl⟩ : ∃ d, depth' = d + 1 := ⟨depth' - 1, by omega⟩
    exact fun t t' r ht => evalStep_follows (ih (by omega)) (by omega) (h t t' ht) r

/-! ## Whole runs

Here an overflow has become an error of the language. -/

section

variable {Cut : Halt → Prop}

theorem openLog_follows : BoxScript.Follows Cut L.Halts L.Machines Eq (Session.openLog L.cfg)
    (Session.openLog L.cfg') := by
  intro m m' hm
  have hlevel := L.level_le
  by_cases hsecond : 0 < L.level
  · have hfirst : 0 < L.cfg.traceLevel := by omega
    have hsecond' : 0 < L.cfg'.traceLevel := hsecond
    unfold Session.openLog
    rw [if_pos hfirst, if_pos hsecond']
    refine .ok rfl ⟨hm.store, hm.console, hm.clock, hm.lines, fun h => ?_⟩
    show some (m'.lines.getD #[]) = some (m.lines.getD #[])
    rw [hm.same h]
  by_cases hfirst : 0 < L.cfg.traceLevel
  · have hsecond' : ¬0 < L.cfg'.traceLevel := hsecond
    unfold Session.openLog
    rw [if_pos hfirst, if_neg hsecond']
    exact .ok rfl ⟨hm.store, hm.console, hm.clock, hm.lines, fun h => absurd h (by omega)⟩
  · have hsecond' : ¬0 < L.cfg'.traceLevel := hsecond
    unfold Session.openLog
    rw [if_neg hfirst, if_neg hsecond']
    exact .ok rfl hm

theorem statementCount_follows {R : Tree → Tree → Prop} {t t' : Tree} (h : Tree.BodyLike R t t') :
    BoxScript.Follows Cut L.Halts L.Machines Eq (Session.statementCount t)
      (Session.statementCount t') := by
  unfold Session.statementCount
  rw [h.typeName]
  match t.body?, t'.body?, h.body with
  | _, _, .none => exact follows_throw (.same _)
  | some body, some body', .some hbody =>
    simp only [hbody.typeName]
    match body.items?, body'.items?, hbody.items with
    | _, _, .none => exact follows_throw (.same _)
    | _, _, .some hitems => exact follows_pure hitems.length_eq

theorem trace_pure_follows (level : Nat) (line : String) :
    BoxScript.Follows Cut L.Halts L.Machines Eq (Run.trace L.cfg level (pure line))
      (Run.trace L.cfg' level (pure line)) := by
  intro m m' hm
  obtain ⟨m₁, hm₁⟩ := Run.trace_pure L.cfg level line m
  have h := follows_trace level (reads_pure line) m m' hm
  rw [hm₁] at h ⊢
  exact h.of_ok

/-- The line that tells an error.  If anything is traced, it must be the same error. -/
theorem trace_error_follows {e e' : EvalError} (h : L.cfg.traceLevel = 0 ∨ e' = e) :
    BoxScript.Follows Cut L.Halts L.Machines Eq
      (Run.trace L.cfg 1 (return "error: " ++ e.report.text))
      (Run.trace L.cfg' 1 (return "error: " ++ e'.report.text)) := by
  rcases h with hlevel | rfl
  · have hle := L.level_le
    have hfirst : ¬1 ≤ L.cfg.traceLevel := by omega
    have hsecond : ¬1 ≤ L.cfg'.traceLevel := fun h : 1 ≤ L.level => by omega
    unfold Run.trace
    rw [if_neg hfirst, if_neg hsecond]
    exact follows_pure rfl
  · exact trace_pure_follows 1 _

theorem conclude_follows (hE : L.cfg.traceLevel = 0 ∨ ∀ e e', L.Errors e e' → e' = e)
    {halt halt' : Halt} (h : L.Halts halt halt') :
    BoxScript.Follows (L.Cuts (.error .stackOverflow)) L.Halts L.Machines L.Values
      (Session.conclude L.cfg halt) (Session.conclude L.cfg' halt') := by
  cases h with
  | error he =>
    refine (trace_error_follows (hE.imp_right fun h => h _ _ he)).bind fun _ _ _ => ?_
    exact follows_throw (.error he)
  | same halt =>
    cases halt with
    | overflow => exact (trace_pure_follows 1 _).bind fun _ _ _ => follows_cut (cuts_limit _)
    | error e => exact (trace_pure_follows 1 _).bind fun _ _ _ => follows_throw (.same _)
    | fault f => exact follows_throw (.same _)
    | unfinished => exact follows_throw (.same _)

theorem attempt_follows {depth depth' : Nat} (hd : depth ≤ depth')
    (heval : L.Evaluators (evaluate L.cfg depth) (evaluate L.cfg' depth')) {t t' : Tree}
    (ht : L.Trees t t') (r : ScopeRef) :
    L.Follows L.Values (Session.attempt L.cfg depth t r) (Session.attempt L.cfg' depth' t' r) := by
  refine (heval t t' r ht).bind fun v v' hv => ?_
  refine (follows_display hd hv).bind_same fun text => ?_
  exact (follows_trace 1 (reads_pure _)).bind fun _ _ _ => follows_pure hv

/-- What cuts off evaluation cuts off the run. -/
theorem conclude_cut {halt : Halt} (h : L.Cuts .overflow halt) (m : Machine) :
    ∃ e m₁, Session.conclude L.cfg halt m = .error e m₁ ∧ L.Cuts (.error .stackOverflow) e := by
  rcases h with rfl | ⟨hless, position, type, rfl⟩
  · obtain ⟨m₁, hend⟩ := Session.conclude_overflow L.cfg m
    exact ⟨_, m₁, hend, cuts_limit _⟩
  · exact ⟨_, m, rfl, cuts_parameter _ hless position type⟩

/-- **A run does as a run that traces more under a lower limit**, unless the latter is cut off. -/
theorem runProgram_follows {depth depth' : Nat} (hd : depth ≤ depth')
    (heval : L.Evaluators (evaluate L.cfg depth) (evaluate L.cfg' depth'))
    (hE : L.cfg.traceLevel = 0 ∨ ∀ e e', L.Errors e e' → e' = e) {t t' : Tree}
    (ht : L.Trees t t') (hbody : Tree.BodyLike L.Trees t t') (r : ScopeRef) :
    BoxScript.Follows (L.Cuts (.error .stackOverflow)) L.Halts L.Machines L.Values
      (runProgram L.cfg depth t r) (runProgram L.cfg' depth' t' r) := by
  refine openLog_follows.bind fun _ _ _ => ?_
  refine (statementCount_follows hbody).bind_same fun count => ?_
  refine (trace_pure_follows 1 _).bind fun _ _ _ m m' hm => ?_
  have hattempt := attempt_follows hd heval ht r m m' hm
  match Session.attempt L.cfg depth t r m, Session.attempt L.cfg' depth' t' r m', hattempt with
  | _, _, .ok hv hm => exact .ok hv hm
  | _, _, .error hhalt hm => exact conclude_follows hE hhalt _ _ hm
  | .error halt m₁, _, .cut hcut =>
    obtain ⟨_, _, hend, hcut⟩ := conclude_cut hcut m₁
    simp only [hend]
    exact .cut hcut

end

/-! ## The same program -/

/-- Two runs of the same program, of which the second traces lines up to `level`. -/
def same (cfg : Settings) (level : Nat) (hlevel : level ≤ cfg.traceLevel)
    (hsink : level < cfg.traceLevel → cfg.traceSink = .log) : Likeness where
  cfg := cfg
  level := level
  Trees := Eq
  Errors := Eq
  level_le := hlevel
  sink := hsink

section

variable {cfg : Settings} {level : Nat} {hlevel : level ≤ cfg.traceLevel}
  {hsink : level < cfg.traceLevel → cfg.traceSink = .log}

theorem same_machines (m : Machine) : (same cfg level hlevel hsink).Machines m m :=
  ⟨Store.like_eq_iff.2 rfl, rfl, rfl, List.Sublist.refl _, fun _ => rfl⟩

theorem same_halts {halt halt' : Halt} :
    (same cfg level hlevel hsink).Halts halt halt' ↔ halt' = halt := by
  constructor
  · rintro (⟨rfl⟩ | _) <;> rfl
  · rintro rfl
    exact .same _

theorem same_like (t : Tree) : Tree.Like (same cfg level hlevel hsink).Trees t t :=
  .refl (fun _ => rfl) t

theorem runProgram_same {depth depth' : Nat} (hd : depth ≤ depth') (program : Tree)
    (scope : ScopeRef) :
    BoxScript.Follows ((same cfg level hlevel hsink).Cuts (.error .stackOverflow))
      (same cfg level hlevel hsink).Halts (same cfg level hlevel hsink).Machines
      (same cfg level hlevel hsink).Values
      (runProgram cfg depth program scope)
      (runProgram { cfg with traceLevel := level } depth' program scope) := by
  refine runProgram_follows (L := same cfg level hlevel hsink) hd ?_ ?_ rfl
    (.refl (fun _ => rfl) _) scope
  · refine evaluate_follows ?_ hd
    rintro t _ rfl
    exact same_like t
  · exact Or.inr fun _ _ he => he.symm

end

end Likeness

end BoxScript
