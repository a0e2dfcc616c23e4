/-
  Histories of a session: what no program can undo.

  A session is used step by step (`Session.Step`): a program is run, a tree evaluated or a
  value called, in any scope, and a step may halt in the middle of its work.

  * `Store.Keeps s s'`: every scope of `s` is still there in `s'`, with the same parent, its
    names in the same order, the same marks of constants and the same values of constants;
  * `Contract.keeping` is the contract of this relation, so evaluation has it;
  * `Store.Keeps.lookup`: a name that a scope sees is seen for ever;
  * `Session.scopes_persist`: all this for any two moments of a history, and the names that
    every session begins with keep their values.
-/
import BoxScript.Proofs.Eval.Evaluation
import BoxScript.Proofs.Store.Operations

namespace BoxScript

/-! ## Steps of a session -/

namespace Session

/-- What a session can be asked for. -/
inductive Task where
  | run (program : Tree)
  | evaluate (tree : Tree)
  | call (f : Value) (args : List Value)

/-- The work of a task in a scope. -/
def Task.perform (cfg : Settings) (depth : Nat) (scope : ScopeRef) : Task → Run Value
  | .run program => runProgram cfg depth program scope
  | .evaluate tree => BoxScript.evaluate cfg depth tree scope
  | .call f args => callValue cfg depth f args scope

/-- A task in a scope, with its settings and limit, and the lines that it can read. -/
structure Step where
  task : Task
  scope : ScopeRef
  settings : Settings
  depth : Nat
  replies : List String

/-- The machine as a step finds it. -/
def Step.entry (step : Step) (m : Machine) : Machine :=
  { m with console := { m.console with replies := step.replies } }

/-- The machine after a step, whether it gave a value or halted. -/
def Step.next (step : Step) (m : Machine) : Machine :=
  match step.task.perform step.settings step.depth step.scope (step.entry m) with
  | .ok _ m' => m'
  | .error _ m' => m'

/-- The machine after some steps. -/
def after (m : Machine) (steps : List Step) : Machine :=
  steps.foldl (fun m step => step.next m) m

theorem after_append (m : Machine) (steps steps' : List Step) :
    after m (steps ++ steps') = after (after m steps) steps' :=
  List.foldl_append

/-- The values that a task brings along are ones that the contract allows. -/
def Task.Fits (K : Contract) (s : Store) : Task → Prop
  | .call f args => K.Holds s f ∧ ∀ v ∈ args, K.Holds s v
  | _ => True

/-- **A step keeps every contract about all trees.** -/
theorem Step.next_meets (K : Contract) (hl : K.Loose) (step : Step) {m : Machine}
    (ok : K.Ok m.store) (hr : K.Sees m.store step.scope) (ht : step.task.Fits K m.store) :
    K.Ok (step.next m).store ∧ K.Change step.scope m.store (step.next m).store := by
  have hmeets : K.Meets step.scope (step.task.perform step.settings step.depth step.scope) K.Holds
      (step.entry m) := by
    cases htask : step.task with
    | run program => exact K.runProgram_meets _ _ (Or.inl hl) ok hr
    | evaluate tree => exact K.evaluate_meets _ _ tree _ _ (Or.inl hl) ok hr
    | call f args =>
      rw [htask] at ht
      exact K.callValue_meets _ _ ok hr ht.1 ht.2
  unfold Contract.Meets Ends at hmeets
  unfold Step.next
  split at hmeets
  · next hx => simp only [hx]; exact ⟨hmeets.1, hmeets.2.1⟩
  · next hx => simp only [hx]; exact ⟨hmeets.1, hmeets.2.1⟩

end Session

/-! ## What is kept -/

namespace Store

/-- A binding that is still there: a constant has its value. -/
structure StillBound (b b' : Binding) : Prop where
  constant : b'.constant = b.constant
  value : b.constant = true → b'.value = b.value

theorem StillBound.refl (b : Binding) : StillBound b b := ⟨rfl, fun _ => rfl⟩

theorem StillBound.trans {b b' b'' : Binding} (h : StillBound b b') (h' : StillBound b' b'') :
    StillBound b b'' :=
  ⟨h'.constant.trans h.constant, fun hc =>
    (h'.value (h.constant.trans hc)).trans (h.value hc)⟩

/-- What a later store has of an earlier one. -/
structure Keeps (s s' : Store) : Prop where
  has : ∀ {r}, s.Has r → s'.Has r
  parent : ∀ {r}, s.Has r → s'.parent? r = s.parent? r
  names : ∀ r, s.names r <+: s'.names r
  binding : ∀ {r name b}, s.find? r name = some b →
    ∃ b', s'.find? r name = some b' ∧ StillBound b b'

namespace Keeps

variable {s s' s'' : Store}

theorem refl (s : Store) : s.Keeps s :=
  ⟨id, fun _ => rfl, fun _ => List.prefix_refl _, fun h => ⟨_, h, .refl _⟩⟩

theorem trans (h : s.Keeps s') (h' : s'.Keeps s'') : s.Keeps s'' where
  has hr := h'.has (h.has hr)
  parent hr := (h'.parent (h.has hr)).trans (h.parent hr)
  names r := (h.names r).trans (h'.names r)
  binding hb := by
    obtain ⟨b', hb', hk⟩ := h.binding hb
    obtain ⟨b'', hb'', hk'⟩ := h'.binding hb'
    exact ⟨b'', hb'', hk.trans hk'⟩

/-- A change that leaves all bindings as they are. -/
theorem of_bindings (has : ∀ {r}, s.Has r → s'.Has r)
    (parent : ∀ {r}, s.Has r → s'.parent? r = s.parent? r)
    (bindings : ∀ r, s'.bindings r = s.bindings r) : s.Keeps s' where
  has := has
  parent := parent
  names r := by
    have h : s'.names r = s.names r := congrArg (List.map Binding.name) (bindings r)
    exact h ▸ List.prefix_refl _
  binding {r name b} h := by
    refine ⟨b, ?_, .refl b⟩
    rw [Store.find?, bindings]
    exact h

theorem bind (s : Store) (r : ScopeRef) (b : Binding) : s.Keeps (s.bind r b) where
  has := has_bind.2
  parent _ := parent?_bind
  names r' := by
    rcases bindings_bind s r r' b with h | ⟨-, h⟩
    · have h : (s.bind r b).names r' = s.names r' := congrArg (List.map Binding.name) h
      exact h ▸ List.prefix_refl _
    · rw [Store.names, Store.names, h, List.map_append]
      exact List.prefix_append _ _
  binding {r' name b₀} h := by
    refine ⟨b₀, ?_, .refl b₀⟩
    unfold Store.find? at h ⊢
    rcases bindings_bind s r r' b with h' | ⟨-, h'⟩
    · rw [h', h]
    · rw [h', List.find?_append, h]
      rfl

/-- The first binding of a name after an assignment to `name`. -/
theorem find?_map_assigned {l : List Binding} {name name' : Key} {v : Value} {b : Binding}
    (h : l.find? (fun b => b.name == name') = some b) :
    (l.map fun b => if b.name = name then { b with value := v } else b).find?
      (fun b => b.name == name') = some (if b.name = name then { b with value := v } else b) := by
  rw [List.find?_map]
  have hsame : ((fun b : Binding => b.name == name') ∘ fun b =>
      if b.name = name then { b with value := v } else b) = fun b => b.name == name' := by
    funext b
    simp only [Function.comp_apply]
    split <;> rfl
  rw [hsame, h]
  rfl

theorem rebind {owner : ScopeRef} {name : Key} (v : Value)
    (hc : ∀ b, s.find? owner name = some b → b.constant = false) :
    s.Keeps (s.rebind owner name v) where
  has := has_rebind.2
  parent _ := parent?_rebind
  names r := by
    have h : (s.rebind owner name v).names r = s.names r := names_rebind
    exact h ▸ List.prefix_refl _
  binding {r name' b} h := by
    by_cases hr : r = owner
    · subst hr
      refine ⟨_, by rw [Store.find?, bindings_rebind_self]; exact find?_map_assigned h, ?_⟩
      split
      · next hn =>
        -- the name that is assigned to is not a constant, so its value may change
        have hname : name' = name := by
          rw [← hn]; exact (by simpa using List.find?_some h : b.name = name').symm
        subst hname
        exact ⟨rfl, fun hb => by rw [hc b h] at hb; cases hb⟩
      · exact .refl b
    · refine ⟨b, ?_, .refl b⟩
      rw [Store.find?, bindings_rebind_of_ne hr]
      exact h

theorem addScope (s : Store) (p : Option ScopeRef) : s.Keeps (s.addScope p).2 :=
  of_bindings has_addScope parent?_addScope fun _ => bindings_addScope

/-! ## Names that stay visible -/

theorem chainFrom (h : s.Keeps s') :
    ∀ (rounds : Nat) (r : ScopeRef), s.chainFrom rounds r <+: s'.chainFrom rounds r
  | 0, _ => List.prefix_refl _
  | rounds + 1, r => by
    unfold Store.chainFrom
    rw [List.prefix_cons_inj]
    by_cases hr : s.Has r
    · rw [h.parent hr]
      split
      · exact chainFrom h rounds _
      · exact List.prefix_refl _
    · rw [parent?_eq_none hr]
      exact List.nil_prefix

/-- **A name that a scope sees is seen for ever.** -/
theorem lookup (h : s.Keeps s') {r : ScopeRef} {name : Name} {v : Value}
    (hv : s.lookup r name = .ok v) : ∃ v', s'.lookup r name = .ok v' := by
  obtain ⟨owner, b, ho, hb, -⟩ := lookup_eq_ok hv
  obtain ⟨b', hb', -⟩ := h.binding hb
  have hmem : owner ∈ s'.chain r := (h.chainFrom _ r).mem (resolve?_mem_chain ho)
  exact lookup_of_mem_chain hmem (by rw [hb']; rfl)

end Keeps

end Store

/-- The contract that all scopes are kept. -/
def Contract.keeping : Contract where
  Loose := True
  Word _ := True
  Ok _ := True
  Holds _ _ := True
  Sees _ _ := True
  Change _ s s' := s.Keeps s'
  refl := .refl _
  trans h h' := h.trans h'
  holds_mono _ _ := trivial
  sees_mono _ _ := trivial
  word _ := trivial
  bound _ _ := bound_of_loose _
  plain _ := trivial
  native _ := trivial
  datum _ := trivial
  function := function_of_loose _
  lookup _ _ _ := trivial
  item _ _ _ := trivial
  declare _ _ _ _ _ := ⟨trivial, .bind _ _ _⟩
  assign _ _ _ h := ⟨trivial, .rebind _ (Store.assignable_eq_ok h).2⟩
  setItem _ _ _ := ⟨trivial, .of_bindings id (fun _ => rfl) fun _ => rfl⟩
  addArray _ _ := ⟨trivial, .of_bindings id (fun _ => rfl) fun _ => rfl, trivial⟩
  addObject _ _ _ := ⟨trivial, .of_bindings id (fun _ => rfl) fun _ => rfl, trivial⟩
  enter _ _ := ⟨trivial, trivial, fun h => (Store.Keeps.addScope _ _).trans h⟩

namespace Session

theorem after_keeps (m : Machine) (steps : List Step) : m.store.Keeps (after m steps).store := by
  induction steps generalizing m with
  | nil => exact .refl _
  | cons step steps ih =>
    have hstep : step.task.Fits .keeping m.store := by
      cases step.task <;> simp [Task.Fits, Contract.keeping]
    exact (step.next_meets .keeping trivial trivial trivial hstep).2.trans (ih (step.next m))

/-- A name of the prelude is bound to its value in every session, as a constant. -/
theorem find?_prelude (m : Machine) (h : Store.start.Keeps m.store) :
    ∀ p ∈ Native.prelude, ∃ b, m.store.find? .global p.1 = some b ∧ b.value = p.2 ∧
      b.constant = true := by
  intro p hp
  have hstart : Store.start.find? .global p.1 = some ⟨p.1, p.2, true⟩ := by
    simp only [Native.prelude, List.mem_cons, List.not_mem_nil, or_false] at hp
    rcases hp with rfl | rfl | rfl | rfl | rfl <;> rfl
  obtain ⟨b, hb, hk⟩ := h.binding hstart
  exact ⟨b, hb, hk.value rfl, hk.constant⟩

/-- **Scopes and constants persist.**  Take any two moments of a history, `earlier` steps and
    then `later` ones after the start.  Every scope of the first moment is there at the second,
    with the same parent; its names are the first names of the later scope; a name is marked as
    constant if it was, and a constant has the same value; and a name that can be looked up
    still can be.  The names of the prelude have their first values. -/
theorem scopes_persist (input : String) (clock : Clock) (earlier later : List Step) :
    let s := (after (.start input clock) earlier).store
    let s' := (after (.start input clock) (earlier ++ later)).store
    (∀ r, s.Has r →
      s'.Has r ∧ s'.parent? r = s.parent? r ∧ s.names r <+: s'.names r ∧
      (∀ name b, s.find? r name = some b → ∃ b', s'.find? r name = some b' ∧
        b'.constant = b.constant ∧ (b.constant = true → b'.value = b.value)) ∧
      ∀ name v, s.lookup r name = .ok v → ∃ v', s'.lookup r name = .ok v') ∧
    ∀ p ∈ Native.prelude, ∃ b, s'.find? .global p.1 = some b ∧ b.value = p.2 ∧
      b.constant = true := by
  intro s s'
  have hk : s.Keeps s' := by
    show s.Keeps (after _ (earlier ++ later)).store
    rw [after_append]
    exact after_keeps _ later
  refine ⟨fun r hr => ⟨hk.has hr, hk.parent hr, hk.names r, fun name b hb => ?_,
    fun name v hv => hk.lookup hv⟩, find?_prelude _ (after_keeps (.start input clock) _)⟩
  obtain ⟨b', hb', h⟩ := hk.binding hb
  exact ⟨b', hb', h.constant, h.value⟩

/-- A step that runs one statement in the global scope. -/
def Step.statement (t : Tree) : Step :=
  ⟨.run (.program (.list [t])), .global, { passes := 1 }, 9, []⟩

/-- A constant is declared, and a later step tries to assign to it. -/
theorem scopes_persist_constant :
    let declared := Step.statement
      (.variableDeclaration (.text "limit") (.stringLiteral (.text "old")) (.bool true) .null)
    let assigned := Step.statement
      (.assignmentExpression (.identifier (.text "limit")) (.stringLiteral (.text "new")))
    let s := (after (.start "" (.counting 0)) [declared]).store
    let s' := (after (.start "" (.counting 0)) ([declared] ++ [assigned])).store
    s.Has .global ∧ s.find? .global "limit" = some ⟨"limit", .string "old", true⟩ ∧
      s.lookup .global "limit" = .ok (.string "old") ∧
      (∃ b, s'.find? .global "limit" = some b ∧ b.constant = true ∧ b.value = .string "old") ∧
      (∃ v, s'.lookup .global "limit" = .ok v) ∧
      ∃ b, s'.find? .global "null" = some b ∧ b.value = .null ∧ b.constant = true := by
  intro declared assigned s s'
  have hb : s.find? .global "limit" = some ⟨"limit", .string "old", true⟩ := rfl
  have hr : s.Has .global := Store.has_of_find? (Option.isSome_of_eq_some hb)
  have hv : s.lookup .global "limit" = .ok (.string "old") := rfl
  obtain ⟨hscopes, hprelude⟩ := scopes_persist "" (.counting 0) [declared] [assigned]
  obtain ⟨-, -, -, hbinding, hlookup⟩ := hscopes .global hr
  obtain ⟨b, hb', hc, hvalue⟩ := hbinding _ _ hb
  exact ⟨hr, hb, hv, ⟨b, hb', hc, hvalue rfl⟩, hlookup _ _ hv,
    hprelude ("null", .null) (by simp [Native.prelude])⟩

end Session

end BoxScript
