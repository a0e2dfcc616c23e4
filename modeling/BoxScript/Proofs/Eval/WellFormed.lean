/-
  Well-formed stores: references are good and look-ups end.

  A store can be cyclic, since an array can hold itself and a scope a function that was declared
  in it.  The scopes around a scope are not: each was made before the next one.

  * `Store.WellFormed`: parents are older than their children, what a place refers to exists, and
    no scope binds a name twice; each operation on a store keeps it;
  * `Store.Ancestry s r l`: the list `l` is the scope `r`, its parent and so on, up to a scope
    without a parent; in a well-formed store every chain is one (`WellFormed.ancestry`), so that
    the search for a name is the search through all parents (`WellFormed.resolve?_eq`);
  * `Contract.sound` is the contract of this invariant, so evaluation has it;
  * `Session.reached_wellFormed`: all this at every moment that a session can reach.
-/
import BoxScript.Proofs.Eval.History
import BoxScript.Proofs.Eval.Words
import BoxScript.Proofs.Store.Reach

namespace BoxScript

theorem Value.IsPlain.not_refersTo {v : Value} (h : v.IsPlain) {p : Place} : ¬v.RefersTo p := by
  rintro ⟨⟩ <;> cases h

namespace Store

variable {s : Store} {r : ScopeRef}

/-- What the value refers to exists. -/
def Knows (s : Store) (v : Value) : Prop := ∀ p, v.RefersTo p → s.HasPlace p

/-- Parents are older than their children, references are good, and names are unique. -/
structure WellFormed (s : Store) : Prop where
  older : ∀ {r p}, s.parent? r = some p → p.index < r.index
  leads : ∀ {p q}, s.Leads p q → s.HasPlace q
  unique : ∀ r, (s.names r).Nodup

/-! ## Operations on the store -/

/-- The parents after a new scope was made. -/
theorem parent?_addScope_cases {parent : Option ScopeRef} {p : ScopeRef}
    (h : (s.addScope parent).2.parent? r = some p) :
    s.parent? r = some p ∨ r = (s.addScope parent).1 ∧ parent = some p := by
  by_cases hr : s.Has r
  · exact Or.inl (parent?_addScope hr ▸ h)
  · unfold parent? addScope at h
    rw [Array.getElem?_push] at h
    split at h
    · next hi => exact Or.inr ⟨by rw [addScope, ← hi], h⟩
    · rw [scope_eq_none hr] at h
      cases h

/-! The store of a new session. -/

theorem parent?_start (r : ScopeRef) : Store.start.parent? r = none := by
  by_cases hr : Store.start.Has r
  · have h0 : r.index = 0 := Nat.lt_one_iff.1 hr
    rw [parent?, h0]
    rfl
  · exact parent?_eq_none hr

theorem bindings_start_not_refersTo {b : Binding} (hb : b ∈ Store.start.bindings r) {q : Place} :
    ¬b.value.RefersTo q := by
  obtain ⟨p, hp, rfl⟩ := mem_bindings_start hb
  simp only [Native.prelude, List.mem_cons, List.not_mem_nil, or_false] at hp
  rcases hp with rfl | rfl | rfl | rfl | rfl <;> rintro ⟨⟩

/-! Each operation keeps a store well-formed. -/

namespace WellFormed

theorem bind (h : s.WellFormed) {b : Binding} (hv : s.Knows b.value)
    (hn : b.name ∉ s.names r) : (s.bind r b).WellFormed where
  older hp := h.older (parent?_bind ▸ hp)
  leads hq := by
    refine hasPlace_bind ?_
    rcases leads_bind hq with hq | ⟨-, hq⟩
    · exact h.leads hq
    · exact hv _ hq
  unique r' := by
    unfold names
    rcases bindings_bind s r r' b with hb | ⟨rfl, hb⟩
    · rw [hb]
      exact h.unique r'
    · rw [hb, List.map_append, List.nodup_append]
      refine ⟨h.unique r', by simp, ?_⟩
      rintro key hm _ hm' rfl
      rw [List.map_singleton, List.mem_singleton] at hm'
      exact hn (hm' ▸ hm)

theorem rebind (h : s.WellFormed) {key : Key} {v : Value} (hv : s.Knows v) :
    (s.rebind r key v).WellFormed where
  older hp := h.older (parent?_rebind ▸ hp)
  leads hq := by
    refine hasPlace_rebind ?_
    rcases leads_rebind hq with hq | ⟨-, hq⟩
    · exact h.leads hq
    · exact hv _ hq
  unique r' := by
    rw [names_rebind]
    exact h.unique r'

theorem setItem (h : s.WellFormed) {a : ArrayRef} {i : Nat} {v : Value} (hv : s.Knows v) :
    (s.setItem a i v).WellFormed where
  older := h.older
  leads hq := by
    refine hasPlace_setItem ?_
    rcases leads_setItem hq with hq | ⟨-, hq⟩
    · exact h.leads hq
    · exact hv _ hq
  unique := h.unique

theorem addScope (h : s.WellFormed) {parent : Option ScopeRef}
    (hp : ∀ p, parent = some p → s.Has p) : (s.addScope parent).2.WellFormed where
  older {r p} hr := by
    rcases parent?_addScope_cases hr with hr | ⟨rfl, he⟩
    · exact h.older hr
    · exact hp p he
  leads {p q} hq := by
    refine (hasPlace_new ?_).1 _
    cases hq with
    | parent hr =>
      rcases parent?_addScope_cases hr with hr | ⟨-, hr⟩
      · exact h.leads (.parent hr)
      · exact hp _ hr
    | binding hb hv => exact h.leads (.binding (bindings_addScope ▸ hb) hv)
    | element hm hv => exact h.leads (.element hm hv)
    | entry hm hv => exact h.leads (.entry hm hv)
  unique r := by
    rw [names, bindings_addScope]
    exact h.unique r

theorem addArray (h : s.WellFormed) {items : Array Value} (hv : ∀ v ∈ items, s.Knows v) :
    (s.addArray items).2.WellFormed where
  older := h.older
  leads hq := by
    refine (hasPlace_new ?_).2.1 _
    rcases leads_addArray hq with hq | ⟨-, v, hm, hq⟩
    · exact h.leads hq
    · exact hv v hm _ hq
  unique := h.unique

theorem addObject (h : s.WellFormed) {entries : List (Name × Value)}
    (hv : ∀ e ∈ entries, s.Knows e.2) : (s.addObject entries).2.WellFormed where
  older := h.older
  leads hq := by
    refine (hasPlace_new ?_).2.2 _
    rcases leads_addObject hq with hq | ⟨-, e, hm, hq⟩
    · exact h.leads hq
    · exact hv e hm _ hq
  unique := h.unique

theorem start : Store.start.WellFormed where
  older hp := by rw [parent?_start] at hp; cases hp
  leads hq := by
    cases hq with
    | parent hp => rw [parent?_start] at hp; cases hp
    | binding hb hv =>
      exact absurd hv (bindings_start_not_refersTo hb)
    | element hm _ => simp [items, Store.start] at hm
    | entry hm _ => simp [entries, Store.start] at hm
  unique r := by
    rcases bindings_start r with hb | hb <;> rw [names, hb] <;> decide

end WellFormed

/-! ## Scopes around a scope -/

/-- The scope, the scope around it and so on, up to one without a parent. -/
inductive Ancestry (s : Store) : ScopeRef → List ScopeRef → Prop
  | outermost {r : ScopeRef} (h : s.parent? r = none) : Ancestry s r [r]
  | inner {r p : ScopeRef} {l : List ScopeRef} (h : s.parent? r = some p) (hl : Ancestry s p l) :
      Ancestry s r (r :: l)

namespace WellFormed

/-- As many rounds as there are older scopes are enough to reach the outermost one. -/
theorem chainFrom_ancestry (h : s.WellFormed) : ∀ {rounds : Nat} {r : ScopeRef},
    r.index < rounds → s.Ancestry r (s.chainFrom rounds r)
  | 0, _, hr => absurd hr (Nat.not_lt_zero _)
  | rounds + 1, r, hr => by
    unfold chainFrom
    cases hp : s.parent? r with
    | none => exact .outermost hp
    | some p =>
      have hlt := h.older hp
      exact .inner hp (chainFrom_ancestry h (by omega))

/-- **The chain of a scope goes all the way up.** -/
theorem ancestry (h : s.WellFormed) (r : ScopeRef) : s.Ancestry r (s.chain r) :=
  h.chainFrom_ancestry (Nat.lt_succ_self _)

end WellFormed

theorem Ancestry.unique {l l' : List ScopeRef} (h : s.Ancestry r l) (h' : s.Ancestry r l') :
    l = l' := by
  induction h generalizing l' with
  | outermost h =>
    cases h' with
    | outermost => rfl
    | inner hp => rw [h] at hp; cases hp
  | inner h _ ih =>
    cases h' with
    | outermost hp => rw [h] at hp; cases hp
    | inner hp hl =>
      rw [h] at hp
      cases hp
      rw [ih hl]

namespace WellFormed

/-- The search for a name looks at a scope and goes on with its parent, without a limit. -/
theorem resolve?_eq (h : s.WellFormed) (r : ScopeRef) (key : Key) :
    s.resolve? r key =
      if (s.find? r key).isSome then some r
      else (s.parent? r).bind fun p => s.resolve? p key := by
  have hchain : s.chain r = r :: ((s.parent? r).map s.chain).getD [] := by
    refine (h.ancestry r).unique ?_
    cases hp : s.parent? r with
    | none => exact .outermost hp
    | some p => exact .inner hp (h.ancestry p)
  rw [resolve?, hchain, List.find?_cons]
  cases (s.find? r key).isSome with
  | true => rfl
  | false => cases s.parent? r <;> rfl

/-- A name is bound once, so each binding is the one that its name finds. -/
theorem find?_of_mem (h : s.WellFormed) {b : Binding} (hb : b ∈ s.bindings r) :
    s.find? r b.name = some b := by
  have hu := h.unique r
  unfold names at hu
  unfold find?
  generalize s.bindings r = l at hb hu
  induction l with
  | nil => cases hb
  | cons b' l ih =>
    rw [List.map_cons, List.nodup_cons] at hu
    rw [List.find?_cons]
    rcases List.mem_cons.1 hb with rfl | hb
    · simp
    · have hne : b'.name ≠ b.name := fun he => hu.1 (he ▸ List.mem_map_of_mem hb)
      simp only [beq_false_of_ne hne]
      exact ih hb hu.2

end WellFormed

/-- A look-up reads the binding in the scope that the search finds, and fails only if the search
    does. -/
theorem lookup_eq (s : Store) (r : ScopeRef) (name : Name) :
    (∀ owner, s.resolve? r name.key = some owner →
      ∃ b, s.find? owner name.key = some b ∧ s.lookup r name = .ok b.value) ∧
    (s.resolve? r name.key = none → s.lookup r name = .error (.unknownVariable name.text)) := by
  refine ⟨fun owner ho => ?_, fun hn => by simp [lookup, hn]⟩
  obtain ⟨b, hb⟩ := Option.isSome_iff_exists.1 (resolve?_isSome ho)
  exact ⟨b, hb, by simp [lookup, ho, hb]⟩

end Store

open Store in
/-- The contract that stores stay well-formed. -/
def Contract.sound : Contract where
  Loose := True
  Word _ := True
  Ok s := s.WellFormed
  Holds s v := s.Knows v
  Sees s r := s.Has r
  Change _ s s' := ∀ p, s.HasPlace p → s'.HasPlace p
  refl _ h := h
  trans h h' p hp := h' p (h p hp)
  holds_mono h hv p hp := h p (hv p hp)
  sees_mono {_ _ _ r'} h hr := h (.scope r') hr
  word _ := trivial
  bound _ _ := bound_of_loose _
  plain hv _ hp := absurd hp hv.not_refersTo
  native _ := trivial
  datum _ _ hp := by cases hp
  function {_ f} := by
    refine ⟨fun h => ⟨h _ (.function f), fun _ _ => Or.inl trivial, fun _ _ => Or.inl trivial⟩, ?_⟩
    rintro ⟨h, -⟩ _ ⟨⟩
    exact h
  lookup ok _ h p hp := by
    obtain ⟨owner, b, -, hb, rfl⟩ := lookup_eq_ok h
    exact ok.leads (.binding (List.mem_of_find?_eq_some hb) hp)
  item ok _ hv p hp := ok.leads (.element hv hp)
  declare _ ok _ hv hn := ⟨ok.bind hv (checkNew_eq_ok_iff.1 hn), fun _ => hasPlace_bind⟩
  assign ok _ hv _ := ⟨ok.rebind hv, fun _ => hasPlace_rebind⟩
  setItem ok _ hv := ⟨ok.setItem hv, fun _ => hasPlace_setItem⟩
  addArray {_ s items} ok hv := by
    refine ⟨ok.addArray hv, fun _ h => (hasPlace_new h).2.1 _, ?_⟩
    rintro _ ⟨⟩
    simp [HasPlace, Store.addArray]
  addObject {_ s entries} _ ok hv := by
    refine ⟨ok.addObject hv, fun _ h => (hasPlace_new h).2.2 _, ?_⟩
    rintro _ ⟨⟩
    simp [HasPlace, Store.addObject]
  enter {_ s p} ok hp := by
    refine ⟨ok.addScope fun _ h => Option.some.inj h ▸ hp, ?_,
      fun h p hq => h p ((hasPlace_new hq).1 _)⟩
    simp [Has, Store.addScope]

/-! ## Sessions -/

namespace Session

/-- The values that a task brings along refer to what exists. -/
def Task.Known (s : Store) : Task → Prop
  | .call f args => s.Knows f ∧ ∀ v ∈ args, s.Knows v
  | _ => True

/-- The machines that a session can come to: by steps in scopes that exist, whether they give a
    value or halt, and by scopes, arrays and objects that are made between the steps to be handed
    to one of them. -/
inductive Reached : Machine → Prop
  | start (input : String) (clock : Clock) : Reached (.start input clock)
  | step {m : Machine} (h : Reached m) (step : Step) (hs : m.store.Has step.scope)
      (ht : step.task.Known m.store) : Reached (step.next m)
  | scope {m : Machine} (h : Reached m) (parent : Option ScopeRef)
      (hp : ∀ p, parent = some p → m.store.Has p) :
      Reached { m with store := (m.store.addScope parent).2 }
  | array {m : Machine} (h : Reached m) (items : Array Value) (hv : ∀ v ∈ items, m.store.Knows v) :
      Reached { m with store := (m.store.addArray items).2 }
  | object {m : Machine} (h : Reached m) (entries : List (Name × Value))
      (hv : ∀ e ∈ entries, m.store.Knows e.2) :
      Reached { m with store := (m.store.addObject entries).2 }

theorem Reached.wellFormed {m : Machine} (h : Reached m) : m.store.WellFormed := by
  induction h with
  | start input clock => exact .start
  | @step m h step hs ht ih =>
    refine (step.next_meets .sound trivial ih hs ?_).1
    cases htask : step.task with
    | call f args =>
      rw [htask] at ht
      exact ht
    | run | evaluate => trivial
  | scope _ parent hp ih => exact ih.addScope hp
  | array _ items hv ih => exact ih.addArray hv
  | object _ entries hv ih => exact ih.addObject hv

/-- **The store of a session is well-formed at every moment**, also after steps that halted.
    Parents were made before their children, and the scopes around a scope end with one that has
    no parent; what a binding, an element or an entry refers to exists; a scope binds a name once,
    and a mark as constant is that of the binding which the name has.  So the search for a name
    ends, as it goes on to an older scope each time, and a look-up of a name that was found never
    misses it. -/
theorem reached_wellFormed {m : Machine} (h : Reached m) :
    let s := m.store
    (∀ r p, s.parent? r = some p → s.Has p ∧ p.index < r.index) ∧
    (∀ r, s.Ancestry r (s.chain r)) ∧
    (∀ p q, s.Leads p q → s.HasPlace q) ∧
    (∀ r, (s.names r).Nodup) ∧
    (∀ r b, b ∈ s.bindings r → b.constant = true → s.find? r b.name = some b) ∧
    ∀ r (name : Name),
      s.resolve? r name.key = (if (s.find? r name.key).isSome then some r
        else (s.parent? r).bind fun p => s.resolve? p name.key) ∧
      (∀ owner, s.resolve? r name.key = some owner →
        ∃ b, s.find? owner name.key = some b ∧ s.lookup r name = .ok b.value) ∧
      (s.resolve? r name.key = none →
        s.lookup r name = .error (.unknownVariable name.text)) := by
  intro s
  have hwf : s.WellFormed := h.wellFormed
  refine ⟨fun r p hp => ⟨hwf.leads (.parent hp), hwf.older hp⟩, hwf.ancestry,
    fun _ _ => hwf.leads, hwf.unique, fun r b hb _ => hwf.find?_of_mem hb, fun r name => ?_⟩
  exact ⟨hwf.resolve?_eq r name.key, s.lookup_eq r name⟩

/-- A function is declared that assigns to a name that nobody binds. -/
def Step.declaring : Step := .statement
  (.functionDeclaration (.text "f") (.list []) (.block (.list
    [.assignmentExpression (.identifier (.text "x")) (.stringLiteral (.text "v"))])))

/-- The function is called. -/
def Step.calling : Step := .statement (.callExpression (.identifier (.text "f")) (.list []))

/-- The call halts inside the scope that was made for it. -/
theorem reached_wellFormed_halted :
    let before := Step.declaring.next (.start "" (.counting 0))
    let m := Step.calling.next before
    let s := m.store
    Reached m ∧
      Ends (Step.calling.task.perform Step.calling.settings 9 .global) (Step.calling.entry before)
        (fun _ _ => False) (fun e _ => e = .error (.unknownVariable "x")) ∧
      s.parent? ⟨1⟩ = some .global ∧ s.Has .global ∧ s.Ancestry ⟨1⟩ (s.chain ⟨1⟩) ∧
      s.chain ⟨1⟩ = [⟨1⟩, .global] ∧
      s.resolve? ⟨1⟩ "f" = some .global ∧
      (∃ b, s.find? .global "f" = some b ∧ s.lookup ⟨1⟩ "f" = .ok b.value) ∧
      s.lookup ⟨1⟩ "x" = .error (.unknownVariable "x") := by
  intro before m s
  have hreached : Reached m :=
    .step (.step (.start "" (.counting 0)) Step.declaring Nat.zero_lt_one trivial) Step.calling
      Nat.zero_lt_one trivial
  obtain ⟨hparent, hchain, -, -, -, hlookup⟩ := reached_wellFormed hreached
  have hp : s.parent? ⟨1⟩ = some .global := rfl
  have hf : s.resolve? ⟨1⟩ "f" = some .global := rfl
  exact ⟨hreached, rfl, hp, (hparent _ _ hp).1, hchain _, rfl, hf, (hlookup _ "f").2.1 _ hf,
    (hlookup _ "x").2.2 rfl⟩

end Session

end BoxScript
