/-
  Isolation: evaluation leaves alone what it cannot reach.

  The places that a run can write to are those that it can reach when it begins, and those
  that are made meanwhile.  What can be reached changes during the run, but only within this
  region.

  * `Store.Region s₀ roots`: the places that the roots lead to in `s₀`, and all that do not
    exist in it;
  * `Store.Isolated s₀ roots s`: outside the region `s` is as `s₀`, and nothing in it leads
    out;
  * `Contract.isolating` is the contract of this invariant, so evaluation has it;
  * `unreachable_unchanged`: evaluation in a scope, and the call of a function, leave alone
    what the scope, or the function and the arguments, do not lead to.
-/
import BoxScript.Proofs.Eval.Evaluation
import BoxScript.Proofs.Store.Reach

namespace BoxScript

namespace Store

variable {s₀ s s' : Store} {roots : Place → Prop} {p q : Place}

/-- The places that the roots lead to, and those that do not exist. -/
def Region (s₀ : Store) (roots : Place → Prop) (p : Place) : Prop :=
  s₀.HasPlace p → s₀.Reachable roots p

/-- What is invariant of a run that began with `s₀` and some roots. -/
structure Isolated (s₀ : Store) (roots : Place → Prop) (s : Store) : Prop where
  grown : ∀ {p}, s₀.HasPlace p → s.HasPlace p
  same : ∀ {p}, ¬s₀.Region roots p → s₀.SameAt s p
  closed : ∀ {p q}, s₀.Region roots p → s.Leads p q → s₀.Region roots q

/-- Only what exists leads on. -/
theorem hasPlace_of_leads (h : s.Leads p q) : s.HasPlace p := by
  cases h with
  | @parent r _ h =>
    by_cases hr : s.Has r
    · exact hr
    · rw [parent?_eq_none hr] at h; cases h
  | @binding r _ _ h _ =>
    by_cases hr : s.Has r
    · exact hr
    · rw [bindings_eq_nil hr] at h; cases h
  | @element r _ _ h _ =>
    by_cases hr : r.index < s.arrays.size
    · exact hr
    · simp [items, Array.getElem?_eq_none (Nat.le_of_not_lt hr)] at h
  | @entry r _ _ h _ =>
    by_cases hr : r.index < s.objects.size
    · exact hr
    · simp [entries, Array.getElem?_eq_none (Nat.le_of_not_lt hr)] at h

theorem region_of_root (h : roots p) : s₀.Region roots p := fun _ => .root h

/-- What was not there at the beginning is in the region. -/
theorem region_of_new (h : ¬s₀.HasPlace p) : s₀.Region roots p := fun hp => absurd hp h

theorem Isolated.start (s₀ : Store) (roots : Place → Prop) : s₀.Isolated roots s₀ where
  grown h := h
  same _ := .refl _ _
  closed hp hq _ := .step (hp (hasPlace_of_leads hq)) hq

/-- **A change within the region** keeps the invariant if what is new in it leads nowhere
    else. -/
theorem Isolated.step (h : s₀.Isolated roots s) (grown : ∀ {p}, s.HasPlace p → s'.HasPlace p)
    (same : ∀ {p}, s₀.HasPlace p → ¬s₀.Region roots p → s.SameAt s' p)
    (leads : ∀ {p q}, s'.Leads p q → s.Leads p q ∨ s₀.Region roots q) :
    s₀.Isolated roots s' where
  grown hp := grown (h.grown hp)
  same {p} hp := by
    by_cases hs : s₀.HasPlace p
    · exact (h.same hp).trans (same hs hp)
    · exact absurd (region_of_new hs) hp
  closed hp hq := by
    rcases leads hq with hq | hq
    · exact h.closed hp hq
    · exact hq

theorem Isolated.chainFrom (h : s₀.Isolated roots s) : ∀ {rounds : Nat} {r owner : ScopeRef},
    s₀.Region roots (.scope r) → owner ∈ s.chainFrom rounds r → s₀.Region roots (.scope owner)
  | 0, _, _, _, ho => by cases ho
  | rounds + 1, r, owner, hr, ho => by
    unfold Store.chainFrom at ho
    rcases List.mem_cons.1 ho with rfl | ho
    · exact hr
    · split at ho
      · next hp => exact chainFrom h (h.closed hr (.parent hp)) ho
      · cases ho

/-- The scope that binds a name seen from the region is in the region. -/
theorem Isolated.resolve (h : s₀.Isolated roots s) {r owner : ScopeRef} {key : Key}
    (hr : s₀.Region roots (.scope r)) (ho : s.resolve? r key = some owner) :
    s₀.Region roots (.scope owner) :=
  h.chainFrom hr (resolve?_mem_chain ho)

/-- A place of the region is none outside it. -/
theorem ne_of_region {p₁ : Place} (hp : ¬s₀.Region roots p) (h₁ : s₀.Region roots p₁) :
    p ≠ p₁ := by
  rintro rfl
  exact hp h₁

end Store

open Store in
/-- The contract that nothing outside the region is changed, for a run that began with `s₀`. -/
def Contract.isolating (s₀ : Store) (roots : Place → Prop) : Contract where
  Loose := True
  Word _ := True
  Ok s := s₀.Isolated roots s
  Holds _ v := ∀ p, v.RefersTo p → s₀.Region roots p
  Sees _ r := s₀.Region roots (.scope r)
  Change _ _ _ := True
  refl := trivial
  trans _ _ := trivial
  holds_mono _ h := h
  sees_mono _ h := h
  word _ := trivial
  bound _ _ := bound_of_loose _
  plain {_ v} hv p hp := by cases hp <;> cases hv
  native _ := trivial
  datum _ _ hp := by cases hp
  function {_ f} := by
    refine ⟨fun h => ⟨h _ (.function f), fun _ _ => Or.inl trivial, fun _ _ => Or.inl trivial⟩, ?_⟩
    rintro ⟨h, -⟩ _ ⟨⟩
    exact h
  lookup ok hr h p hp := by
    obtain ⟨owner, b, ho, hb, rfl⟩ := lookup_eq_ok h
    exact ok.closed (ok.resolve hr ho) (.binding (List.mem_of_find?_eq_some hb) hp)
  item ok ha hv p hp := ok.closed (ha _ (.array _)) (.element hv hp)
  declare _ ok hr hv _ := by
    refine ⟨ok.step hasPlace_bind (fun _ hp => sameAt_bind (ne_of_region hp hr)) fun h => ?_,
      trivial⟩
    exact (leads_bind h).imp_right fun h => hv _ h.2
  assign ok hr hv h := by
    have ho := ok.resolve hr (assignable_eq_ok h).1
    refine ⟨ok.step hasPlace_rebind (fun _ hp => sameAt_rebind (ne_of_region hp ho)) fun h => ?_,
      trivial⟩
    exact (leads_rebind h).imp_right fun h => hv _ h.2
  setItem ok ha hv := by
    have ha' := ha _ (.array _)
    refine ⟨ok.step hasPlace_setItem (fun _ hp => sameAt_setItem (ne_of_region hp ha')) fun h => ?_,
      trivial⟩
    exact (leads_setItem h).imp_right fun h => hv _ h.2
  addArray {_ s items} ok hv := by
    refine ⟨ok.step (fun h => (hasPlace_new h).2.1 _)
      (fun hs _ => (sameAt_new (ok.grown hs)).2.1 _) fun h => ?_, trivial, ?_⟩
    · exact (leads_addArray h).imp_right fun ⟨_, v, hm, hq⟩ => hv v hm _ hq
    · rintro _ ⟨⟩
      exact region_of_new fun h => Nat.lt_irrefl s.arrays.size (ok.grown h)
  addObject {_ s entries} _ ok hv := by
    refine ⟨ok.step (fun h => (hasPlace_new h).2.2 _)
      (fun hs _ => (sameAt_new (ok.grown hs)).2.2 _) fun h => ?_, trivial, ?_⟩
    · exact (leads_addObject h).imp_right fun ⟨_, e, hm, hq⟩ => hv e hm _ hq
    · rintro _ ⟨⟩
      exact region_of_new fun h => Nat.lt_irrefl s.objects.size (ok.grown h)
  enter {_ s p} ok hp := by
    refine ⟨ok.step (fun h => (hasPlace_new h).1 _)
      (fun hs _ => (sameAt_new (ok.grown hs)).1 _) fun h => ?_, ?_, fun _ => trivial⟩
    · exact (leads_addScope h).imp_right fun ⟨_, hq⟩ => by rw [hq]; exact hp
    · exact region_of_new fun h => Nat.lt_irrefl s.scopes.size (ok.grown h)

namespace Contract

/-- A run that keeps the contract leaves the places outside the region alone. -/
theorem Meets.sameAt {α : Type} {roots : Place → Prop} {m : Machine} {r : ScopeRef} {x : Run α}
    {Q : Store → α → Prop} (hx : (isolating m.store roots).Meets r x Q m) {p : Place}
    (hp : m.store.HasPlace p) (hr : ¬m.store.Reachable roots p) :
    Ends x m (fun _ m' => m.store.SameAt m'.store p) fun _ m' => m.store.SameAt m'.store p := by
  have hout : ¬m.store.Region roots p := fun h => hr (h hp)
  exact Ends.imp hx (fun _ _ ⟨h, _, _⟩ => h.same hout) fun _ _ ⟨h, _⟩ => h.same hout

end Contract

/-- The places that a call of a function can begin from. -/
def Closure.CallRoots (f : Closure) (args : List Value) (p : Place) : Prop :=
  p = .scope f.scope ∨ ∃ v ∈ args, v.RefersTo p

/-- **What cannot be reached is left alone**, whether evaluation gives a value or halts.
    Evaluation in a scope changes no scope, array or object that the scope does not lead to.
    The call of a function changes none that neither the scope of its declaration nor an
    argument leads to; that of the caller is no exception. -/
theorem unreachable_unchanged (cfg : Settings) (depth : Nat) (m : Machine) {p : Place}
    (hp : m.store.HasPlace p) :
    (∀ t env, ¬m.store.Reachable (· = .scope env) p →
      Ends (evaluate cfg depth t env) m (fun _ m' => m.store.SameAt m'.store p)
        fun _ m' => m.store.SameAt m'.store p) ∧
    ∀ f args env, ¬m.store.Reachable (f.CallRoots args) p →
      Ends (callValue cfg depth (.function f) args env) m
        (fun _ m' => m.store.SameAt m'.store p) fun _ m' => m.store.SameAt m'.store p := by
  refine ⟨fun t env hr => ?_, fun f args env hr => ?_⟩
  · let K := Contract.isolating m.store (· = .scope env)
    have hmeets : K.Meets env (evaluate cfg depth t env) K.Holds m :=
      K.evaluate_meets cfg depth t env m (Or.inl trivial) (.start _ _) (Store.region_of_root rfl)
    exact hmeets.sameAt hp hr
  · let K := Contract.isolating m.store (f.CallRoots args)
    -- the scope of the caller plays no part, so it need not be one that the contract allows
    have hmeets : K.Meets env (callValue cfg depth (.function f) args env) K.Holds m := by
      cases depth with
      | zero => exact Contract.meets_throw (.start _ _) (Or.inl trivial)
      | succ depth =>
        refine Contract.callClosure_meets (K.evaluate_meets cfg depth) f args (.start _ _) ?_ ?_
        · rintro _ ⟨⟩
          exact Store.region_of_root (Or.inl rfl)
        · exact fun v hv q hq => Store.region_of_root (Or.inr ⟨v, hv, hq⟩)
    exact hmeets.sameAt hp hr

/-- Two scopes, neither inside the other, that bind the same name. -/
def Machine.twoScopes : Machine where
  store := { scopes := #[⟨none, [⟨"x", .string "old", false⟩]⟩,
    ⟨none, [⟨"x", .string "old", false⟩]⟩] }
  clock := .counting 0

/-- A function of the second scope that assigns to the name. -/
def Closure.assigning : Closure :=
  ⟨"f", [], [.assignmentExpression (.identifier (.text "x")) (.stringLiteral (.text "new"))], ⟨1⟩⟩

/-- Called from the first scope, the function changes the second one only. -/
theorem unreachable_unchanged_caller :
    let m := Machine.twoScopes
    let run := callValue { passes := 1 } 9 (.function .assigning) [] ⟨0⟩
    m.store.HasPlace (.scope ⟨0⟩) ∧
      ¬m.store.Reachable (Closure.assigning.CallRoots []) (.scope ⟨0⟩) ∧
      Ends run m (fun _ m' => m'.store.lookup ⟨1⟩ "x" = .ok (.string "new")) (fun _ _ => False) ∧
      Ends run m (fun _ m' => m.store.SameAt m'.store (.scope ⟨0⟩))
        fun _ m' => m.store.SameAt m'.store (.scope ⟨0⟩) := by
  intro m run
  have hp : m.store.HasPlace (.scope ⟨0⟩) := Nat.zero_lt_two
  have honly : ∀ p, m.store.Reachable (Closure.assigning.CallRoots []) p → p = .scope ⟨1⟩ := by
    intro p h
    induction h with
    | root h =>
      rcases h with rfl | ⟨v, hv, -⟩
      · rfl
      · cases hv
    | step _ hq ih =>
      -- the second scope has no parent and binds a text, so it leads nowhere
      subst ih
      cases hq with
      | parent h => cases h
      | binding h hq =>
        rcases List.mem_singleton.1 h with rfl
        cases hq
  have hr : ¬m.store.Reachable (Closure.assigning.CallRoots []) (.scope ⟨0⟩) := fun h =>
    absurd (honly _ h) (by simp)
  exact ⟨hp, hr, rfl, (unreachable_unchanged _ _ m hp).2 _ _ _ hr⟩

end BoxScript
