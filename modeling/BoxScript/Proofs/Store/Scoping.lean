/-
  Scoping: which scope a name belongs to, and who sees a change of it.

  Scopes form a forest, so many scopes can lie inside the one that is changed.  Those see the change
  that find no binding of the name on their way out to it.

  * `Store.Outward s P r o`: the way from `r` out to `o` leads through scopes with `P`;
    `Store.Encloses`, `Store.Clear` and `Store.Nearest` are said with it;
  * `Store.WellFormed.resolve?_eq_some_iff`: the search for a name finds the nearest scope that
    binds it, and `Store.WellFormed.resolve?_eq_none_iff`: it fails if no scope around binds it;
  * `Store.ReadsBack`: those who see a change read the new value, all others what they read before;
  * `Run.read_after_write`: **what is read after an assignment or a declaration**, by everyone.
-/
import BoxScript.Proofs.Eval.WellFormed

namespace BoxScript

namespace Store

variable {s : Store} {r e o : ScopeRef} {key : Key} {name : Name} {v : Value}

/-! ## Ways outward -/

/-- By going to the parent any number of times one comes from `r` to `o`; the scopes before `o`
    satisfy `P`. -/
inductive Outward (s : Store) (P : ScopeRef → Prop) : ScopeRef → ScopeRef → Prop
  | here (r : ScopeRef) : Outward s P r r
  | step {r p o : ScopeRef} (h : P r) (hp : s.parent? r = some p) (ho : Outward s P p o) :
      Outward s P r o

/-- The scope `o` is `r` or lies around it. -/
def Encloses (s : Store) (o r : ScopeRef) : Prop := s.Outward (fun _ => True) r o

/-- The scope `o` is `r` or lies around it, and no scope nearer to `r` binds the name. -/
def Clear (s : Store) (key : Key) (r o : ScopeRef) : Prop := s.Outward (key ∉ s.names ·) r o

/-- The scope `o` is the nearest one that binds the name, as seen from `r`. -/
def Nearest (s : Store) (key : Key) (r o : ScopeRef) : Prop :=
  s.Clear key r o ∧ key ∈ s.names o

theorem Outward.mono {P Q : ScopeRef → Prop} (h : s.Outward P r o) (hPQ : ∀ x, P x → Q x) :
    s.Outward Q r o := by
  induction h with
  | here r => exact .here r
  | step hr hp _ ih => exact .step (hPQ _ hr) hp ih

/-- If a scope around `r` binds the name, there is a nearest one. -/
theorem Encloses.exists_nearest (h : s.Encloses o r) (hn : key ∈ s.names o) :
    ∃ o', s.Nearest key r o' := by
  induction h with
  | here r => exact ⟨r, .here r, hn⟩
  | @step r _ _ _ hp _ ih =>
    by_cases hr : key ∈ s.names r
    · exact ⟨r, .here r, hr⟩
    · obtain ⟨o', hclear, hn'⟩ := ih hn
      exact ⟨o', .step hr hp hclear, hn'⟩

/-! ## The search for a name -/

/-- A search among the scopes around `r` that stops at `o`, and at no scope on a clear way to it. -/
theorem Ancestry.find?_of_clear {l : List ScopeRef} {q : ScopeRef → Bool} (ha : s.Ancestry r l)
    (hc : s.Clear key r o) (ho : q o = true)
    (hq : ∀ x, key ∉ s.names x → q x = true → x = o) : l.find? q = some o := by
  induction hc generalizing l with
  | here r => cases ha <;> simp [ho]
  | @step r p o hr hp _ ih =>
    cases ha with
    | outermost hp' =>
      rw [hp] at hp'
      cases hp'
    | inner hp' hl =>
      rw [hp] at hp'
      cases hp'
      rw [List.find?_cons]
      cases hqr : q r with
      | true => rw [hq r hr hqr]
      | false => exact ih hl ho hq

/-- The way to the scope at which the search stops is clear. -/
theorem Ancestry.clear_of_find? {l : List ScopeRef} (ha : s.Ancestry r l)
    (h : l.find? (fun x => (s.find? x key).isSome) = some o) : s.Clear key r o := by
  induction ha with
  | @outermost r _ =>
    obtain rfl : o = r := List.mem_singleton.1 (List.mem_of_find?_eq_some h)
    exact .here o
  | @inner r p l hp _ ih =>
    rw [List.find?_cons] at h
    split at h
    · cases h
      exact .here o
    · next hr => exact .step (fun hn => by simp [find?_isSome_iff.2 hn] at hr) hp (ih h)

namespace WellFormed

/-- **The search for a name finds the nearest scope that binds it.** -/
theorem resolve?_eq_some_iff (h : s.WellFormed) :
    s.resolve? r key = some o ↔ s.Nearest key r o := by
  constructor
  · exact fun ho => ⟨(h.ancestry r).clear_of_find? ho, find?_isSome_iff.1 (resolve?_isSome ho)⟩
  · rintro ⟨hc, hn⟩
    refine (h.ancestry r).find?_of_clear hc (find?_isSome_iff.2 hn) fun x hx hs => ?_
    exact absurd (find?_isSome_iff.1 hs) hx

theorem resolve?_eq_none_iff (h : s.WellFormed) :
    s.resolve? r key = none ↔ ∀ o, s.Encloses o r → key ∉ s.names o := by
  constructor
  · intro hnone o ho hn
    obtain ⟨o', hnearest⟩ := ho.exists_nearest hn
    rw [h.resolve?_eq_some_iff.2 hnearest] at hnone
    cases hnone
  · intro hunbound
    cases ho : s.resolve? r key with
    | none => rfl
    | some o =>
      obtain ⟨hc, hn⟩ := h.resolve?_eq_some_iff.1 ho
      exact absurd hn (hunbound o (hc.mono fun _ _ => trivial))

theorem nearest_unique (h : s.WellFormed) {o' : ScopeRef} (ho : s.Nearest key r o)
    (ho' : s.Nearest key r o') : o' = o := by
  have heq := (h.resolve?_eq_some_iff.2 ho').symm.trans (h.resolve?_eq_some_iff.2 ho)
  exact Option.some.inj heq

/-- The binding that a name finds is the one that the scope has for it. -/
theorem find?_eq_some_iff (h : s.WellFormed) {b : Binding} :
    s.find? r key = some b ↔ b ∈ s.bindings r ∧ b.name = key := by
  constructor
  · exact fun hb => ⟨List.mem_of_find?_eq_some hb, by simpa using List.find?_some hb⟩
  · rintro ⟨hb, rfl⟩
    exact h.find?_of_mem hb

end WellFormed

/-! ## Reading after a change -/

/-- After a change from `s` to `s'`, the scopes with `Sees` read `v` for the name.  All others, and
    all scopes for other names, read what they read before. -/
def ReadsBack (s s' : Store) (key : Key) (v : Value) (Sees : ScopeRef → Prop) : Prop :=
  ∀ r (k : Name), (k.key = key ∧ Sees r → s'.lookup r k = .ok v) ∧
    (¬(k.key = key ∧ Sees r) → s'.lookup r k = s.lookup r k)

theorem lookup_of_resolve? {b : Binding} (ho : s.resolve? r name.key = some o)
    (hb : s.find? o name.key = some b) : s.lookup r name = .ok b.value := by
  simp [lookup, ho, hb]

/-- A look-up depends on where the name is found and on the binding there. -/
theorem lookup_congr {s' : Store} (hr : s'.resolve? r name.key = s.resolve? r name.key)
    (hf : ∀ o, s.resolve? r name.key = some o → s'.find? o name.key = s.find? o name.key) :
    s'.lookup r name = s.lookup r name := by
  unfold lookup
  rw [hr]
  cases ho : s.resolve? r name.key with
  | none => rfl
  | some o => simp only [Option.bind_some, hf o ho]

/-! Assignment: the scopes keep their names, so every search finds what it found before. -/

theorem find?_rebind_of_ne {k : Key} (h : ¬(r = o ∧ k = key)) :
    (s.rebind o key v).find? r k = s.find? r k := by
  unfold find?
  by_cases hr : r = o
  · subst hr
    rw [bindings_rebind_self]
    cases hb : (s.bindings r).find? fun b => b.name == k with
    | none =>
      rw [List.find?_eq_none] at hb ⊢
      intro b' hb'
      obtain ⟨b, hmem, rfl⟩ := List.mem_map.1 hb'
      have hne := hb b hmem
      split <;> exact hne
    | some b =>
      have hname : b.name = k := by simpa using List.find?_some hb
      rw [Keeps.find?_map_assigned hb, if_neg fun hn => h ⟨rfl, hname.symm.trans hn⟩]
  · rw [bindings_rebind_of_ne hr]

theorem find?_rebind_self {b : Binding} (hb : s.find? o key = some b) :
    (s.rebind o key v).find? o key = some { b with value := v } := by
  have hname : b.name = key := by simpa using List.find?_some hb
  rw [find?, bindings_rebind_self, Keeps.find?_map_assigned hb, if_pos hname]

theorem resolve?_rebind {k : Key} :
    (s.rebind o key v).resolve? r k = s.resolve? r k := by
  have hbound : ∀ x, ((s.rebind o key v).find? x k).isSome = (s.find? x k).isSome := by
    intro x
    rw [Bool.eq_iff_iff, find?_isSome_iff, find?_isSome_iff, names_rebind]
  unfold resolve?
  simp only [chain_congr fun _ => parent?_rebind, hbound]

theorem WellFormed.readsBack_rebind (h : s.WellFormed) (ho : s.Nearest key e o) :
    s.ReadsBack (s.rebind o key v) key v fun r =>
      ∃ o, s.Nearest key e o ∧ s.Nearest key r o := by
  intro r k
  constructor
  · rintro ⟨rfl, o', he, hr⟩
    obtain rfl := h.nearest_unique ho he
    obtain ⟨b, hb⟩ := Option.isSome_iff_exists.1 (find?_isSome_iff.2 hr.2)
    exact lookup_of_resolve? (resolve?_rebind.trans (h.resolve?_eq_some_iff.2 hr))
      (find?_rebind_self hb)
  · intro hother
    refine lookup_congr resolve?_rebind fun o' ho' => find?_rebind_of_ne ?_
    rintro ⟨rfl, rfl⟩
    exact hother ⟨rfl, o', ho, h.resolve?_eq_some_iff.1 ho'⟩

/-! Declaration: a search stops at the changed scope as well, if it comes to it. -/

theorem find?_bind_of_ne {b : Binding} {k : Key} (h : ¬(r = e ∧ k = b.name)) :
    (s.bind e b).find? r k = s.find? r k := by
  unfold find?
  rcases bindings_bind s e r b with hb | ⟨hr, hb⟩
  · rw [hb]
  · have hne : (b.name == k) = false := beq_false_of_ne fun hk => h ⟨hr, hk.symm⟩
    simp [hb, hne]

theorem find?_bind_self {b : Binding} (he : s.Has e) (hn : b.name ∉ s.names e) :
    (s.bind e b).find? e b.name = some b := by
  have hnone : s.find? e b.name = none := by
    rw [← Option.not_isSome_iff_eq_none]
    exact mt find?_isSome_iff.1 hn
  unfold find? at hnone ⊢
  rw [bindings_bind_self he, List.find?_append, hnone]
  simp

/-- A search that does not come to the changed scope finds what it found before. -/
theorem Ancestry.find?_bind {b : Binding} {l : List ScopeRef} (ha : s.Ancestry r l)
    (hc : ¬s.Clear b.name r e) :
    l.find? (fun x => ((s.bind e b).find? x b.name).isSome) =
      l.find? fun x => (s.find? x b.name).isSome := by
  induction ha with
  | @outermost r _ =>
    have hne : r ≠ e := fun he => hc (he ▸ .here r)
    simp only [List.find?_cons, List.find?_nil, find?_bind_of_ne fun he => hne he.1]
  | @inner r p l hp _ ih =>
    have hne : r ≠ e := fun he => hc (he ▸ .here r)
    simp only [List.find?_cons, find?_bind_of_ne fun he => hne he.1]
    cases hr : (s.find? r b.name).isSome with
    | true => rfl
    | false =>
      refine ih fun hp' => hc (.step ?_ hp hp')
      exact fun hn => by simp [find?_isSome_iff.2 hn] at hr

theorem WellFormed.readsBack_bind (h : s.WellFormed) {b : Binding} (he : s.Has e)
    (hn : b.name ∉ s.names e) :
    s.ReadsBack (s.bind e b) b.name b.value fun r => s.Clear b.name r e := by
  have hchain : ∀ r, (s.bind e b).chain r = s.chain r := chain_congr fun _ => parent?_bind
  intro r k
  constructor
  · rintro ⟨hk, hc⟩
    refine lookup_of_resolve? ?_ (hk ▸ find?_bind_self he hn)
    rw [resolve?, hchain, hk]
    refine (h.ancestry r).find?_of_clear hc (by rw [find?_bind_self he hn]; rfl) fun x hx hs => ?_
    -- on a clear way the search stops at no scope that did not get the name just now
    by_cases hxe : x = e
    · exact hxe
    · rw [find?_bind_of_ne fun h => hxe h.1] at hs
      exact absurd (find?_isSome_iff.1 hs) hx
  · intro hother
    by_cases hk : k.key = b.name
    · have hc : ¬s.Clear b.name r e := fun hc => hother ⟨hk, hc⟩
      refine lookup_congr ?_ fun o ho => find?_bind_of_ne ?_
      · rw [resolve?, hchain, hk]
        exact (h.ancestry r).find?_bind hc
      · rintro ⟨rfl, -⟩
        exact hc (hk ▸ (h.resolve?_eq_some_iff.1 ho).1)
    · refine lookup_congr ?_ fun o _ => find?_bind_of_ne fun h => hk h.2
      simp only [resolve?, hchain, find?_bind_of_ne fun h => hk h.2]

/-! ## Why a change is refused -/

theorem checkNew_eq_error_iff {err : EvalError} :
    s.checkNew r name = .error err ↔
      name.key ∈ s.names r ∧ err = .duplicateDeclaration name.text := by
  rw [← find?_isSome_iff]
  unfold checkNew
  split
  · next hs => simpa [hs] using eq_comm
  · next hs => simp [hs]

/-- A name cannot be assigned to if it is not found, or found as a constant. -/
theorem assignable_eq_error_iff {err : EvalError} :
    s.assignable r name = .error err ↔
      s.resolve? r name.key = none ∧ err = .unknownVariable name.text ∨
      (∃ o b, s.resolve? r name.key = some o ∧ s.find? o name.key = some b ∧ b.constant = true) ∧
        err = .constantViolation name.text := by
  unfold assignable
  cases ho : s.resolve? r name.key with
  | none => simpa using eq_comm
  | some o =>
    obtain ⟨b, hb⟩ := Option.isSome_iff_exists.1 (resolve?_isSome ho)
    cases hc : b.constant with
    | false => simp [hb, hc]
    | true => simpa [hb, hc] using eq_comm

theorem WellFormed.assignable_unknown_iff (h : s.WellFormed) :
    s.assignable r name = .error (.unknownVariable name.text) ↔
      ∀ o, s.Encloses o r → name.key ∉ s.names o := by
  rw [assignable_eq_error_iff, h.resolve?_eq_none_iff]
  simp

theorem WellFormed.assignable_constant_iff (h : s.WellFormed) :
    s.assignable r name = .error (.constantViolation name.text) ↔
      ∃ o, s.Nearest name.key r o ∧ ∃ b ∈ s.bindings o, b.name = name.key ∧ b.constant = true := by
  rw [assignable_eq_error_iff]
  simp [h.resolve?_eq_some_iff, h.find?_eq_some_iff, and_assoc]

end Store

namespace Run

variable {m : Machine} {r o : ScopeRef} {name : Name} {v : Value}

theorem lift_of_ok {α : Type} {x : Except EvalError α} {a : α} (h : x = .ok a) :
    lift x m = .ok a m := by
  rw [h]
  rfl

theorem lift_of_error {α : Type} {x : Except EvalError α} {err : EvalError} (h : x = .error err) :
    lift x m = .error (.error err) m := by
  rw [h]
  rfl

theorem replaceStore_of_ok {f : Store → Except EvalError Store} {s : Store}
    (h : f m.store = .ok s) : replaceStore f m = .ok () { m with store := s } :=
  bind_of_ok (f := fun s => changeStore fun _ => s) (lift_of_ok h)

theorem replaceStore_of_error {f : Store → Except EvalError Store} {err : EvalError}
    (h : f m.store = .error err) : replaceStore f m = .error (.error err) m :=
  bind_of_error (f := fun s => changeStore fun _ => s) (lift_of_error h)

theorem declare_of_ok {c : Bool} (h : m.store.checkNew r name = .ok ()) :
    Run.declare r name v c m = .ok () { m with store := m.store.bind r ⟨name.key, v, c⟩ } :=
  replaceStore_of_ok (Store.declare_eq_ok_iff.2 ⟨h, rfl⟩)

theorem declare_of_error {c : Bool} {err : EvalError} (h : m.store.checkNew r name = .error err) :
    Run.declare r name v c m = .error (.error err) m :=
  replaceStore_of_error (Store.declare_eq_error_iff.2 h)

theorem declare_fails_iff {c : Bool} {err : EvalError} :
    (∃ m', Run.declare r name v c m = .error (.error err) m') ↔
      m.store.checkNew r name = .error err := by
  cases h : m.store.checkNew r name with
  | ok _ => simp [declare_of_ok h]
  | error err' => simp [declare_of_error h]

theorem assign_of_ok (h : m.store.assignable r name = .ok o) :
    Run.assign r name v m = .ok () { m with store := m.store.rebind o name.key v } :=
  replaceStore_of_ok (Store.assign_eq_ok_iff.2 ⟨o, h, rfl⟩)

theorem assign_of_error {err : EvalError} (h : m.store.assignable r name = .error err) :
    Run.assign r name v m = .error (.error err) m :=
  replaceStore_of_error (Store.assign_eq_error_iff.2 h)

theorem assign_fails_iff {err : EvalError} :
    (∃ m', Run.assign r name v m = .error (.error err) m') ↔
      m.store.assignable r name = .error err := by
  cases h : m.store.assignable r name with
  | ok o => simp [assign_of_ok h]
  | error err' => simp [assign_of_error h]

theorem lookup_of_ok (h : m.store.lookup r name = .ok v) : Run.lookup r name m = .ok v m :=
  lift_of_ok h

theorem lookup_of_error {err : EvalError} (h : m.store.lookup r name = .error err) :
    Run.lookup r name m = .error (.error err) m :=
  lift_of_error h

end Run

open Store in
/-- **What is read after a write**, from every scope of the forest and for every name.

    A name is read from the nearest scope that binds it, whatever its value is, and is unknown only
    if no scope around binds it.  An assignment fails if the name is unknown, or if the nearest
    scope that binds it holds it as a constant.  Else its value is read, for this name, by those
    for whom the same scope is the nearest one.  A declaration fails if the scope itself binds the
    name.  Else its value is read, for this name, by those who come to the scope without passing
    another binding of it.  All others read what they read before, and what fails changes
    nothing. -/
theorem Run.read_after_write {m : Machine} (h : m.store.WellFormed) {e : ScopeRef}
    (he : m.store.Has e) (name : Name) (v : Value) :
    let s := m.store
    let key := name.key
    (∀ r (k : Name),
      (∀ o b, s.Nearest k.key r o → b ∈ s.bindings o → b.name = k.key →
        Run.lookup r k m = .ok b.value m) ∧
      ((∀ o, s.Encloses o r → k.key ∉ s.names o) →
        Run.lookup r k m = .error (.error (.unknownVariable k.text)) m)) ∧
    ((∃ m', Run.assign e name v m = .error (.error (.unknownVariable name.text)) m') ↔
      ∀ o, s.Encloses o e → key ∉ s.names o) ∧
    ((∃ m', Run.assign e name v m = .error (.error (.constantViolation name.text)) m') ↔
      ∃ o, s.Nearest key e o ∧ ∃ b ∈ s.bindings o, b.name = key ∧ b.constant = true) ∧
    Ends (Run.assign e name v) m
      (fun _ m' => s.ReadsBack m'.store key v fun r => ∃ o, s.Nearest key e o ∧ s.Nearest key r o)
      (fun halt m' => m' = m ∧
        (halt = .error (.unknownVariable name.text) ∨
          halt = .error (.constantViolation name.text))) ∧
    ∀ constant,
      ((∃ m', Run.declare e name v constant m =
        .error (.error (.duplicateDeclaration name.text)) m') ↔ key ∈ s.names e) ∧
      Ends (Run.declare e name v constant) m
        (fun _ m' => m'.store.find? e key = some ⟨key, v, constant⟩ ∧
          s.ReadsBack m'.store key v fun r => s.Clear key r e)
        fun halt m' => m' = m ∧ halt = .error (.duplicateDeclaration name.text) := by
  intro s key
  refine ⟨fun r k => ⟨fun o b ho hb hk => ?_, fun hunbound => ?_⟩, ?_, ?_, ?_,
    fun constant => ⟨?_, ?_⟩⟩
  · exact lookup_of_ok (lookup_of_resolve? (h.resolve?_eq_some_iff.2 ho)
      (h.find?_eq_some_iff.2 ⟨hb, hk⟩))
  · exact lookup_of_error ((s.lookup_eq r k).2 (h.resolve?_eq_none_iff.2 hunbound))
  · exact assign_fails_iff.trans h.assignable_unknown_iff
  · exact assign_fails_iff.trans h.assignable_constant_iff
  · cases ho : s.assignable e name with
    | error err =>
      rw [ends_of_error (assign_of_error ho)]
      refine ⟨rfl, ?_⟩
      rcases assignable_eq_error_iff.1 ho with ⟨-, rfl⟩ | ⟨-, rfl⟩
      · exact Or.inl rfl
      · exact Or.inr rfl
    | ok o =>
      rw [ends_of_ok (assign_of_ok ho)]
      exact h.readsBack_rebind (h.resolve?_eq_some_iff.1 (assignable_eq_ok ho).1)
  · exact declare_fails_iff.trans (checkNew_eq_error_iff.trans (and_iff_left rfl))
  · cases hnew : s.checkNew e name with
    | error err =>
      rw [ends_of_error (declare_of_error hnew)]
      exact ⟨rfl, congrArg Halt.error (checkNew_eq_error_iff.1 hnew).2⟩
    | ok _ =>
      rw [ends_of_ok (declare_of_ok hnew)]
      have hn := checkNew_eq_ok_iff.1 hnew
      exact ⟨find?_bind_self he hn, h.readsBack_bind he hn⟩

/-- A global scope that binds `n` to the empty text, and two scopes in it.  The second of them
    binds `n` to false, and has a scope inside it. -/
def Store.branching : Store :=
  let s := (Store.start.bind .global ⟨"n", .string "", false⟩).addScope (some .global)
  let s := (s.2.addScope (some .global)).2.bind ⟨2⟩ ⟨"n", .boolean false, false⟩
  (s.addScope (some ⟨2⟩)).2

theorem Store.branching_wellFormed : Store.branching.WellFormed := by
  have hplain : ∀ {s : Store} {v : Value}, v.IsPlain → s.Knows v :=
    fun hv _ hp => absurd hp hv.not_refersTo
  have hchild : ∀ {s : Store} {p : ScopeRef}, s.WellFormed → s.Has p →
      (s.addScope (some p)).2.WellFormed :=
    fun h hp => h.addScope fun _ he => Option.some.inj he ▸ hp
  have hglobal := WellFormed.start.bind (b := ⟨"n", .string "", false⟩) (r := .global)
    (hplain trivial) (by decide)
  have hinner := hchild (hchild hglobal Nat.zero_lt_one) Nat.zero_lt_two
  have hshadow := hinner.bind (b := ⟨"n", .boolean false, false⟩) (r := ⟨2⟩) (hplain trivial)
    (by decide)
  exact hchild hshadow (Nat.lt_succ_self 2)

/-- An assignment from the first inner scope is read there and in the global scope, but not inside
    the second one, where the nearest binding is another. -/
theorem Run.read_after_write_branching :
    let m : Machine := { store := .branching, clock := .counting 0 }
    m.store.WellFormed ∧ m.store.Has ⟨1⟩ ∧
      Ends (Run.assign ⟨1⟩ "n" .null) m
        (fun _ m' => m'.store.lookup .global "n" = .ok .null ∧
          m'.store.lookup ⟨3⟩ "n" = .ok (.boolean false)) fun _ _ => False := by
  intro m
  have hwf : m.store.WellFormed := Store.branching_wellFormed
  have he : m.store.Has ⟨1⟩ := Nat.lt_add_of_pos_right (Nat.zero_lt_succ 2)
  have hown : m.store.Nearest "n" ⟨1⟩ .global := hwf.resolve?_eq_some_iff.1 rfl
  have hglobal : m.store.Nearest "n" .global .global := hwf.resolve?_eq_some_iff.1 rfl
  have hinner : m.store.Nearest "n" ⟨3⟩ ⟨2⟩ := hwf.resolve?_eq_some_iff.1 rfl
  obtain ⟨-, -, -, hread, -⟩ := Run.read_after_write hwf he "n" .null
  have hok : Run.assign ⟨1⟩ "n" .null m = .ok () _ := Run.assign_of_ok (o := .global) rfl
  rw [ends_of_ok hok] at hread ⊢
  refine ⟨hwf, he, (hread .global "n").1 ⟨rfl, .global, hown, hglobal⟩, ?_⟩
  refine ((hread ⟨3⟩ "n").2 ?_).trans rfl
  rintro ⟨-, o, ho, ho'⟩
  have hboth := (hwf.nearest_unique hown ho).symm.trans (hwf.nearest_unique hinner ho')
  cases hboth

end BoxScript
