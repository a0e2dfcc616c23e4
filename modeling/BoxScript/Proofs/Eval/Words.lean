/-
  The words of a program.

  A text brings about values of the language only.  Their functions have proper statements, and
  declare names of the text; so every name that is bound in a store is one of the text or of the
  language.

  * `Value.InWords W` and `Store.InWords W`: the values that a text with names of `W` brings about,
    and the stores that hold no others and bind no other names;
  * `Contract.wording` is the contract of this invariant about trees of proper shape, so evaluation
    has it and halts for an expected reason, in words of `W`.
-/
import BoxScript.Proofs.Eval.Evaluation

namespace BoxScript

/-- The values that a text with names of `W` brings about. -/
def Value.InWords (W : String → Prop) : Value → Prop
  | .null | .boolean _ | .number _ | .string _ | .array _ => True
  | .native f => W f.name
  | .function f => (∀ p ∈ f.params, p.IsWord W) ∧ ∀ t ∈ f.body, t.ProperIn W
  | .object _ | .datum _ => False

/-- No other names and values are bound in a scope, and no other values are held by an array. -/
structure Store.InWords (W : String → Prop) (s : Store) : Prop where
  names : ∀ {r b}, b ∈ s.bindings r → b.name.IsWord W
  bound : ∀ {r b}, b ∈ s.bindings r → b.value.InWords W
  held : ∀ {a v}, v ∈ s.items a → v.InWords W

theorem Value.IsPlain.inWords {W : String → Prop} {v : Value} (h : v.IsPlain) : v.InWords W := by
  cases v with
  | array | object | function | native | datum => cases h
  | null | boolean | number | string => trivial

/-- A new session has one scope, with the names of the prelude. -/
theorem Store.bindings_start (r : ScopeRef) : Store.start.bindings r = [] ∨
    Store.start.bindings r = Native.prelude.map fun p => ⟨p.1, p.2, true⟩ := by
  by_cases hr : Store.start.Has r
  · have h0 : r.index = 0 := Nat.lt_one_iff.1 hr
    rw [bindings, h0]
    exact Or.inr rfl
  · exact Or.inl (bindings_eq_nil hr)

theorem Store.mem_bindings_start {r : ScopeRef} {b : Binding} (h : b ∈ Store.start.bindings r) :
    ∃ p ∈ Native.prelude, b = ⟨p.1, p.2, true⟩ := by
  rcases bindings_start r with hb | hb <;> rw [hb] at h
  · cases h
  · obtain ⟨p, hp, rfl⟩ := List.mem_map.1 h
    exact ⟨p, hp, rfl⟩

namespace Store.InWords

variable {W : String → Prop} {s : Store}

theorem lookup (h : s.InWords W) {r : ScopeRef} {name : Name} {v : Value}
    (hv : s.lookup r name = .ok v) : v.InWords W := by
  obtain ⟨owner, b, -, hb, rfl⟩ := lookup_eq_ok hv
  exact h.bound (List.mem_of_find?_eq_some hb)

theorem bind (h : s.InWords W) {r : ScopeRef} {b : Binding} (hn : b.name.IsWord W)
    (hv : b.value.InWords W) : (s.bind r b).InWords W where
  names hm := by
    rcases mem_bindings_bind hm with hm | ⟨-, rfl⟩
    · exact h.names hm
    · exact hn
  bound hm := by
    rcases mem_bindings_bind hm with hm | ⟨-, rfl⟩
    · exact h.bound hm
    · exact hv
  held := h.held

theorem rebind (h : s.InWords W) {r : ScopeRef} {key : Key} {v : Value} (hv : v.InWords W) :
    (s.rebind r key v).InWords W where
  names {r' b} hm := by
    have hmem : b.name ∈ s.names r' := names_rebind ▸ List.mem_map_of_mem hm
    obtain ⟨b', hb', he⟩ := List.mem_map.1 hmem
    exact he ▸ h.names hb'
  bound hm := by
    rcases mem_bindings_rebind hm with hm | ⟨-, he⟩
    · exact h.bound hm
    · exact he ▸ hv
  held := h.held

theorem setItem (h : s.InWords W) {a : ArrayRef} {i : Nat} {v : Value} (hv : v.InWords W) :
    (s.setItem a i v).InWords W where
  names := h.names
  bound := h.bound
  held hm := by
    rcases mem_items_setItem hm with hm | ⟨-, rfl⟩
    · exact h.held hm
    · exact hv

theorem addArray (h : s.InWords W) {items : Array Value} (hv : ∀ v ∈ items, v.InWords W) :
    (s.addArray items).2.InWords W where
  names := h.names
  bound := h.bound
  held hm := by
    rcases mem_items_addArray hm with hm | ⟨-, hm⟩
    · exact h.held hm
    · exact hv _ hm

theorem addScope (h : s.InWords W) (p : Option ScopeRef) : (s.addScope p).2.InWords W where
  names hm := h.names (bindings_addScope ▸ hm)
  bound hm := h.bound (bindings_addScope ▸ hm)
  held := h.held

theorem start (hW : ∀ p ∈ Native.prelude, W p.1) : Store.start.InWords W where
  names hm := by
    obtain ⟨p, hp, rfl⟩ := mem_bindings_start hm
    exact ⟨p.1, rfl, hW p hp⟩
  bound hm := by
    obtain ⟨p, hp, rfl⟩ := mem_bindings_start hm
    have hvalue : p.2 = .null ∨ ∃ f : Native, p.2 = .native f ∧ f.name = p.1 := by
      revert p
      simp [Native.prelude]
    rcases hvalue with hv | ⟨f, hv, hf⟩
    · simp only [hv, Value.InWords]
    · simp only [hv, Value.InWords, hf, hW p hp]
  held {a v} hm := by simp [items, Store.start] at hm

end Store.InWords

/-- The contract that only values and names of a text arise, about trees of proper shape. -/
def Contract.wording (W : String → Prop) (hW : ∀ {w}, Vocabulary w → W w) : Contract where
  Loose := False
  Word := W
  Ok s := s.InWords W
  Holds _ v := v.InWords W
  Sees _ _ := True
  Change _ _ _ := True
  refl := trivial
  trans _ _ := trivial
  holds_mono _ h := h
  sees_mono _ h := h
  word h := hW (h.resolve_left id)
  bound ok hb := Or.inr (ok.names hb)
  plain h := h.inWords
  native h := h
  datum h := h.elim
  function := by simp [Value.InWords]
  lookup ok _ h := ok.lookup h
  item ok _ hv := ok.held hv
  declare hw ok _ hv _ := ⟨ok.bind (hw.resolve_left id).key hv, trivial⟩
  assign ok _ hv _ := ⟨ok.rebind hv, trivial⟩
  setItem ok _ hv := ⟨ok.setItem hv, trivial⟩
  addArray ok hv := ⟨ok.addArray hv, trivial, trivial⟩
  addObject h := h.elim
  enter ok _ := ⟨ok.addScope _, trivial, fun _ => trivial⟩

end BoxScript
