/-
  Two runs that are alike, with more or less tracing and under different limits.

  Of two runs the first one traces at least as much as the second and may be nested less deep.
  The second does as the first as long as the first one is not cut off: it may overflow, and a
  trace line that only the first one writes may name a parameter that is no text.

  * `Likeness` holds what two runs have in common: the settings, the level of tracing of the
    second one, and which trees and which errors correspond;
  * `Likeness.Machines`: machines that correspond.  The trace lines of the second are among those
    of the first;
  * `Likeness.Cuts`: what can cut off the first run;
  * `Likeness.Follows V x y`: the run `y` does as the run `x`, unless `x` is cut off;
  * `Likeness.Reads x y`: so it is, and neither of them changes anything.  This is what a trace line
    must do, as only one of the runs may need it (`Likeness.follows_trace`).
-/
import BoxScript.Eval.Evaluate
import BoxScript.Proofs.Store.Likeness

namespace BoxScript

theorem Run.display_of_some {depth : Nat} {v : Value} {m : Machine} {text : String}
    (h : m.store.display? depth v = some text) : Run.display depth v m = .ok text m := by
  have hstore : Run.store m = .ok m.store m := rfl
  rw [Run.display, bind_of_ok hstore, h]
  rfl

theorem Run.display_of_none {depth : Nat} {v : Value} {m : Machine}
    (h : m.store.display? depth v = none) : Run.display depth v m = .error .overflow m := by
  have hstore : Run.store m = .ok m.store m := rfl
  rw [Run.display, bind_of_ok hstore, h]
  rfl

theorem Run.spelling_of_some {depth : Nat} {t : Tree} {text : String}
    (h : t.spelling? depth = some text) : Run.spelling depth t = pure text := by
  rw [Run.spelling, h]

theorem Run.spelling_of_none {depth : Nat} {t : Tree} (h : t.spelling? depth = none) :
    Run.spelling depth t = throw .overflow := by
  rw [Run.spelling, h]

/-- A function was declared with a parameter that is no text, which its trace line cannot tell. -/
def Halt.Untraceable (halt : Halt) : Prop :=
  ∃ position type, halt = .fault (.parameterNoText position type)

/-- What two runs have in common.  The second traces lines up to `level`, which are not more than
    those that the first one traces. -/
structure Likeness where
  cfg : Settings
  level : Nat
  Trees : Tree → Tree → Prop
  Errors : EvalError → EvalError → Prop
  level_le : level ≤ cfg.traceLevel
  /-- Lines that only the first run traces do not go to the console. -/
  sink : level < cfg.traceLevel → cfg.traceSink = .log

namespace Likeness

variable {L : Likeness} {α β γ δ : Type} {V : α → β → Prop}

/-- The settings of the second run. -/
def cfg' (L : Likeness) : Settings := { L.cfg with traceLevel := L.level }

/-- Machines that correspond. -/
structure Machines (L : Likeness) (m m' : Machine) : Prop where
  store : m.store.Like L.Trees m'.store
  console : m'.console = m.console
  clock : m'.clock = m.clock
  lines : (m'.lines.getD #[]).toList.Sublist (m.lines.getD #[]).toList
  same : L.level = L.cfg.traceLevel → m'.lines = m.lines

/-- Reasons to halt that correspond. -/
inductive Halts (L : Likeness) : Halt → Halt → Prop
  | error {e e' : EvalError} (h : L.Errors e e') : Halts L (.error e) (.error e')
  | same (halt : Halt) : Halts L halt halt

/-- What cuts off the first run: the limit, or a trace line that the second does not need. -/
def Cuts (L : Likeness) (limit halt : Halt) : Prop :=
  halt = limit ∨ L.level < L.cfg.traceLevel ∧ halt.Untraceable

theorem cuts_limit (limit : Halt) : L.Cuts limit limit := Or.inl rfl

/-- If both runs trace the same lines, nothing but the limit cuts off the first. -/
theorem cuts_iff {limit halt : Halt} (h : L.level = L.cfg.traceLevel) :
    L.Cuts limit halt ↔ halt = limit :=
  or_iff_left fun hless => Nat.ne_of_lt hless.1 h

theorem cuts_parameter (limit : Halt) (h : L.level < L.cfg.traceLevel) (position : Nat)
    (type : String) : L.Cuts limit (.fault (.parameterNoText position type)) :=
  Or.inr ⟨h, position, type, rfl⟩

/-- From machines that correspond, `y` does as `x` does, unless `x` is cut off. -/
def Follows (L : Likeness) (V : α → β → Prop) (x : Run α) (y : Run β) : Prop :=
  BoxScript.Follows (L.Cuts .overflow) L.Halts L.Machines V x y

/-- Values that are alike. -/
abbrev Values (L : Likeness) : Value → Value → Prop := Value.Like L.Trees

/-! ## Checks and the store -/

theorem follows_fail (e : EvalError) : L.Follows V (Run.fail e) (Run.fail e) :=
  follows_throw (.same _)

theorem follows_fault (f : Fault) : L.Follows V (throw (.fault f)) (throw (.fault f)) :=
  follows_throw (.same _)

theorem follows_lift {x : Except EvalError α} {y : Except EvalError β}
    (h : Matches (fun e e' => L.Halts (.error e) (.error e')) V x y) :
    L.Follows V (Run.lift x) (Run.lift y) := by
  cases h with
  | ok h => exact follows_pure h
  | error h => exact follows_throw h

theorem follows_store : L.Follows (Store.Like L.Trees) Run.store Run.store :=
  fun _ _ hm => .ok hm.store hm

theorem follows_changeStore {f g : Store → Store}
    (h : ∀ s s', s.Like L.Trees s' → (f s).Like L.Trees (g s')) :
    L.Follows Eq (Run.changeStore f) (Run.changeStore g) :=
  fun _ _ hm => .ok rfl ⟨h _ _ hm.store, hm.console, hm.clock, hm.lines, hm.same⟩

theorem follows_newScope (parent : ScopeRef) :
    L.Follows Eq (Run.newScope parent) (Run.newScope parent) := by
  intro m m' hm
  obtain ⟨href, hs⟩ := hm.store.addScope (some parent)
  exact .ok href.symm ⟨hs, hm.console, hm.clock, hm.lines, hm.same⟩

theorem follows_newArray {items items' : List Value} (h : List.Forall₂ L.Values items items') :
    L.Follows L.Values (Run.newArray items) (Run.newArray items') := by
  intro m m' hm
  obtain ⟨href, hs⟩ := hm.store.addArray h
  refine .ok ?_ ⟨hs, hm.console, hm.clock, hm.lines, hm.same⟩
  show L.Values (.array (m.store.addArray items.toArray).1)
    (.array (m'.store.addArray items'.toArray).1)
  rw [href]
  exact .array _

theorem follows_newObject {es es' : List (Name × Value)}
    (h : List.Forall₂ (EntryLike L.Trees) es es') :
    L.Follows L.Values (Run.newObject es) (Run.newObject es') := by
  intro m m' hm
  obtain ⟨href, hs⟩ := hm.store.addObject h
  refine .ok ?_ ⟨hs, hm.console, hm.clock, hm.lines, hm.same⟩
  show L.Values (.object (m.store.addObject es).1) (.object (m'.store.addObject es').1)
  rw [href]
  exact .object _

theorem follows_replaceStore {f g : Store → Except EvalError Store}
    (h : ∀ s s', s.Like L.Trees s' →
      Matches (fun e e' => L.Halts (.error e) (.error e')) (Store.Like L.Trees) (f s) (g s')) :
    L.Follows Eq (Run.replaceStore f) (Run.replaceStore g) := by
  refine follows_store.bind fun s s' hs => ?_
  exact (follows_lift (h s s' hs)).bind fun _ _ hs' => follows_changeStore fun _ _ _ => hs'

theorem follows_declare (r : ScopeRef) (name : Name) (constant : Bool) {v v' : Value}
    (hv : L.Values v v') :
    L.Follows Eq (Run.declare r name v constant) (Run.declare r name v' constant) :=
  follows_replaceStore fun _ _ hs => hs.declare (fun _ => .same _) r name constant hv

theorem follows_assign (r : ScopeRef) (name : Name) {v v' : Value} (hv : L.Values v v') :
    L.Follows Eq (Run.assign r name v) (Run.assign r name v') :=
  follows_replaceStore fun _ _ hs => hs.assign (fun _ => .same _) r name hv

theorem follows_lookup (r : ScopeRef) (name : Name) :
    L.Follows L.Values (Run.lookup r name) (Run.lookup r name) :=
  follows_store.bind fun _ _ hs => follows_lift (hs.lookup (fun _ => .same _) r name)

theorem follows_setItem (r : ArrayRef) (i : Nat) {v v' : Value} (hv : L.Values v v') :
    L.Follows Eq (Run.setItem r i v) (Run.setItem r i v') :=
  follows_changeStore fun _ _ hs => hs.setItem r i hv

theorem follows_write (text : String) : L.Follows Eq (Run.write text) (Run.write text) :=
  fun _ _ hm => .ok rfl ⟨hm.store, congrArg (·.write text) hm.console, hm.clock, hm.lines, hm.same⟩

/-- The clock shows the same in both runs. -/
theorem follows_readClock : L.Follows Eq Run.readClock Run.readClock :=
  fun _ _ hm => .ok (congrArg Clock.now hm.clock).symm
    ⟨hm.store, hm.console, congrArg Clock.tick hm.clock, hm.lines, hm.same⟩

/-! ## Texts and trace lines -/

/-- The two computations give the same and change nothing, unless the first is cut off.  They may
    halt, for the same reason, if both runs trace the same lines. -/
def Reads (L : Likeness) (x y : Run α) : Prop :=
  ∀ m m', L.Machines m m' →
    BoxScript.Follows (L.Cuts .overflow) (fun e e' => e' = e ∧ L.level = L.cfg.traceLevel)
      (fun s s' => s = m ∧ s' = m') Eq x y

theorem Reads.follows {x y : Run α} (h : L.Reads x y) : L.Follows Eq x y := by
  intro m m' hm
  have hagrees := h m m' hm m m' ⟨rfl, rfl⟩
  revert hagrees
  generalize x m = result, y m' = result'
  rintro (hcut | ⟨hV, rfl, rfl⟩ | ⟨⟨rfl, -⟩, rfl, rfl⟩)
  · exact .cut hcut
  · exact .ok hV hm
  · exact .error (.same _) hm

theorem reads_pure (a : α) : L.Reads (pure a) (pure a) := fun _ _ _ => follows_pure rfl

theorem reads_overflow (y : Run α) : L.Reads (throw .overflow) y :=
  fun _ _ _ => follows_cut (cuts_limit _)

theorem Reads.bind {x y : Run α} {f g : α → Run γ} (h : L.Reads x y)
    (hf : ∀ a, L.Reads (f a) (g a)) : L.Reads (x >>= f) (y >>= g) := by
  intro m m' hm
  refine (h m m' hm).bind fun a b hab => ?_
  subst hab
  exact hf a m m' hm

theorem Reads.mapM {R : γ → δ → Prop} {l : List γ} {l' : List δ} {f : γ → Run α} {g : δ → Run α}
    (hl : List.Forall₂ R l l') (hf : ∀ c d, R c d → L.Reads (f c) (g d)) :
    L.Reads (l.mapM f) (l'.mapM g) := by
  induction hl with
  | nil => exact reads_pure []
  | cons h _ ih =>
    rw [List.mapM_cons, List.mapM_cons]
    exact (hf _ _ h).bind fun _ => ih.bind fun _ => reads_pure _

theorem reads_display {depth depth' : Nat} (hd : depth ≤ depth') {v v' : Value}
    (hv : L.Values v v') : L.Reads (Run.display depth v) (Run.display depth' v') := by
  rintro m m' hm _ _ ⟨rfl, rfl⟩
  cases htext : Store.display? _ depth v with
  | none =>
    rw [Run.display_of_none htext]
    exact .cut (cuts_limit _)
  | some text =>
    rw [Run.display_of_some htext, Run.display_of_some (hm.store.display? hd hv htext)]
    exact .ok rfl ⟨rfl, rfl⟩

theorem reads_spelling {depth depth' : Nat} (hd : depth ≤ depth') (t : Tree) :
    L.Reads (Run.spelling depth t) (Run.spelling depth' t) := by
  cases htext : t.spelling? depth with
  | none =>
    rw [Run.spelling_of_none htext]
    exact reads_overflow _
  | some text =>
    rw [Run.spelling_of_some htext, Run.spelling_of_some (Tree.spelling?_mono hd htext)]
    exact reads_pure text

/-- A parameter that is no text halts both runs, or cuts off the one that traces more. -/
theorem reads_paramTexts (position : Nat) (params : List Tree) :
    L.Reads (Eval.paramTexts position params) (Eval.paramTexts position params) := by
  induction params generalizing position with
  | nil => exact reads_pure []
  | cons p params ih =>
    unfold Eval.paramTexts
    split
    · exact reads_pure []
    · next h =>
      cases h
      exact (ih _).bind fun _ => reads_pure _
    · rcases Nat.eq_or_lt_of_le L.level_le with hsame | hless
      · exact fun _ _ _ => follows_throw ⟨rfl, hsame⟩
      · exact fun _ _ _ => follows_cut (cuts_parameter _ hless _ _)

theorem reads_argumentText {depth depth' : Nat} (hd : depth ≤ depth') {args args' : List Value}
    (h : List.Forall₂ L.Values args args') :
    L.Reads (Eval.argumentText depth args) (Eval.argumentText depth' args') :=
  (Reads.mapM h fun _ _ hv => reads_display hd hv).bind fun _ => reads_pure _

theorem follows_display {depth depth' : Nat} (hd : depth ≤ depth') {v v' : Value}
    (hv : L.Values v v') : L.Follows Eq (Run.display depth v) (Run.display depth' v') :=
  (reads_display hd hv).follows

theorem follows_spelling {depth depth' : Nat} (hd : depth ≤ depth') (t : Tree) :
    L.Follows Eq (Run.spelling depth t) (Run.spelling depth' t) :=
  (reads_spelling hd t).follows

/-- The same tree is the same name in both runs. -/
theorem follows_nameOf {depth depth' : Nat} (hd : depth ≤ depth') (t : Tree) :
    L.Follows Eq (Run.nameOf depth t) (Run.nameOf depth' t) := by
  unfold Run.nameOf
  split
  · exact follows_pure rfl
  · cases t.key? with
    | none => exact follows_fault _
    | some key =>
      refine (follows_spelling hd t).bind_same fun text => ?_
      exact follows_pure rfl

/-- A line that both runs trace. -/
theorem follows_emit (line : String) :
    L.Follows Eq (Run.emit L.cfg.traceSink line) (Run.emit L.cfg.traceSink line) := by
  cases L.cfg.traceSink with
  | console => exact follows_write _
  | log =>
    intro m m' hm
    refine .ok rfl ⟨hm.store, hm.console, hm.clock, ?_, fun h => ?_⟩
    · simpa using hm.lines
    · show some ((m'.lines.getD #[]).push line) = some ((m.lines.getD #[]).push line)
      rw [hm.same h]

/-- A trace line does as one with the same text, whether the second run traces it or not. -/
theorem follows_trace (level : Nat) {line line' : Run String} (h : L.Reads line line') :
    L.Follows Eq (Run.trace L.cfg level line) (Run.trace L.cfg' level line') := by
  by_cases hboth : level ≤ L.level
  -- both runs trace the line
  · have hfirst : level ≤ L.cfg.traceLevel := Nat.le_trans hboth L.level_le
    have hsecond : level ≤ L.cfg'.traceLevel := hboth
    unfold Run.trace
    rw [if_pos hfirst, if_pos hsecond]
    refine h.follows.bind_same fun text => ?_
    exact follows_emit text
  by_cases hfirst : level ≤ L.cfg.traceLevel
  -- only the first run does, and has changed nothing but its log when it is done
  · have hsecond : ¬level ≤ L.cfg'.traceLevel := hboth
    have hless : L.level < L.cfg.traceLevel := by omega
    unfold Run.trace
    rw [if_pos hfirst, if_neg hsecond, L.sink hless]
    intro m m' hm
    have hagrees := h m m' hm m m' ⟨rfl, rfl⟩
    cases hline : line m with
    | ok text m₁ =>
      rw [hline] at hagrees
      rw [bind_of_ok hline]
      generalize line' m' = result at hagrees
      cases hagrees with
      | ok _ hR =>
        obtain ⟨rfl, -⟩ := hR
        refine .ok rfl ⟨hm.store, hm.console, hm.clock, ?_, fun h => absurd h (Nat.ne_of_lt hless)⟩
        simpa using hm.lines.trans (List.sublist_append_left _ _)
    | error halt m₁ =>
      rw [hline] at hagrees
      rw [bind_of_error hline]
      generalize line' m' = result at hagrees
      cases hagrees with
      | cut hcut => exact .cut hcut
      | error hE _ => exact absurd hE.2 (Nat.ne_of_lt hless)
  · have hsecond : ¬level ≤ L.cfg'.traceLevel := hboth
    unfold Run.trace
    rw [if_neg hfirst, if_neg hsecond]
    exact follows_pure rfl

end Likeness

end BoxScript
