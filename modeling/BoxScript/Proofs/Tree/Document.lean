/-
  Trees and their documents.

  Reading looks at an object's class and at the entries of its fields, and at nothing else; what
  it reads is written with exactly these entries.

  * `Json.Reaches`: what reading comes to, in how many steps;
  * `Tree.ofJson_object`: what an object is read as;
  * `Tree.ofJson_toJson?`: what is written is read again;
  * `Tree.ofJson_isOk_iff`: what can be read;
  * `Tree.reordered_iff`: which documents are written as they were read;
  * `Tree.document_faithful`: **documents are faithful to trees**, all this together.
-/
import BoxScript.Proofs.Lists
import BoxScript.Tree.Document

namespace BoxScript

/-! ## Documents -/

namespace Json

/-- Reading comes from one document to another in so many steps: to the elements of lists, and to
    the fields of objects of a known class. -/
inductive Reaches : Json → Nat → Json → Prop
  | refl (o : Json) : Reaches o 0 o
  | element {items : List Json} {item o : Json} {k : Nat} (hi : item ∈ items)
      (h : Reaches item k o) : Reaches (.list items) (k + 1) o
  | field {entries : List (String × Json)} {shape : Shape} {field : Field} {doc o : Json} {k : Nat}
      (ht : entries.lookup "type" = some (.text shape.name)) (hf : field ∈ shape.fields)
      (hl : entries.lookup field.name = some doc) (h : Reaches doc k o) :
      Reaches (.object entries) (k + 1) o

/-- If the document is an object, it names its class and has all fields without a default. -/
def Readable (o : Json) : Prop :=
  ∀ entries, o = .object entries → ∃ shape : Shape,
    entries.lookup "type" = some (.text shape.name) ∧
      ∀ field ∈ shape.fields, field.default? = none → field.name ∈ entries.map Prod.fst

/-- If the document is an object, it names its class, and its keys are `type` and those of all
    fields, in some order. -/
def Complete (o : Json) : Prop :=
  ∀ entries, o = .object entries → ∃ shape : Shape,
    entries.lookup "type" = some (.text shape.name) ∧
      (entries.map Prod.fst).Perm ("type" :: shape.fields.map Field.name)

/-- The documents are equal up to the order of keys: objects have the same keys, and each key the
    same value. -/
inductive Reordered : Json → Json → Prop
  | refl (o : Json) : Reordered o o
  | list {items items' : List Json} (h : List.Forall₂ Reordered items items') :
      Reordered (.list items) (.list items')
  | object {entries entries' : List (String × Json)}
      (hk : (entries.map Prod.fst).Perm (entries'.map Prod.fst))
      (h : ∀ key, Option.Rel Reordered (entries.lookup key) (entries'.lookup key)) :
      Reordered (.object entries) (.object entries')

/-- The documents differ at most in unknown keys: objects are of one class, if of any, and agree on
    its fields. -/
inductive AgreesWhereKnown : Json → Json → Prop
  | refl (o : Json) : AgreesWhereKnown o o
  | list {items items' : List Json} (h : List.Forall₂ AgreesWhereKnown items items') :
      AgreesWhereKnown (.list items) (.list items')
  | object {entries entries' : List (String × Json)}
      (ht : entries.lookup "type" = entries'.lookup "type")
      (h : ∀ (shape : Shape) (field : Field), entries.lookup "type" = some (.text shape.name) →
        field ∈ shape.fields → Option.Rel AgreesWhereKnown (entries.lookup field.name)
          (entries'.lookup field.name)) :
      AgreesWhereKnown (.object entries) (.object entries')

theorem reordered_list_iff {items items' : List Json} :
    Reordered (.list items) (.list items') ↔ List.Forall₂ Reordered items items' := by
  constructor
  · rintro (_ | h)
    · exact List.forall₂_same.2 fun o _ => .refl o
    · exact h
  · exact .list

theorem reordered_object_iff {entries entries' : List (String × Json)} :
    Reordered (.object entries) (.object entries') ↔
      (entries.map Prod.fst).Perm (entries'.map Prod.fst) ∧
        ∀ key, Option.Rel Reordered (entries.lookup key) (entries'.lookup key) := by
  constructor
  · rintro (_ | _ | ⟨hk, h⟩)
    · refine ⟨.refl _, fun key => ?_⟩
      cases entries.lookup key with
      | none => exact .none
      | some o => exact .some (.refl o)
    · exact ⟨hk, h⟩
  · rintro ⟨hk, h⟩
    exact .object hk h

end Json

/-! ## Classes -/

namespace Shape

theorem ofName?_name (shape : Shape) : ofName? shape.name = some shape := by
  cases shape <;> decide

theorem ofName?_eq_some_iff {name : String} {shape : Shape} :
    ofName? name = some shape ↔ name = shape.name := by
  constructor
  · intro h
    have hname := List.find?_some h
    exact (beq_iff_eq.1 hname).symm
  · rintro rfl
    exact ofName?_name shape

theorem eq_of_name {shape shape' : Shape} (h : shape.name = shape'.name) : shape = shape' :=
  Option.some.inj ((ofName?_name shape).symm.trans (ofName?_eq_some_iff.2 h))

/-- No two entries of a node have the same key. -/
theorem keys_nodup (shape : Shape) : ("type" :: shape.fields.map Field.name).Nodup := by
  cases shape <;> decide

/-- A node has a content for each field. -/
theorem length_of_parts? {shape : Shape} {contents : List Tree} {t : Tree}
    (h : t.parts? = some (shape, contents)) : contents.length = shape.fields.length := by
  cases t <;> simp only [Tree.parts?, Option.some.injEq, Prod.mk.injEq, reduceCtorEq] at h <;>
    (obtain ⟨rfl, rfl⟩ := h; rfl)

/-- There is a node for all contents, if there are as many as there are fields. -/
theorem exists_parts? {shape : Shape} {contents : List Tree}
    (h : contents.length = shape.fields.length) :
    ∃ t : Tree, t.parts? = some (shape, contents) := by
  simp only [← build?_eq_some_iff]
  cases shape with
  | program | block | returnStatement | identifier | numberLiteral | stringLiteral | booleanLiteral
  | arrayLiteral | objectExpression =>
    obtain ⟨a, rfl⟩ := List.length_eq_one_iff.1 h
    exact ⟨_, rfl⟩
  | whileStatement | arrayAccess | property | unaryExpression | assignmentExpression
  | callExpression =>
    obtain ⟨a, b, rfl⟩ := List.length_eq_two.1 h
    exact ⟨_, rfl⟩
  | functionDeclaration | ifStatement | binaryExpression | comparisonExpression
  | logicalExpression | conditionalExpression =>
    obtain ⟨a, b, c, rfl⟩ := List.length_eq_three.1 h
    exact ⟨_, rfl⟩
  | variableDeclaration | forStatement =>
    obtain ⟨a, rest, rfl⟩ := List.exists_cons_of_length_eq_add_one h
    obtain ⟨b, c, d, rfl⟩ := List.length_eq_three.1 (Nat.succ.inj h)
    exact ⟨_, rfl⟩

end Shape

/-! ## Objects -/

namespace Tree

variable {depth limit : Nat} {entries : List (String × Json)} {shape : Shape} {t : Tree}

theorem shapeOf_eq_ok_iff :
    shapeOf entries = .ok shape ↔ entries.lookup "type" = some (.text shape.name) := by
  unfold shapeOf
  cases entries.lookup "type" with
  | none => simp
  | some doc =>
    cases doc with
    | text name =>
      have hname : Shape.ofName? name = some shape ↔ name = shape.name :=
        Shape.ofName?_eq_some_iff
      cases h : Shape.ofName? name with
      | none => simpa [h] using hname
      | some found => simpa [h] using hname
    | _ => simp

/-- What a field holds: what its entry is read as, or else its default. -/
inductive FieldOf (read : Json → Tree → Prop) (entries : List (String × Json)) (field : Field)
    (content : Tree) : Prop
  | given {doc : Json} (h : entries.lookup field.name = some doc) (hr : read doc content)
  | missing (h : entries.lookup field.name = none) (hd : field.default? = some content)

theorem fieldContent_eq_ok_iff {read : Json → Except DocumentError Tree} {field : Field} :
    fieldContent read entries field = .ok (some t) ↔
      FieldOf (fun doc t => read doc = .ok t) entries field t := by
  unfold fieldContent
  cases h : entries.lookup field.name with
  | none =>
    constructor
    · intro hd
      exact .missing h (Except.ok.inj hd)
    · rintro (⟨h', -⟩ | ⟨-, hd⟩)
      · cases h.symm.trans h'
      · exact congrArg _ hd
  | some doc =>
    constructor
    · intro hr
      obtain ⟨v, hv, ⟨⟩⟩ := map_eq_ok_iff.1 hr
      exact .given h hv
    · rintro (⟨h', hr⟩ | ⟨h', -⟩)
      · cases h.symm.trans h'
        exact map_eq_ok_iff.2 ⟨t, hr, rfl⟩
      · cases h.symm.trans h'

/-- A node is assembled if each field has a content. -/
theorem assemble_eq_ok_iff {contents : List (Option Tree)}
    (hl : contents.length = shape.fields.length) : assemble shape contents = .ok t ↔
      ∃ values, contents = values.map some ∧ t.parts? = some (shape, values) := by
  have hbuild : assemble shape contents = .ok t ↔
      shape.build? (contents.filterMap id) = some t := by
    unfold assemble
    cases shape.build? (contents.filterMap id) <;> simp
  rw [hbuild, Shape.build?_eq_some_iff]
  constructor
  · intro hparts
    refine ⟨contents.filterMap id, ?_, hparts⟩
    exact (map_some_filterMap_id ((Shape.length_of_parts? hparts).trans hl.symm)).symm
  · rintro ⟨values, rfl, hparts⟩
    simpa using hparts

/-- **What an object is read as.** -/
theorem ofJson_object : ofJson (depth + 1) (.object entries) = .ok t ↔
    ∃ shape values, entries.lookup "type" = some (.text shape.name) ∧
      t.parts? = some (shape, values) ∧
      List.Forall₂ (FieldOf (fun doc t => ofJson depth doc = .ok t) entries) shape.fields
        values := by
  simp only [ofJson, bind_eq_ok_iff, shapeOf_eq_ok_iff]
  constructor
  · rintro ⟨shape, hshape, contents, hcontents, ht⟩
    have hread := mapM_eq_ok_iff.1 hcontents
    obtain ⟨values, rfl, hparts⟩ := (assemble_eq_ok_iff hread.length_eq.symm).1 ht
    refine ⟨shape, values, hshape, hparts, ?_⟩
    rw [List.forall₂_map_right_iff] at hread
    exact hread.imp fun _ _ => fieldContent_eq_ok_iff.1
  · rintro ⟨shape, values, hshape, hparts, hread⟩
    have hcontents : List.Forall₂ (fun field content =>
        fieldContent (ofJson depth) entries field = .ok content) shape.fields (values.map some) :=
      List.forall₂_map_right_iff.2 (hread.imp fun _ _ => fieldContent_eq_ok_iff.2)
    refine ⟨shape, hshape, _, mapM_eq_ok_iff.2 hcontents, ?_⟩
    exact (assemble_eq_ok_iff hcontents.length_eq.symm).2 ⟨values, rfl, hparts⟩

theorem ofJson_list {items : List Json} : ofJson (depth + 1) (.list items) = .ok t ↔
    ∃ values, t = .list values ∧
      List.Forall₂ (fun doc t => ofJson depth doc = .ok t) items values := by
  simp only [ofJson, map_eq_ok_iff, mapM_eq_ok_iff, eq_comm (b := t), and_comm]

/-- The document of a node. -/
def documentOf (shape : Shape) (values : List Json) : Json :=
  .object (("type", .text shape.name) :: (shape.fields.map Field.name).zip values)

theorem toJson?_node {values : List Tree} (h : t.parts? = some (shape, values)) {n : Json} :
    t.toJson? (depth + 1) = some n ↔ ∃ docs,
      List.Forall₂ (fun t doc => t.toJson? depth = some doc) values docs ∧
        n = documentOf shape docs := by
  have hwrite : t.toJson? (depth + 1) =
      (values.mapM (toJson? depth)).bind fun docs => some (documentOf shape docs) := by
    cases t with
    | null | bool | int | num | text | list => cases h
    | _ =>
      cases h
      rfl
  simp only [hwrite, Option.bind_eq_some_iff, mapM_eq_some_iff, Option.some.injEq, eq_comm (b := n)]

theorem toJson?_list {values : List Tree} {n : Json} :
    (list values).toJson? (depth + 1) = some n ↔ ∃ docs,
      List.Forall₂ (fun t doc => t.toJson? depth = some doc) values docs ∧ n = .list docs := by
  simp only [toJson?, Option.map_eq_some_iff, mapM_eq_some_iff, eq_comm (b := n)]

/-! ## Reading what is written -/

/-- The entries of a written node. -/
theorem lookup_documentOf {docs : List Json} (hl : shape.fields.length = docs.length) :
    List.Forall₂ (fun field doc => List.lookup (Field.name field)
      (("type", Json.text shape.name) :: (shape.fields.map Field.name).zip docs) = some doc)
      shape.fields docs := by
  obtain ⟨htype, hnames⟩ := List.nodup_cons.1 shape.keys_nodup
  have hzip := lookup_zip hnames ((List.length_map _).trans hl)
  rw [List.forall₂_map_left_iff] at hzip
  refine ((List.forall₂_and_left _ _).2 ⟨fun _ h => h, hzip⟩).imp ?_
  rintro field doc ⟨hfield, hlookup⟩
  have hne : (field.name == "type") = false :=
    beq_false_of_ne fun h => htype (h ▸ List.mem_map_of_mem hfield)
  rw [List.lookup_cons, hne]
  exact hlookup

/-- **What is written is read again.** -/
theorem ofJson_toJson? {n : Json} (h : t.toJson? depth = some n) : ofJson depth n = .ok t := by
  induction depth generalizing t n with
  | zero => cases h
  | succ depth ih =>
    cases hparts : t.parts? with
    | some parts =>
      obtain ⟨shape, values⟩ := parts
      obtain ⟨docs, hdocs, rfl⟩ := (toJson?_node hparts).1 h
      refine ofJson_object.2 ⟨shape, values, rfl, hparts, ?_⟩
      have hlength := (Shape.length_of_parts? hparts).symm.trans hdocs.length_eq
      refine (forall₂_comp (lookup_documentOf hlength) hdocs.flip).imp ?_
      rintro field value ⟨doc, hlookup, hdoc⟩
      exact .given hlookup (ih hdoc)
    | none =>
      cases t with
      | null | bool | int | num | text =>
        cases h
        rfl
      | list values =>
        obtain ⟨docs, hdocs, rfl⟩ := toJson?_list.1 h
        exact ofJson_list.2 ⟨values, rfl, hdocs.flip.imp fun _ _ hdoc => ih hdoc⟩
      | _ => cases hparts

/-! ## The limit on nesting -/

/-- A larger limit changes nothing that was read. -/
theorem ofJson_mono {o : Json} (h : ofJson depth o = .ok t) (hd : depth ≤ limit) :
    ofJson limit o = .ok t := by
  induction depth generalizing limit o t with
  | zero => cases h
  | succ depth ih =>
    obtain ⟨limit, rfl⟩ := Nat.exists_eq_add_one_of_ne_zero (Nat.ne_zero_of_lt hd)
    have hd := Nat.le_of_succ_le_succ hd
    cases o with
    | null | bool | int | num | text => exact h
    | list items =>
      obtain ⟨values, rfl, hvalues⟩ := ofJson_list.1 h
      exact ofJson_list.2 ⟨values, rfl, hvalues.imp fun _ _ hr => ih hr hd⟩
    | object entries =>
      obtain ⟨shape, values, htype, hparts, hvalues⟩ := ofJson_object.1 h
      refine ofJson_object.2 ⟨shape, values, htype, hparts, hvalues.imp ?_⟩
      rintro field value (⟨hlookup, hr⟩ | ⟨hlookup, hdefault⟩)
      · exact .given hlookup (ih hr hd)
      · exact .missing hlookup hdefault

/-- A larger limit changes nothing that was written. -/
theorem toJson?_mono {n : Json} (h : t.toJson? depth = some n) (hd : depth ≤ limit) :
    t.toJson? limit = some n := by
  induction depth generalizing limit t n with
  | zero => cases h
  | succ depth ih =>
    obtain ⟨limit, rfl⟩ := Nat.exists_eq_add_one_of_ne_zero (Nat.ne_zero_of_lt hd)
    have hd := Nat.le_of_succ_le_succ hd
    cases hparts : t.parts? with
    | some parts =>
      obtain ⟨docs, hdocs, rfl⟩ := (toJson?_node hparts).1 h
      exact (toJson?_node hparts).2 ⟨docs, hdocs.imp fun _ _ hdoc => ih hdoc hd, rfl⟩
    | none =>
      cases t with
      | null | bool | int | num | text => exact h
      | list values =>
        obtain ⟨docs, hdocs, rfl⟩ := toJson?_list.1 h
        exact toJson?_list.2 ⟨docs, hdocs.imp fun _ _ hdoc => ih hdoc hd, rfl⟩
      | _ => cases hparts

/-- Every tree can be written. -/
theorem exists_toJson? (h : sizeOf t ≤ depth) : ∃ n, t.toJson? depth = some n := by
  induction depth generalizing t with
  | zero => cases t <;> simp at h
  | succ depth ih =>
    cases hparts : t.parts? with
    | some parts =>
      obtain ⟨docs, hdocs⟩ := exists_forall₂_iff.2 fun value hvalue =>
        ih (t := value) (by have := sizeOf_lt_of_parts? hparts value hvalue; omega)
      exact ⟨_, (toJson?_node hparts).2 ⟨docs, hdocs, rfl⟩⟩
    | none =>
      cases t with
      | null | bool | int | num | text => exact ⟨_, rfl⟩
      | list values =>
        have hsmall : ∀ value ∈ values, ∃ n, value.toJson? depth = some n := fun value hvalue => by
          have := List.sizeOf_lt_of_mem hvalue
          simp only [list.sizeOf_spec] at h
          exact ih (by omega)
        obtain ⟨docs, hdocs⟩ := exists_forall₂_iff.2 hsmall
        exact ⟨_, toJson?_list.2 ⟨docs, hdocs, rfl⟩⟩
      | _ => cases hparts

/-- Defaults are no deeper than scalars. -/
theorem exists_toJson?_default {field : Field} (hf : field ∈ shape.fields)
    (hd : field.default? = some t) (depth : Nat) : ∃ n, t.toJson? (depth + 1) = some n := by
  have htable : ∀ field ∈ shape.fields, ∀ t, field.default? = some t →
      t = .null ∨ t = .bool false ∨ t = .list [] := by
    cases shape <;> simp [Shape.fields]
  rcases htable field hf t hd with rfl | rfl | rfl
  · exact ⟨_, rfl⟩
  · exact ⟨_, rfl⟩
  · exact ⟨_, toJson?_list.2 ⟨[], .nil, rfl⟩⟩

/-- What was read can be written; a default may be one level deeper than the document. -/
theorem exists_toJson?_of_ofJson {o : Json} (h : ofJson depth o = .ok t) :
    ∃ n, t.toJson? (depth + 1) = some n := by
  induction depth generalizing o t with
  | zero => cases h
  | succ depth ih =>
    cases o with
    | null | bool | int | num | text =>
      cases h
      exact ⟨_, rfl⟩
    | list items =>
      obtain ⟨values, rfl, hvalues⟩ := ofJson_list.1 h
      obtain ⟨docs, hdocs⟩ := exists_forall₂_iff.2 fun value hvalue => by
        obtain ⟨doc, -, hr⟩ := forall₂_mem hvalues.flip hvalue
        exact ih hr
      exact ⟨_, toJson?_list.2 ⟨docs, hdocs, rfl⟩⟩
    | object entries =>
      obtain ⟨shape, values, -, hparts, hvalues⟩ := ofJson_object.1 h
      obtain ⟨docs, hdocs⟩ := exists_forall₂_iff.2 fun value hvalue => by
        obtain ⟨field, hfield, hr⟩ := forall₂_mem hvalues.flip hvalue
        rcases hr with ⟨-, hr⟩ | ⟨-, hdefault⟩
        · exact ih hr
        · exact exists_toJson?_default hfield hdefault depth
      exact ⟨_, (toJson?_node hparts).2 ⟨docs, hdocs, rfl⟩⟩

/-! ## What can be read -/

theorem ofJson_object_isOk : (∃ t, ofJson (depth + 1) (.object entries) = .ok t) ↔
    ∃ shape : Shape, entries.lookup "type" = some (.text shape.name) ∧
      ∀ field ∈ shape.fields, ∃ t,
        FieldOf (fun doc t => ofJson depth doc = .ok t) entries field t := by
  simp only [ofJson_object, ← exists_forall₂_iff]
  constructor
  · rintro ⟨t, shape, values, htype, -, hvalues⟩
    exact ⟨shape, htype, values, hvalues⟩
  · rintro ⟨shape, htype, values, hvalues⟩
    obtain ⟨t, hparts⟩ := Shape.exists_parts? hvalues.length_eq.symm
    exact ⟨t, shape, values, htype, hparts, hvalues⟩

/-- The class of an object is the one that it names. -/
theorem shape_unique {shape' : Shape} (h : entries.lookup "type" = some (.text shape.name))
    (h' : entries.lookup "type" = some (.text shape'.name)) : shape = shape' :=
  Shape.eq_of_name (Json.text.inj (Option.some.inj (h.symm.trans h')))

/-- **What can be read**: all that reading comes to is readable, and within the limit. -/
theorem ofJson_isOk_iff (depth : Nat) (o : Json) : (∃ t, ofJson depth o = .ok t) ↔
    ∀ k x, o.Reaches k x → k < depth ∧ x.Readable := by
  induction depth generalizing o with
  | zero =>
    constructor
    · rintro ⟨t, ⟨⟩⟩
    · intro h
      exact absurd (h 0 o (.refl o)).1 (Nat.lt_irrefl 0)
  | succ depth ih =>
    cases o with
    | null | bool | int | num | text =>
      constructor
      · rintro - k x ⟨⟩
        exact ⟨Nat.succ_pos _, fun _ h => by cases h⟩
      · exact fun _ => ⟨_, rfl⟩
    | list items =>
      have hitems : (∃ t, ofJson (depth + 1) (.list items) = .ok t) ↔
          ∀ item ∈ items, ∃ t, ofJson depth item = .ok t := by
        simp [ofJson_list, ← exists_forall₂_iff]
      simp only [hitems, ih]
      constructor
      · rintro h k x (_ | ⟨hi, hr⟩)
        · exact ⟨Nat.succ_pos _, fun _ h => by cases h⟩
        · exact ⟨Nat.succ_lt_succ (h _ hi _ _ hr).1, (h _ hi _ _ hr).2⟩
      · intro h item hi k x hr
        obtain ⟨hk, hx⟩ := h _ _ (.element hi hr)
        exact ⟨Nat.lt_of_succ_lt_succ hk, hx⟩
    | object entries =>
      rw [ofJson_object_isOk]
      constructor
      · rintro ⟨shape, htype, hfields⟩ k x
          (_ | _ | @⟨_, shape', field, doc, _, k, htype', hf, hl, hr⟩)
        · refine ⟨Nat.succ_pos _, ?_⟩
          rintro _ ⟨⟩
          refine ⟨shape, htype, fun field hf hrequired => ?_⟩
          obtain ⟨t, ⟨hl, -⟩ | ⟨-, hd⟩⟩ := hfields field hf
          · exact lookup_isSome_iff.1 (by rw [hl]; rfl)
          · cases hrequired.symm.trans hd
        · obtain rfl := shape_unique htype htype'
          obtain ⟨t, ⟨hl', hread⟩ | ⟨hl', -⟩⟩ := hfields field hf
          · cases hl.symm.trans hl'
            obtain ⟨hk, hx⟩ := (ih doc).1 ⟨t, hread⟩ k x hr
            exact ⟨Nat.succ_lt_succ hk, hx⟩
          · cases hl.symm.trans hl'
      · intro h
        obtain ⟨shape, htype, hrequired⟩ := (h 0 _ (.refl _)).2 entries rfl
        refine ⟨shape, htype, fun field hf => ?_⟩
        cases hl : entries.lookup field.name with
        | some doc =>
          obtain ⟨t, ht⟩ := (ih doc).2 fun k x hr => by
            obtain ⟨hk, hx⟩ := h _ _ (.field htype hf hl hr)
            exact ⟨Nat.lt_of_succ_lt_succ hk, hx⟩
          exact ⟨t, .given hl ht⟩
        | none =>
          cases hd : field.default? with
          | some t => exact ⟨t, .missing hl hd⟩
          | none =>
            have hmem := lookup_isSome_iff.2 (hrequired field hf hd)
            rw [hl] at hmem
            cases hmem

/-- **Unknown keys do not matter.** -/
theorem ofJson_congr {o o' : Json} (h : o.AgreesWhereKnown o') (depth : Nat) :
    ofJson depth o = ofJson depth o' := by
  induction depth generalizing o o' with
  | zero => rfl
  | succ depth ih =>
    cases h with
    | refl => rfl
    | list h =>
      have hitems := mapM_congr (h.imp fun _ _ h => ih h)
      simp only [ofJson, hitems]
    | @object entries entries' ht h =>
      have hshape : shapeOf entries = shapeOf entries' := by simp only [shapeOf, ht]
      simp only [ofJson, ← hshape]
      cases hs : shapeOf entries with
      | error e => rfl
      | ok shape =>
        have hfields : shape.fields.mapM (fieldContent (ofJson depth) entries) =
            shape.fields.mapM (fieldContent (ofJson depth) entries') := by
          refine mapM_congr (List.forall₂_same.2 fun field hf => ?_)
          have hrel := h shape field (shapeOf_eq_ok_iff.1 hs) hf
          unfold fieldContent
          generalize entries.lookup field.name = doc, entries'.lookup field.name = doc' at hrel
          cases hrel with
          | none => rfl
          | some hdoc => simp only [ih hdoc]
        show (do let contents ← shape.fields.mapM _; assemble shape contents) = _
        rw [hfields]
        rfl

/-! ## What is written as it was read -/

theorem map_fst_documentOf {docs : List Json} (hl : shape.fields.length = docs.length) :
    (("type", Json.text shape.name) :: (shape.fields.map Field.name).zip docs).map Prod.fst =
      "type" :: shape.fields.map Field.name := by
  rw [List.map_cons, List.map_fst_zip (by simp [hl])]

/-- A node whose fields are written as they were read, or are not. -/
theorem reordered_node {docs : List Json} {P : Json → Prop}
    (htype : entries.lookup "type" = some (.text shape.name))
    (hl : shape.fields.length = docs.length)
    (hfields : List.Forall₂ (fun field doc => ∀ o, entries.lookup field.name = some o →
      (doc.Reordered o ↔ P o)) shape.fields docs) :
    (documentOf shape docs).Reordered (.object entries) ↔
      (entries.map Prod.fst).Perm ("type" :: shape.fields.map Field.name) ∧
        ∀ field ∈ shape.fields, ∀ o, entries.lookup field.name = some o → P o := by
  have hboth : List.Forall₂ (fun field doc => List.lookup (Field.name field)
      (("type", Json.text shape.name) :: (shape.fields.map Field.name).zip docs) = some doc ∧
        ∀ o, entries.lookup field.name = some o → (doc.Reordered o ↔ P o)) shape.fields docs :=
    List.Forall₂.mp (fun _ _ h h' => ⟨h, h'⟩) (lookup_documentOf hl) hfields
  have hkeys := map_fst_documentOf hl
  rw [documentOf, Json.reordered_object_iff, hkeys, List.perm_comm]
  refine and_congr_right fun hperm => ?_
  constructor
  · intro hsame field hf o ho
    obtain ⟨doc, -, hdoc, hiff⟩ := forall₂_mem hboth hf
    have hrel := hsame field.name
    rw [hdoc, ho] at hrel
    cases hrel with
    | some h => exact (hiff o ho).1 h
  · intro hP key
    by_cases hkey : key ∈ "type" :: shape.fields.map Field.name
    · obtain ⟨o, ho⟩ := Option.isSome_iff_exists.1 (lookup_isSome_iff.2 (hperm.mem_iff.2 hkey))
      rcases List.mem_cons.1 hkey with rfl | hname
      · rw [htype]
        exact .some (.refl _)
      · obtain ⟨field, hf, rfl⟩ := List.mem_map.1 hname
        obtain ⟨doc, -, hdoc, hiff⟩ := forall₂_mem hboth hf
        rw [hdoc, ho]
        exact .some ((hiff o ho).2 (hP field hf o ho))
    · have hnone := mt lookup_isSome_iff.1 (mt hperm.mem_iff.1 hkey)
      have hnone' := mt lookup_isSome_iff.1 (hkeys ▸ hkey)
      rw [Option.not_isSome_iff_eq_none.1 hnone, Option.not_isSome_iff_eq_none.1 hnone']
      exact .none

/-- **Which documents are written as they were read**, up to the order of keys: those in which
    every object that reading comes to has all fields of its class and nothing else. -/
theorem reordered_iff {o n : Json} (h : ofJson depth o = .ok t) (hn : t.toJson? limit = some n) :
    n.Reordered o ↔ ∀ k x, o.Reaches k x → x.Complete := by
  induction depth generalizing limit o t n with
  | zero => cases h
  | succ depth ih =>
    cases limit with
    | zero => cases hn
    | succ limit =>
    cases o with
    | null | bool | int | num | text =>
      cases h
      cases hn
      constructor
      · rintro - k x ⟨⟩ _ ⟨⟩
      · exact fun _ => .refl _
    | list items =>
      obtain ⟨values, rfl, hvalues⟩ := ofJson_list.1 h
      obtain ⟨docs, hdocs, rfl⟩ := toJson?_list.1 hn
      have hitems : List.Forall₂ (fun item doc => doc.Reordered item ↔
          ∀ k x, item.Reaches k x → x.Complete) items docs :=
        (forall₂_comp hvalues hdocs).imp fun _ _ ⟨_, hr, hdoc⟩ => ih hr hdoc
      rw [Json.reordered_list_iff, forall₂_iff_of_iff hitems]
      constructor
      · rintro h k x (_ | ⟨hi, hr⟩)
        · rintro _ ⟨⟩
        · exact h _ hi _ x hr
      · exact fun h item hi k x hr => h _ x (.element hi hr)
    | object entries =>
      obtain ⟨shape, values, htype, hparts, hvalues⟩ := ofJson_object.1 h
      obtain ⟨docs, hdocs, rfl⟩ := (toJson?_node hparts).1 hn
      have hfields : List.Forall₂ (fun field doc => ∀ o, entries.lookup field.name = some o →
          (doc.Reordered o ↔ ∀ k x, o.Reaches k x → x.Complete)) shape.fields docs := by
        refine (forall₂_comp hvalues hdocs).imp ?_
        rintro field doc ⟨value, ⟨hl, hr⟩ | ⟨hl, -⟩, hdoc⟩ o ho
        · cases hl.symm.trans ho
          exact ih hr hdoc
        · cases hl.symm.trans ho
      rw [reordered_node htype hfields.length_eq hfields]
      constructor
      · rintro ⟨hperm, h⟩ k x (_ | _ | @⟨_, shape', field, doc, _, k, htype', hf, hl, hr⟩)
        · rintro _ ⟨⟩
          exact ⟨shape, htype, hperm⟩
        · obtain rfl := shape_unique htype htype'
          exact h field hf doc hl _ x hr
      · intro h
        obtain ⟨shape', htype', hperm⟩ := h 0 _ (.refl _) entries rfl
        obtain rfl := shape_unique htype htype'
        exact ⟨hperm, fun field hf o ho k x hr => h _ x (.field htype hf ho hr)⟩

/-- **Documents are faithful to trees.**

    * Every tree can be written, if the limit on nesting is not too small, and then is read again.
    * If a document is read, the tree can be written; what is written is read as the same tree, so
      it is the normal form of the document.  It equals the document up to the order of keys if
      and only if every object that reading comes to has all fields of its class and no other
      entry but the class.
    * A document is read if and only if every object that reading comes to names its class and has
      all fields without a default, and if the limit on nesting is large enough for all it comes
      to.
    * Keys that are unknown where they stand do not matter, wherever that is. -/
theorem document_faithful :
    (∀ t : Tree, ∃ n bound, ∀ depth, bound ≤ depth →
      t.toJson? depth = some n ∧ ofJson depth n = .ok t) ∧
    (∀ depth o t, ofJson depth o = .ok t → ∃ n,
      (∀ limit, depth < limit → ofJson limit o = .ok t ∧ t.toJson? limit = some n ∧
        ofJson limit n = .ok t) ∧
      (n.Reordered o ↔ ∀ k x, o.Reaches k x → x.Complete)) ∧
    (∀ depth o, (∃ t, ofJson depth o = .ok t) ↔
      ∀ k x, o.Reaches k x → k < depth ∧ x.Readable) ∧
    ∀ depth o o', o.AgreesWhereKnown o' → ofJson depth o = ofJson depth o' := by
  refine ⟨fun t => ?_, fun depth o t h => ?_, ofJson_isOk_iff,
    fun depth o o' h => ofJson_congr h depth⟩
  · obtain ⟨n, hn⟩ := exists_toJson? (Nat.le_refl (sizeOf t))
    refine ⟨n, sizeOf t, fun depth hd => ?_⟩
    have hwritten := toJson?_mono hn hd
    exact ⟨hwritten, ofJson_toJson? hwritten⟩
  · obtain ⟨n, hn⟩ := exists_toJson?_of_ofJson h
    refine ⟨n, fun limit hlimit => ?_, reordered_iff h hn⟩
    have hwritten := toJson?_mono hn hlimit
    exact ⟨ofJson_mono h (Nat.le_of_lt hlimit), hwritten, ofJson_toJson? hwritten⟩

/-- A node without its only field and with an unknown key. -/
def noteOnly : Json := .object [("note", .int 1), ("type", .text "ObjectExpression")]

/-- The entries of a program of this node. -/
def looseEntries : List (String × Json) := [("body", .list [noteOnly]), ("type", .text "Program")]

/-- The tree of the program: the field has its default. -/
def looseTree : Tree := .program (.list [.objectExpression (.list [])])

/-- The document is read, but written in another way. -/
theorem document_faithful_loose :
    ofJson 3 (.object looseEntries) = .ok looseTree ∧
      ∃ n, looseTree.toJson? 4 = some n ∧ ofJson 4 n = .ok looseTree ∧
        ¬n.Reordered (.object looseEntries) := by
  have hread : ofJson 3 (.object looseEntries) = .ok looseTree := by rfl
  obtain ⟨n, hn, hsame⟩ := document_faithful.2.1 3 _ looseTree hread
  obtain ⟨-, hwritten, hagain⟩ := hn 4 (by decide)
  refine ⟨hread, n, hwritten, hagain, fun hreordered => ?_⟩
  have htype : looseEntries.lookup "type" = some (.text Shape.program.name) := rfl
  have hbody : (⟨"body", none⟩ : Field) ∈ Shape.program.fields := List.mem_singleton.2 rfl
  have hreaches : Json.Reaches (.object looseEntries) 2 noteOnly :=
    .field htype hbody rfl (.element (List.mem_singleton.2 rfl) (.refl _))
  obtain ⟨shape, hshape, hperm⟩ := hsame.1 hreordered _ _ hreaches _ rfl
  obtain rfl : Shape.objectExpression = shape := shape_unique rfl hshape
  have hnote := hperm.mem_iff.1 (List.mem_cons_self (a := "note"))
  simp [Shape.fields] at hnote

end Tree

end BoxScript
