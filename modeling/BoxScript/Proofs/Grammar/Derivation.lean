/-
  The grammar of the language, as a relation between token lists and trees.

  `Derives form ts next t`: the tokens `ts`, each of them used once and in order, make up the
  tree `t` of the given form, if a token of kind `next` comes after them.  What comes after
  matters where a form could go on: a chain ends before a token that is none of its operators,
  and a name before a token that is no opening bracket.

  The elements of an array and the arguments of a call need no separator between them.  Where there
  is none, it depends on the token that the next one begins with whether the first one ends before
  it.  So the rules are stated with a set `N` of kinds.

  * `Form` lists what the grammar speaks of, and `Chain` the four kinds of operator chains,
    which all nest to the left;
  * `Arranged N form ts next t`: the same, but an element or argument comes right after another
    one only if it begins with a token of a kind in `N`.  `Derives` is the case that every kind is
    in `N`; if none is, there are only lists with separators;
  * `Arranged.begins`: the tokens that a form can begin with.
-/
import BoxScript.Grammar.Program

namespace BoxScript

/-- A name is an identifier, or an operator that is spelled as a word. -/
def Token.IsName (t : Token) : Prop := t.kind = .identifier ∨ t.isWordOperator = true

/-- The kinds that separate two elements of an array, the comma among them: all that neither
    end the array nor begin an element. -/
def Kind.Separates (k : Kind) : Prop :=
  k ≠ .closeArray ∧ k ≠ .endOfInput ∧ k.startsElement = false

/-- The kinds by which a name goes on. -/
def Kind.Opens (k : Kind) : Prop := k = .openArray ∨ k = .beginParams

namespace Grammar

/-- Operands joined by operators: outside conditions, in comparisons, in conditions, and in
    parentheses. -/
inductive Chain where
  | expression | comparison | condition | grouped

/-- What the grammar speaks of. -/
inductive Form where
  | primary
  /-- a name with any number of indices and argument lists -/
  | named
  /-- operands of a chain, perhaps not all of them -/
  | links (k : Chain)
  | chain (k : Chain)
  | array
  /-- the rest of an array, with the closing bracket -/
  | elements
  /-- the rest of the arguments of a call, with the closing parenthesis -/
  | arguments
  /-- the rest of the parameters of a function, with the closing parenthesis -/
  | parameters
  | statement
  /-- any number of statements -/
  | body
  | program

namespace Chain

/-- The operators of a chain. -/
def joins : Chain → Kind → Bool
  | expression => fun k => k.isArithmetic || k.isComparison
  | comparison => Kind.isComparison
  | condition | grouped => Kind.isLogical

/-- The node that an operator makes of its operands. -/
def join : Chain → Tree → Tree → Tree → Tree
  | expression => .binaryExpression
  | comparison => .comparisonExpression
  | condition | grouped => .logicalExpression

/-- What a chain joins. -/
def operand : Chain → Form
  | expression | comparison => .primary
  | condition => .chain comparison
  | grouped => .chain expression

end Chain

/-- The kind of the first of some tokens, which are followed by one of kind `next`. -/
def leading (ts : List Token) (next : Kind) : Kind :=
  match ts with
  | [] => next
  | t :: _ => t.kind

/-- One token of a kind, or none. -/
inductive Optional (k : Kind) : List Token → Prop
  | absent : Optional k []
  | present {t : Token} (h : t.kind = k) : Optional k [t]

/-- What stands between an element of an array and what follows: a separator, or nothing
    before the closing bracket and before what begins an element. -/
inductive Separator (follows : Kind) : List Token → Prop
  | absent (h : follows = .closeArray ∨ follows.startsElement = true) : Separator follows []
  | present {t : Token} (h : t.kind.Separates) : Separator follows [t]

/-- The condition after a keyword: negated, if the keyword is the negated one. -/
def turned (keyword negated : Kind) (test : Tree) : Tree :=
  if keyword = negated then .logicalExpression (.text "not") test .null else test

/-- The tokens make up the tree.  An element or argument that comes right after another one begins
    with a token of a kind in `N`. -/
inductive Arranged (N : Kind → Prop) : Form → List Token → Kind → Tree → Prop
  -- primaries
  | named {name ts next t} (h : Arranged N .named (name :: ts) next t) (hn : ¬next.Opens)
      (hm : name.kind = .minus → leading ts next = .beginParams) :
      Arranged N .primary (name :: ts) next t
  | number {tok x next} (h : tok.kind = .number) (hx : Number.read? tok.text = some x) :
      Arranged N .primary [tok] next (.numberLiteral (.num x))
  | string {tok next} (h : tok.kind = .string) :
      Arranged N .primary [tok] next (.stringLiteral (.text tok.text))
  | boolean {tok next} (h : tok.kind = .boolean) :
      Arranged N .primary [tok] next (.booleanLiteral (.bool (tok.text == "true")))
  | literal {ts next t} (h : Arranged N .array ts next t) : Arranged N .primary ts next t
  | group {opening ts closing next t} (ho : opening.kind = .beginParams)
      (h : Arranged N (.chain .grouped) ts .endParams t) (hc : closing.kind = .endParams) :
      Arranged N .primary (opening :: (ts ++ [closing])) next t
  | negative {sign ts next t} (hs : sign.kind = .minus)
      (hw : sign.isWordOperator = true → leading ts next ≠ .beginParams)
      (h : Arranged N .primary ts next t) :
      Arranged N .primary (sign :: ts) next (.unaryExpression (.text sign.text) t)
  | not {kw ts next t} (hk : kw.kind = .notKw) (h : Arranged N .primary ts next t) :
      Arranged N .primary (kw :: ts) next (.logicalExpression (.text "not") t .null)
  -- names with indices and argument lists
  | name {name next} (h : name.IsName) :
      Arranged N .named [name] next (.identifier (.text name.text))
  | index {ts opening ts' closing next base t} (h : Arranged N .named ts .openArray base)
      (ho : opening.kind = .openArray) (h' : Arranged N (.chain .expression) ts' .closeArray t)
      (hc : closing.kind = .closeArray) :
      Arranged N .named (ts ++ opening :: (ts' ++ [closing])) next (.arrayAccess base t)
  | call {ts opening ts' next base args} (h : Arranged N .named ts .beginParams base)
      (ho : opening.kind = .beginParams) (h' : Arranged N .arguments ts' next (.list args)) :
      Arranged N .named (ts ++ opening :: ts') next (.callExpression base (.list args))
  -- chains
  | first {k ts next t} (h : Arranged N (Chain.operand k) ts next t) :
      Arranged N (.links k) ts next t
  | joined {k ts op ts' next left right} (h : Arranged N (.links k) ts op.kind left)
      (ho : Chain.joins k op.kind = true) (h' : Arranged N (Chain.operand k) ts' next right) :
      Arranged N (.links k) (ts ++ op :: ts') next (Chain.join k (.text op.text) left right)
  | chain {k ts next t} (h : Arranged N (.links k) ts next t) (hn : Chain.joins k next = false) :
      Arranged N (.chain k) ts next t
  -- lists in brackets
  | array {opening ts next items} (ho : opening.kind = .openArray)
      (h : Arranged N .elements ts next (.list items)) :
      Arranged N .array (opening :: ts) next (.arrayLiteral (.list items))
  | noElement {closing next} (h : closing.kind = .closeArray) :
      Arranged N .elements [closing] next (.list [])
  | element {ts sep ts' next t items}
      (h : Arranged N (.chain .expression) ts (leading (sep ++ ts') next) t)
      (hs : Separator (leading ts' next) sep) (h' : Arranged N .elements ts' next (.list items))
      (ha : sep = [] → items = [] ∨ N (leading ts' next)) :
      Arranged N .elements (ts ++ (sep ++ ts')) next (.list (t :: items))
  | noArgument {closing next} (h : closing.kind = .endParams) :
      Arranged N .arguments [closing] next (.list [])
  | argument {ts sep ts' next t args}
      (h : Arranged N (.chain .expression) ts (leading (sep ++ ts') next) t)
      (hs : Optional .comma sep) (h' : Arranged N .arguments ts' next (.list args))
      (ha : sep = [] → args = [] ∨ N (leading ts' next)) :
      Arranged N .arguments (ts ++ (sep ++ ts')) next (.list (t :: args))
  | noParameter {closing next} (h : closing.kind = .endParams) :
      Arranged N .parameters [closing] next (.list [])
  | parameter {name sep ts next params} (h : name.IsName) (hs : Optional .comma sep)
      (h' : Arranged N .parameters ts next (.list params)) :
      Arranged N .parameters (name :: (sep ++ ts)) next (.list (.text name.text :: params))
  -- declarations
  | box {kw name stop next} (hk : kw.kind = .boxKw) (hn : name.IsName) (hs : stop.kind = .endKw) :
      Arranged N .statement [kw, name, stop] next
        (.variableDeclaration (.text name.text) .null (.bool false) (.bool false))
  | boxSet {kw name eq ts stop next t} (hk : kw.kind = .boxKw) (hn : name.IsName)
      (he : eq.kind = .equals) (h : Arranged N (.chain .expression) ts .endKw t)
      (hs : stop.kind = .endKw) :
      Arranged N .statement (kw :: name :: eq :: (ts ++ [stop])) next
        (.variableDeclaration (.text name.text) t (.bool false) (.bool false))
  | noChange {kw name eq ts stop next t} (hk : kw.kind = .noChangeKw) (hn : name.IsName)
      (he : eq.kind = .equals) (h : Arranged N (.chain .expression) ts .endKw t)
      (hs : stop.kind = .endKw) :
      Arranged N .statement (kw :: name :: eq :: (ts ++ [stop])) next
        (.variableDeclaration (.text name.text) t (.bool true) (.bool false))
  | boxes {kw name eq ts stop next t} (hk : kw.kind = .boxesKw) (hn : name.IsName)
      (he : eq.kind = .equals) (h : Arranged N .array ts .endKw t) (hs : stop.kind = .endKw) :
      Arranged N .statement (kw :: name :: eq :: (ts ++ [stop])) next
        (.variableDeclaration (.text name.text) t (.bool false) (.bool true))
  | function {kw name opening ps doIt ts stop next params items} (hk : kw.kind = .functionKw)
      (hn : name.IsName) (ho : opening.kind = .beginParams)
      (hp : Arranged N .parameters ps .doItKw (.list params)) (hd : doIt.kind = .doItKw)
      (h : Arranged N .body ts .endKw (.list items)) (hs : stop.kind = .endKw) :
      Arranged N .statement (kw :: name :: opening :: (ps ++ doIt :: (ts ++ [stop]))) next
        (.functionDeclaration (.text name.text) (.list params) (.block (.list items)))
  -- control
  | ifThen {kw ts doIt ts' stop next test items} (hk : kw.kind = .ifKw ∨ kw.kind = .ifNotKw)
      (h : Arranged N (.chain .condition) ts .doItKw test) (hd : doIt.kind = .doItKw)
      (h' : Arranged N .body ts' .endKw (.list items)) (hs : stop.kind = .endKw) :
      Arranged N .statement (kw :: (ts ++ doIt :: (ts' ++ [stop]))) next
        (.ifStatement (turned kw.kind .ifNotKw test) (.block (.list items)) .null)
  | ifElse {kw ts doIt ts' els opt ts'' stop next test items items'}
      (hk : kw.kind = .ifKw ∨ kw.kind = .ifNotKw)
      (h : Arranged N (.chain .condition) ts .doItKw test) (hd : doIt.kind = .doItKw)
      (h' : Arranged N .body ts' .elseKw (.list items)) (he : els.kind = .elseKw)
      (ho : Optional .doItKw opt) (h'' : Arranged N .body ts'' .endKw (.list items'))
      (hs : stop.kind = .endKw) :
      Arranged N .statement (kw :: (ts ++ doIt :: (ts' ++ els :: (opt ++ (ts'' ++ [stop]))))) next
        (.ifStatement (turned kw.kind .ifNotKw test) (.block (.list items))
          (.block (.list items')))
  | whileDo {kw ts doIt ts' stop next test items} (hk : kw.kind = .whileKw ∨ kw.kind = .whileNotKw)
      (h : Arranged N (.chain .condition) ts .doItKw test) (hd : doIt.kind = .doItKw)
      (h' : Arranged N .body ts' .endKw (.list items)) (hs : stop.kind = .endKw) :
      Arranged N .statement (kw :: (ts ++ doIt :: (ts' ++ [stop]))) next
        (.whileStatement (turned kw.kind .whileNotKw test) (.block (.list items)))
  | forTo {kw name eq ts upTo ts' doIt ts'' stop next start last items} (hk : kw.kind = .forKw)
      (hn : name.IsName) (he : eq.kind = .equals)
      (h : Arranged N (.chain .expression) ts .toKw start)
      (ht : upTo.kind = .toKw) (h' : Arranged N (.chain .expression) ts' .doItKw last)
      (hd : doIt.kind = .doItKw) (h'' : Arranged N .body ts'' .endKw (.list items))
      (hs : stop.kind = .endKw) :
      Arranged N .statement
        (kw :: name :: eq :: (ts ++ upTo :: (ts' ++ doIt :: (ts'' ++ [stop])))) next
        (.forStatement (.text name.text) start last (.block (.list items)))
  | returnNull {kw stop next} (hk : kw.kind = .returnKw) (hs : stop.kind = .endKw) :
      Arranged N .statement [kw, stop] next (.returnStatement .null)
  | returnValue {kw ts stop next t} (hk : kw.kind = .returnKw)
      (h : Arranged N (.chain .expression) ts .endKw t) (hs : stop.kind = .endKw) :
      Arranged N .statement (kw :: (ts ++ [stop])) next (.returnStatement t)
  -- statements that begin with a name
  | assign {ts eq ts' stop next target t} (h : Arranged N .named ts .equals target)
      (ht : (∃ x, target = .identifier x) ∨ ∃ a i, target = .arrayAccess a i)
      (he : eq.kind = .equals) (h' : Arranged N (.chain .expression) ts' .endKw t)
      (hs : stop.kind = .endKw) :
      Arranged N .statement (ts ++ eq :: (ts' ++ [stop])) next (.assignmentExpression target t)
  | callOnly {ts next f args} (h : Arranged N .named ts next (.callExpression f args))
      (hn : ¬next.Opens) (he : next ≠ .equals) :
      Arranged N .statement ts next (.callExpression f args)
  -- programs
  | empty {next} : Arranged N .body [] next (.list [])
  | more {ts ts' next t items} (h : Arranged N .statement ts (leading ts' next) t)
      (h' : Arranged N .body ts' next (.list items)) :
      Arranged N .body (ts ++ ts') next (.list (t :: items))
  | program {ts items} (h : Arranged N .body ts .endOfInput (.list items)) :
      Arranged N .program ts .endOfInput (.program (.list items))

variable {N : Kind → Prop} {form : Form} {ts ts' sep : List Token} {next : Kind} {t : Tree}

/-- The grammar of the language, with no demand on what comes right after an element or argument. -/
abbrev Derives : Form → List Token → Kind → Tree → Prop := Arranged fun _ => True

namespace Derives

theorem element {items : List Tree}
    (h : Derives (.chain .expression) ts (leading (sep ++ ts') next) t)
    (hs : Separator (leading ts' next) sep) (h' : Derives .elements ts' next (.list items)) :
    Derives .elements (ts ++ (sep ++ ts')) next (.list (t :: items)) :=
  Arranged.element h hs h' fun _ => Or.inr trivial

theorem argument {args : List Tree}
    (h : Derives (.chain .expression) ts (leading (sep ++ ts') next) t)
    (hs : Optional .comma sep) (h' : Derives .arguments ts' next (.list args)) :
    Derives .arguments (ts ++ (sep ++ ts')) next (.list (t :: args)) :=
  Arranged.argument h hs h' fun _ => Or.inr trivial

end Derives

/-- What is arranged is derived. -/
theorem Arranged.derives (h : Arranged N form ts next t) : Derives form ts next t := by
  induction h with
  | element _ hs _ _ ih ih' => exact .element ih hs ih'
  | argument _ hs _ _ ih ih' => exact .argument ih hs ih'
  | _ => grind [Arranged]

/-! ## How a form begins -/

/-- The kinds that a name can have. -/
def startsName (k : Kind) : Bool := k == .identifier || k.isOperator

/-- The kinds that a primary can begin with. -/
def startsPrimary (k : Kind) : Bool := k.startsElement || k.isOperator

/-- The kinds that a statement can begin with. -/
def startsStatement : Kind → Bool
  | .boxKw | .noChangeKw | .boxesKw | .ifKw | .ifNotKw | .whileKw | .whileNotKw | .forKw
  | .functionKw | .returnKw => true
  | k => startsName k

/-- The tokens that a form can begin with. -/
def Form.Begins : Form → Token → Prop
  | .primary | .links _ | .chain _ => fun tok => startsPrimary tok.kind = true
  | .named => Token.IsName
  | .array => fun tok => tok.kind = .openArray
  | .elements => fun tok => tok.kind = .closeArray ∨ startsPrimary tok.kind = true
  | .arguments => fun tok => tok.kind = .endParams ∨ startsPrimary tok.kind = true
  | .parameters => fun tok => tok.kind = .endParams ∨ tok.IsName
  | .statement => fun tok => startsStatement tok.kind = true
  | .body | .program => fun _ => True

/-- Can the form be empty? -/
def Form.canBeEmpty : Form → Bool
  | .body | .program => true
  | _ => false

theorem startsName_of_isName {t : Token} (h : t.IsName) : startsName t.kind = true := by
  rcases h with h | h
  · rw [h]; rfl
  · have hop : t.kind.isOperator = true := by
      unfold Token.isWordOperator at h
      exact (Bool.and_eq_true _ _ ▸ h).1
    simp [startsName, hop]

theorem startsPrimary_of_isName {t : Token} (h : t.IsName) : startsPrimary t.kind = true := by
  have hs := startsName_of_isName h
  simp only [startsName, Bool.or_eq_true, beq_iff_eq] at hs
  rcases hs with hs | hs
  · rw [hs]; rfl
  · simp [startsPrimary, hs]

theorem startsStatement_of_isName {t : Token} (h : t.IsName) : startsStatement t.kind = true := by
  have hs := startsName_of_isName h
  unfold startsStatement
  split <;> simp [hs]

/-- **How a form begins.**  Only a list of statements can be empty. -/
theorem Arranged.begins (h : Arranged N form ts next t) (hf : form.canBeEmpty = false) :
    ∃ tok rest, ts = tok :: rest ∧ form.Begins tok := by
  induction h with
  | @named name ts next t h hn hm ih =>
    obtain ⟨tok, rest, he, hb⟩ := ih rfl
    exact ⟨tok, rest, he, startsPrimary_of_isName hb⟩
  | @literal ts next t h ih =>
    obtain ⟨tok, rest, he, hb⟩ := ih rfl
    have hk : tok.kind = .openArray := hb
    exact ⟨tok, rest, he, by simp only [Form.Begins, hk]; rfl⟩
  | number h | string h | boolean h => exact ⟨_, _, rfl, by simp only [Form.Begins, h]; rfl⟩
  | group h | negative h | not h => exact ⟨_, _, rfl, by simp only [Form.Begins, h]; rfl⟩
  | name h => exact ⟨_, _, rfl, h⟩
  | index _ _ _ _ ih | call _ _ _ ih =>
    obtain ⟨tok, rest, rfl, hb⟩ := ih rfl
    exact ⟨tok, _, rfl, hb⟩
  | @first k _ _ _ _ ih => cases k <;> exact ih rfl
  | joined _ _ _ ih =>
    obtain ⟨tok, rest, rfl, hb⟩ := ih rfl
    exact ⟨tok, _, rfl, hb⟩
  | chain _ _ ih => exact ih rfl
  | array ho => exact ⟨_, _, rfl, ho⟩
  | noElement h | noArgument h | noParameter h => exact ⟨_, _, rfl, Or.inl h⟩
  | element _ _ _ _ ih | argument _ _ _ _ ih =>
    obtain ⟨tok, rest, rfl, hb⟩ := ih rfl
    exact ⟨tok, _, rfl, Or.inr hb⟩
  | parameter h => exact ⟨_, _, rfl, Or.inr h⟩
  | box hk | boxSet hk | noChange hk | boxes hk | function hk | forTo hk | returnNull hk
  | returnValue hk => exact ⟨_, _, rfl, by simp only [Form.Begins, hk]; rfl⟩
  | ifThen hk | ifElse hk | whileDo hk =>
    exact ⟨_, _, rfl, by rcases hk with hk | hk <;> simp only [Form.Begins, hk] <;> rfl⟩
  | assign _ _ _ _ _ ih =>
    obtain ⟨tok, rest, rfl, hb⟩ := ih rfl
    exact ⟨tok, _, rfl, startsStatement_of_isName hb⟩
  | callOnly _ _ _ ih =>
    obtain ⟨tok, rest, rfl, hb⟩ := ih rfl
    exact ⟨tok, _, rfl, startsStatement_of_isName hb⟩
  | empty | more | program => cases hf

theorem Arranged.length_pos (h : Arranged N form ts next t) (hf : form.canBeEmpty = false) :
    0 < ts.length := by
  obtain ⟨tok, rest, rfl, -⟩ := h.begins hf
  exact Nat.succ_pos _

end Grammar

theorem Token.IsName.ne_endOfInput {t : Token} (h : t.IsName) : t.kind ≠ .endOfInput := by
  intro he
  have hs := Grammar.startsName_of_isName h
  rw [he] at hs
  cases hs

end BoxScript
