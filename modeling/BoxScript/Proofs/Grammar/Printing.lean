/-
  Printing programs.

  * `Print.program` gives the tokens of a program.  Lists have commas, and parentheses stand
    where the operands of a chain would be joined in another way without them, and wherever the
    style wants them (`Print.Style`);
  * `Tree.IsExpression`, `Tree.IsTest` and `Tree.IsStatement` say which trees can be written
    down: names are no keywords, and the test of a condition is a chain of comparisons or the
    negation of one;
  * `parseTokens_print`: **such a program is parsed from the tokens that are printed for it.**

  An expression is read in another way in parentheses, as an operand and in a condition.
  `Parsed` says for each of these places that the tokens are derived, and the induction over
  expressions proves all of it at once.
-/
import BoxScript.Proofs.Grammar.Context
import BoxScript.Proofs.Number.Literal

namespace BoxScript

open Grammar

/-! ## Texts of tokens -/

namespace Kind

/-- The operators and marks, as texts. -/
def marks : List (String × Kind) :=
  pairOperators.map (fun p => (String.ofList [p.1.1, p.1.2], p.2)) ++
    singleOperators.map fun p => (String.singleton p.1, p.2)

/-- The kind of a token that is a word, an operator or a mark. -/
def ofSpelling (text : String) : Kind := (marks.lookup text).getD (ofWord text)

end Kind

/-- A word, an operator or a mark as a token. -/
def spelled (text : String) : Token := bare (Kind.ofSpelling text) text

/-- A text that is a name: no keyword, operator or mark. -/
def IsIdentifier (text : String) : Prop := Kind.ofSpelling text = .identifier

namespace Tree

/-! ## Programs that can be written down -/

/-- Is the tree a name with indices and argument lists after it? -/
def isAccess : Tree → Bool
  | identifier _ => true
  | arrayAccess a _ => isAccess a
  | callExpression f _ => isAccess f
  | _ => false

/-- The expressions. -/
inductive IsExpression : Tree → Prop
  | identifier {s} (h : IsIdentifier s) : IsExpression (.identifier (.text s))
  | number (x) : IsExpression (.numberLiteral (.num x))
  | string (s) : IsExpression (.stringLiteral (.text s))
  | boolean (b) : IsExpression (.booleanLiteral (.bool b))
  | array {items} (h : ∀ t ∈ items, IsExpression t) : IsExpression (.arrayLiteral (.list items))
  | index {a i} (hb : a.isAccess = true) (ha : IsExpression a) (hi : IsExpression i) :
      IsExpression (.arrayAccess a i)
  | call {f args} (hb : f.isAccess = true) (hf : IsExpression f)
      (h : ∀ t ∈ args, IsExpression t) : IsExpression (.callExpression f (.list args))
  | binary {op l r}
      (ho : (Kind.ofSpelling op).isArithmetic = true ∨ (Kind.ofSpelling op).isComparison = true)
      (hl : IsExpression l) (hr : IsExpression r) : IsExpression (.binaryExpression (.text op) l r)
  | junction {op l r} (ho : op = "and" ∨ op = "or") (hl : IsExpression l) (hr : IsExpression r) :
      IsExpression (.logicalExpression (.text op) l r)
  | not {t} (h : IsExpression t) : IsExpression (.logicalExpression (.text "not") t .null)
  | negative {t} (h : IsExpression t) : IsExpression (.unaryExpression (.text "-") t)

/-- Expressions joined by comparisons, nested to the left. -/
inductive IsComparison : Tree → Prop
  | operand {t} (h : IsExpression t) : IsComparison t
  | joined {op l r} (ho : (Kind.ofSpelling op).isComparison = true) (hl : IsComparison l)
      (hr : IsExpression r) : IsComparison (.comparisonExpression (.text op) l r)

/-- Comparisons joined by `and` and `or`, nested to the left. -/
inductive IsCondition : Tree → Prop
  | single {t} (h : IsComparison t) : IsCondition t
  | joined {op l r} (ho : op = "and" ∨ op = "or") (hl : IsCondition l) (hr : IsComparison r) :
      IsCondition (.logicalExpression (.text op) l r)

/-- What can stand after `if` and `while`. -/
inductive IsTest : Tree → Prop
  | plain {t} (h : IsCondition t) : IsTest t
  | negated {t} (h : IsCondition t) : IsTest (.logicalExpression (.text "not") t .null)

/-- The statements. -/
inductive IsStatement : Tree → Prop
  | box {name} (hn : IsIdentifier name) : IsStatement
      (.variableDeclaration (.text name) .null (.bool false) (.bool false))
  | boxSet {name t} (hn : IsIdentifier name) (h : IsExpression t) : IsStatement
      (.variableDeclaration (.text name) t (.bool false) (.bool false))
  | noChange {name t} (hn : IsIdentifier name) (h : IsExpression t) : IsStatement
      (.variableDeclaration (.text name) t (.bool true) (.bool false))
  | boxes {name items} (hn : IsIdentifier name) (h : IsExpression (.arrayLiteral (.list items))) :
      IsStatement (.variableDeclaration (.text name) (.arrayLiteral (.list items)) (.bool false)
        (.bool true))
  | function {name} {params : List String} {items} (hn : IsIdentifier name)
      (hp : ∀ s ∈ params, IsIdentifier s) (h : ∀ t ∈ items, IsStatement t) : IsStatement
      (.functionDeclaration (.text name) (.list (params.map .text)) (.block (.list items)))
  | ifThen {t items} (ht : IsTest t) (h : ∀ t ∈ items, IsStatement t) :
      IsStatement (.ifStatement t (.block (.list items)) .null)
  | ifElse {t items items'} (ht : IsTest t) (h : ∀ t ∈ items, IsStatement t)
      (h' : ∀ t ∈ items', IsStatement t) :
      IsStatement (.ifStatement t (.block (.list items)) (.block (.list items')))
  | whileDo {t items} (ht : IsTest t) (h : ∀ t ∈ items, IsStatement t) :
      IsStatement (.whileStatement t (.block (.list items)))
  | forTo {name start stop items} (hn : IsIdentifier name) (hs : IsExpression start)
      (ht : IsExpression stop) (h : ∀ t ∈ items, IsStatement t) :
      IsStatement (.forStatement (.text name) start stop (.block (.list items)))
  | returnNull : IsStatement (.returnStatement .null)
  | returnValue {t} (h : IsExpression t) : IsStatement (.returnStatement t)
  | assign {target t} (ht : IsExpression target) (hb : target.isAccess = true)
      (hc : isTarget target = true) (h : IsExpression t) :
      IsStatement (.assignmentExpression target t)
  | callOnly {f args} (h : IsExpression (.callExpression f (.list args))) :
      IsStatement (.callExpression f (.list args))

/-- The programs. -/
inductive IsProgram : Tree → Prop
  | program {items} (h : ∀ t ∈ items, IsStatement t) : IsProgram (.program (.list items))

/-- Is the tree a chain of operators of calculation and comparison? -/
def isBinary : Tree → Bool
  | binaryExpression _ _ _ => true
  | _ => false

/-- Is the tree a chain of `and` and `or`? -/
def isJunction : Tree → Bool
  | logicalExpression (.text op) _ _ => op != "not"
  | _ => false

/-- Is the tree a chain of any operators? -/
def isChain (t : Tree) : Bool := t.isBinary || t.isJunction

/-- Does a comparison stand in the condition, so that it is no expression? -/
def hasComparison : Tree → Bool
  | comparisonExpression _ _ _ => true
  | logicalExpression _ l r => hasComparison l || hasComparison r
  | _ => false

end Tree

/-! ## Printing -/

namespace Print

/-- What the grammar leaves open. -/
structure Style where
  /-- Is the expression in parentheses where it need not be? -/
  parentheses : Tree → Bool
  /-- Does `doIt` stand after `else`? -/
  doIt : Bool

/-- Tokens in parentheses, if those are wanted. -/
def parenthesized (wanted : Bool) (ts : List Token) : List Token :=
  if wanted then spelled "(" :: (ts ++ [spelled ")"]) else ts

/-- The comma after an item, if others come after it. -/
def comma (rest : List Tree) : List Token := if rest.isEmpty then [] else [spelled ","]

variable (style : Style)

mutual

/-- The tokens of an expression as it stands in parentheses.  Elsewhere a chain of `and` and
    `or` is parenthesized, and as an operand any chain is. -/
def grouped : Tree → List Token
  | .identifier (.text s) => [spelled s]
  | .numberLiteral (.num x) => [bare .number (Number.literal x)]
  | .stringLiteral (.text s) => [bare .string s]
  | .booleanLiteral (.bool b) => [spelled (if b then "true" else "false")]
  | .arrayLiteral (.list items) => spelled "[" :: (list items ++ [spelled "]"])
  | .arrayAccess a i => grouped a ++ spelled "[" ::
      (parenthesized (i.isJunction || style.parentheses i) (grouped i) ++ [spelled "]"])
  | .callExpression f (.list args) => grouped f ++ spelled "(" :: (list args ++ [spelled ")"])
  | .binaryExpression (.text op) l r =>
    parenthesized (l.isJunction || style.parentheses l) (grouped l) ++
      spelled op :: parenthesized (r.isChain || style.parentheses r) (grouped r)
  | .logicalExpression (.text op) l r =>
    if op = "not" then spelled op :: parenthesized (l.isChain || style.parentheses l) (grouped l)
    else parenthesized (style.parentheses l) (grouped l) ++
      spelled op :: parenthesized (r.isJunction || style.parentheses r) (grouped r)
  | .unaryExpression (.text op) t =>
    spelled op :: parenthesized (t.isChain || style.parentheses t) (grouped t)
  | _ => []

/-- The tokens of expressions with commas between them. -/
def list : List Tree → List Token
  | [] => []
  | t :: rest =>
    parenthesized (t.isJunction || style.parentheses t) (grouped t) ++ (comma rest ++ list rest)

end

/-- The tokens of an expression. -/
def expression (t : Tree) : List Token :=
  parenthesized (t.isJunction || style.parentheses t) (grouped style t)

/-- The tokens of an operand. -/
def operand (t : Tree) : List Token :=
  parenthesized (t.isChain || style.parentheses t) (grouped style t)

/-- The tokens of comparisons. -/
def comparison : Tree → List Token
  | .comparisonExpression (.text op) l r => comparison l ++ spelled op :: operand style r
  | t => operand style t

/-- The tokens of a condition.  Parentheses can stand only around an expression. -/
def condition : Tree → List Token
  | .logicalExpression (.text op) l r =>
    let t : Tree := .logicalExpression (.text op) l r
    if op = "not" ∨ style.parentheses t = true ∧ t.hasComparison = false then operand style t
    else condition l ++ spelled op :: comparison style r
  | t => comparison style t

/-- The tokens of a test with its keyword.  The negated keyword is used for a negation that is
    no expression. -/
def test (keyword negated : String) : Tree → List Token
  | .logicalExpression (.text op) l r =>
    if op = "not" ∧ l.hasComparison = true then spelled negated :: condition style l
    else spelled keyword :: condition style (.logicalExpression (.text op) l r)
  | t => spelled keyword :: condition style t

/-- The tokens of parameters with commas between them. -/
def parameters : List Tree → List Token
  | .text s :: rest => spelled s :: (comma rest ++ parameters rest)
  | _ => []

mutual

/-- The tokens of a statement. -/
def statement : Tree → List Token
  | .variableDeclaration (.text name) .null (.bool false) (.bool false) =>
    [spelled "box", spelled name, spelled "end"]
  | .variableDeclaration (.text name) t (.bool false) (.bool true) =>
    spelled "boxes" :: spelled name :: spelled "=" :: (grouped style t ++ [spelled "end"])
  | .variableDeclaration (.text name) t (.bool constant) (.bool false) =>
    spelled (if constant then "noChange" else "box") :: spelled name :: spelled "=" ::
      (expression style t ++ [spelled "end"])
  | .functionDeclaration (.text name) (.list params) (.block (.list items)) =>
    spelled "function" :: spelled name :: spelled "(" :: ((parameters params ++ [spelled ")"]) ++
      spelled "doIt" :: (body items ++ [spelled "end"]))
  | .ifStatement t (.block (.list items)) (.block (.list items')) =>
    test style "if" "ifNot" t ++ spelled "doIt" :: (body items ++ spelled "else" ::
      ((if style.doIt then [spelled "doIt"] else []) ++ (body items' ++ [spelled "end"])))
  | .ifStatement t (.block (.list items)) _ =>
    test style "if" "ifNot" t ++ spelled "doIt" :: (body items ++ [spelled "end"])
  | .whileStatement t (.block (.list items)) =>
    test style "while" "whileNot" t ++ spelled "doIt" :: (body items ++ [spelled "end"])
  | .forStatement (.text name) start stop (.block (.list items)) =>
    spelled "for" :: spelled name :: spelled "=" :: (expression style start ++ spelled "to" ::
      (expression style stop ++ spelled "doIt" :: (body items ++ [spelled "end"])))
  | .returnStatement .null => [spelled "return", spelled "end"]
  | .returnStatement t => spelled "return" :: (expression style t ++ [spelled "end"])
  | .assignmentExpression target t =>
    grouped style target ++ spelled "=" :: (expression style t ++ [spelled "end"])
  | t => grouped style t

/-- The tokens of statements. -/
def body : List Tree → List Token
  | [] => []
  | t :: rest => statement t ++ body rest

end

/-- The tokens of a program, with the end of input. -/
def program : Tree → List Token
  | .program (.list items) => body style items ++ [bare .endOfInput ""]
  | _ => []

end Print

namespace Grammar

/-! ## Expressions -/

variable {style : Print.Style} {t l r : Tree} {op : String} {next : Kind}

/-- The tokens begin with a name, and are derived with the indices and arguments after it. -/
structure Named (style : Print.Style) (t : Tree) : Prop where
  begins : ∃ s rest, IsIdentifier s ∧ Print.grouped style t = spelled s :: rest
  derives : ∀ next, Derives .named (Print.grouped style t) next t

/-- The tokens that are printed for an expression are derived, wherever it stands. -/
structure Parsed (style : Print.Style) (t : Tree) : Prop where
  named : t.isAccess = true → Named style t
  primary : t.isChain = false → ∀ next : Kind, ¬next.Opens →
    Derives .primary (Print.grouped style t) next t
  links : t.isJunction = false → ∀ next : Kind, ¬next.Opens →
    Derives (.links .expression) (Print.grouped style t) next t
  grouped : ∀ next : Kind, ¬next.Opens → Chain.joins .expression next = false →
    Derives (.links .grouped) (Print.grouped style t) next t
  condition : ∀ next : Kind, ¬next.Opens → Chain.joins .comparison next = false →
    Derives (.links .condition) (Print.condition style t) next t

theorem not_opens_of_joins {k : Chain} {kind : Kind} (h : k.joins kind = true) : ¬kind.Opens := by
  rintro (rfl | rfl) <;> cases k <;> cases h

/-- Parentheses make an operand of a chain. -/
theorem group_derives {ts : List Token}
    (h : ∀ next : Kind, ¬next.Opens → Chain.joins .expression next = false →
      Derives (.links .grouped) ts next t) :
    Derives .primary (Print.parenthesized true ts) next t :=
  .group rfl (.chain (h .endParams (by simp [Kind.Opens]) rfl) rfl) rfl

namespace Parsed

/-- In parentheses any expression is an operand. -/
theorem parenthesized (h : Parsed style t) :
    Derives .primary (Print.parenthesized true (Print.grouped style t)) next t :=
  group_derives h.grouped

theorem operand (h : Parsed style t) (hn : ¬next.Opens) :
    Derives .primary (Print.operand style t) next t := by
  rw [Print.operand]
  cases hw : t.isChain || style.parentheses t with
  | true => exact h.parenthesized
  | false => exact h.primary (Bool.or_eq_false_iff.1 hw).1 next hn

theorem expression (h : Parsed style t) (hn : ¬next.Opens) :
    Derives (.links .expression) (Print.expression style t) next t := by
  rw [Print.expression]
  cases hw : t.isJunction || style.parentheses t with
  | true => exact .first h.parenthesized
  | false => exact h.links (Bool.or_eq_false_iff.1 hw).1 next hn

/-- The first operand of a chain of `and` and `or`. -/
theorem leftmost (h : Parsed style t) (hn : ¬next.Opens)
    (hj : Chain.joins .expression next = false) :
    Derives (.links .grouped)
      (Print.parenthesized (style.parentheses t) (Print.grouped style t)) next t := by
  cases style.parentheses t with
  | true => exact .first (.chain (.first h.parenthesized) hj)
  | false => exact h.grouped next hn hj

/-- What is an operand by itself stands everywhere. -/
theorem atom (hb : t.isChain = false) (hc : Print.condition style t = Print.operand style t)
    (hn : t.isAccess = true → Named style t)
    (h : ∀ next : Kind, ¬next.Opens → Derives .primary (Print.grouped style t) next t) :
    Parsed style t := by
  have hgrouped : ∀ next : Kind, ¬next.Opens → Chain.joins .expression next = false →
      Derives (.links .grouped) (Print.grouped style t) next t :=
    fun next ho hj => .first (.chain (.first (h next ho)) hj)
  refine ⟨hn, fun _ => h, fun _ next ho => .first (h next ho), hgrouped, fun next ho hj => ?_⟩
  rw [hc, Print.operand, hb]
  cases style.parentheses t with
  | true => exact .first (.chain (.first (group_derives hgrouped)) hj)
  | false => exact .first (.chain (.first (h next ho)) hj)

theorem binary
    (ho : (Kind.ofSpelling op).isArithmetic = true ∨ (Kind.ofSpelling op).isComparison = true)
    (hl : Parsed style l) (hr : Parsed style r) :
    Parsed style (.binaryExpression (.text op) l r) := by
  have hj : Chain.joins .expression (spelled op).kind = true := by
    simpa [Chain.joins, spelled, bare] using ho
  have hlinks : ∀ next : Kind, ¬next.Opens → Derives (.links .expression)
      (Print.grouped style (.binaryExpression (.text op) l r)) next
      (.binaryExpression (.text op) l r) :=
    fun next hn => .joined (hl.expression (not_opens_of_joins hj)) hj (hr.operand hn)
  have hgrouped : ∀ next : Kind, ¬next.Opens → Chain.joins .expression next = false →
      Derives (.links .grouped) (Print.grouped style (.binaryExpression (.text op) l r)) next
        (.binaryExpression (.text op) l r) :=
    fun next hn hj => .first (.chain (hlinks next hn) hj)
  refine ⟨(fun h => by cases h), (fun h => by cases h), fun _ => hlinks, hgrouped, ?_⟩
  exact fun next hn hj => .first (.chain (.first (group_derives hgrouped)) hj)

end Parsed

theorem isLogical_of_word (h : op = "and" ∨ op = "or") : (Kind.ofSpelling op).isLogical = true := by
  rcases h with rfl | rfl <;> rfl

theorem Parsed.junction (ho : op = "and" ∨ op = "or") (hl : Parsed style l) (hr : Parsed style r)
    (hr' : Print.comparison style r = Print.operand style r) :
    Parsed style (.logicalExpression (.text op) l r) := by
  have hj : Chain.joins .grouped (spelled op).kind = true := isLogical_of_word ho
  have hne : op ≠ "not" := by rcases ho with rfl | rfl <;> decide
  have hopens : ¬(spelled op).kind.Opens := not_opens_of_joins hj
  have hexpression : Chain.joins .expression (spelled op).kind = false := by
    rcases ho with rfl | rfl <;> rfl
  have hcomparison : Chain.joins .comparison (spelled op).kind = false := by
    rcases ho with rfl | rfl <;> rfl
  have hjunction : Tree.isJunction (.logicalExpression (.text op) l r) = true := by
    simpa [Tree.isJunction] using hne
  have hchain : Tree.isChain (.logicalExpression (.text op) l r) = true := by
    rw [Tree.isChain, hjunction, Bool.or_true]
  have hgrouped : ∀ next : Kind, ¬next.Opens → Chain.joins .expression next = false →
      Derives (.links .grouped) (Print.grouped style (.logicalExpression (.text op) l r)) next
        (.logicalExpression (.text op) l r) := fun next hn hnj => by
    rw [Print.grouped, if_neg hne]
    exact .joined (k := .grouped) (hl.leftmost hopens hexpression) hj
      (.chain (hr.expression hn) hnj)
  refine ⟨(fun h => by cases h), fun h => ?_, fun h => ?_, hgrouped, fun next hn hnj => ?_⟩
  · rw [hchain] at h
    cases h
  · rw [hjunction] at h
    cases h
  · rw [Print.condition]
    split
    · rw [Print.operand, hchain, Bool.true_or]
      exact .first (.chain (.first (group_derives hgrouped)) hnj)
    · rw [hr']
      exact .joined (k := .condition) (hl.condition _ hopens hcomparison) hj
        (.chain (.first (hr.operand hn)) hnj)

theorem Parsed.not (h : Parsed style t) :
    Parsed style (.logicalExpression (.text "not") t .null) :=
  Parsed.atom rfl (by rw [Print.condition, if_pos (Or.inl rfl)]) (fun h => by cases h)
    fun next hn => by
      rw [Print.grouped, if_pos rfl]
      exact .not rfl (h.operand hn)

theorem Parsed.negative (h : Parsed style t) : Parsed style (.unaryExpression (.text "-") t) := by
  have hsign : (spelled "-").kind = .minus := rfl
  exact Parsed.atom rfl rfl (fun h => by cases h) fun next hn =>
    .negative hsign (fun hw => by cases hw) (h.operand hn)

/-- A name is an operand. -/
theorem Named.parsed (hb : t.isAccess = true) (h : Named style t) : Parsed style t := by
  have hatom : t.isChain = false ∧ Print.condition style t = Print.operand style t := by
    cases t <;> first | exact ⟨rfl, rfl⟩ | cases hb
  refine Parsed.atom hatom.1 hatom.2 (fun _ => h) fun next hn => ?_
  obtain ⟨s, rest, hname, hs⟩ := h.begins
  have ht := h.derives next
  rw [hs] at ht ⊢
  refine .named ht hn fun hm => ?_
  have hkind : (spelled s).kind = .identifier := hname
  rw [hkind] at hm
  cases hm

theorem comma_cases (rest : List Tree) :
    Print.comma rest = [] ∧ rest = [] ∨ Print.comma rest = [spelled ","] := by
  cases rest with
  | nil => exact Or.inl ⟨rfl, rfl⟩
  | cons => exact Or.inr rfl

/-- Before the rest of a list stands a comma or the token that closes it. -/
theorem leading_comma (style : Print.Style) (rest : List Tree) (stop : Token) (next : Kind)
    (hs : stop.kind.Stops) :
    (leading (Print.comma rest ++ (Print.list style rest ++ [stop])) next).Stops := by
  rcases comma_cases rest with ⟨hc, rfl⟩ | hc
  · exact hs
  · rw [hc]
    exact stops_of_mem (by simp [leading, spelled, bare]; decide)

theorem elements_derives {items : List Tree} (h : ∀ t ∈ items, Parsed style t) (next : Kind) :
    Derives .elements (Print.list style items ++ [spelled "]"]) next (.list items) := by
  induction items with
  | nil => exact .noElement rfl
  | cons t rest ih =>
    have hstop := leading_comma style rest (spelled "]") next
      (stops_of_mem (k := .closeArray) (by simp))
    have hvalue := (h t (by simp)).expression hstop.opens
    have hsep : Separator (leading (Print.list style rest ++ [spelled "]"]) next)
        (Print.comma rest) := by
      rcases comma_cases rest with ⟨hc, rfl⟩ | hc <;> rw [hc]
      · exact .absent (Or.inl rfl)
      · exact .present ⟨by decide, by decide, rfl⟩
    have hrest := ih fun t ht => h t (by simp [ht])
    have := Derives.element (.chain hvalue (Chain.joins_eq_false hstop _)) hsep hrest
    simpa [Print.list, Print.expression] using this

theorem arguments_derives {args : List Tree} (h : ∀ t ∈ args, Parsed style t) (next : Kind) :
    Derives .arguments (Print.list style args ++ [spelled ")"]) next (.list args) := by
  induction args with
  | nil => exact .noArgument rfl
  | cons t rest ih =>
    have hstop := leading_comma style rest (spelled ")") next
      (stops_of_mem (k := .endParams) (by simp))
    have hvalue := (h t (by simp)).expression hstop.opens
    have hsep : Optional .comma (Print.comma rest) := by
      rcases comma_cases rest with ⟨hc, rfl⟩ | hc <;> rw [hc]
      · exact .absent
      · exact .present rfl
    have hrest := ih fun t ht => h t (by simp [ht])
    have := Derives.argument (.chain hvalue (Chain.joins_eq_false hstop _)) hsep hrest
    simpa [Print.list, Print.expression] using this

theorem comparison_eq_operand (h : t.IsExpression) :
    Print.comparison style t = Print.operand style t := by
  cases h <;> rfl

/-- **Expressions are printed as they are read.** -/
theorem parsed_expression (h : t.IsExpression) : Parsed style t := by
  induction h with
  | @identifier s h => exact Named.parsed rfl ⟨⟨s, [], h, rfl⟩, fun _ => .name (Or.inl h)⟩
  | number x =>
    exact Parsed.atom rfl rfl (fun h => by cases h) fun _ _ =>
      .number (bare_kind _ _) (Number.read?_literal x)
  | string s =>
    exact Parsed.atom rfl rfl (fun h => by cases h) fun _ _ => .string (bare_kind _ _)
  | boolean b =>
    refine Parsed.atom rfl rfl (fun h => by cases h) fun next _ => ?_
    have hkind : (spelled (if b then "true" else "false")).kind = .boolean := by cases b <;> rfl
    have hvalue : Derives .primary [spelled (if b then "true" else "false")] next _ :=
      .boolean hkind
    cases b <;> exact hvalue
  | array h ih =>
    exact Parsed.atom rfl rfl (fun h => by cases h) fun next _ =>
      .literal (.array rfl (elements_derives ih next))
  | @index a i hb ha hi iha ihi =>
    obtain ⟨⟨s, rest, hs, hrest⟩, hnamed⟩ := iha.named hb
    refine Named.parsed hb ⟨⟨s, _, hs, by rw [Print.grouped, hrest, List.cons_append]⟩, ?_⟩
    exact fun next => .index (hnamed _) rfl (.chain (ihi.expression (by simp [Kind.Opens])) rfl) rfl
  | @call f args hb hf h ihf ih =>
    obtain ⟨⟨s, rest, hs, hrest⟩, hnamed⟩ := ihf.named hb
    refine Named.parsed hb ⟨⟨s, _, hs, by rw [Print.grouped, hrest, List.cons_append]⟩, ?_⟩
    exact fun next => .call (hnamed _) rfl (arguments_derives ih next)
  | binary ho _ _ ihl ihr => exact .binary ho ihl ihr
  | junction ho _ hr ihl ihr => exact .junction ho ihl ihr (comparison_eq_operand hr)
  | not _ ih => exact ih.not
  | negative _ ih => exact ih.negative

/-! ## Tests -/

theorem comparison_derives (h : t.IsComparison) (hn : ¬next.Opens) :
    Derives (.links .comparison) (Print.comparison style t) next t := by
  induction h generalizing next with
  | operand h =>
    rw [comparison_eq_operand h]
    exact .first ((parsed_expression h).operand hn)
  | @joined op l r ho _ hr ih =>
    have hj : Chain.joins .comparison (spelled op).kind = true := ho
    exact .joined (k := .comparison) (ih (not_opens_of_joins hj)) hj
      ((parsed_expression hr).operand hn)

theorem isExpression_of_comparison (h : t.IsComparison) (hc : t.hasComparison = false) :
    t.IsExpression := by
  cases h with
  | operand h => exact h
  | joined => cases hc

/-- A condition without a comparison is an expression. -/
theorem isExpression_of_condition (h : t.IsCondition) (hc : t.hasComparison = false) :
    t.IsExpression := by
  induction h with
  | single h => exact isExpression_of_comparison h hc
  | joined ho _ hr ih =>
    obtain ⟨hl, hr'⟩ := Bool.or_eq_false_iff.1 hc
    exact .junction ho (ih hl) (isExpression_of_comparison hr hr')

theorem condition_derives (h : t.IsCondition) (hn : ¬next.Opens)
    (hj : Chain.joins .comparison next = false) :
    Derives (.links .condition) (Print.condition style t) next t := by
  induction h generalizing next with
  | single h =>
    cases h with
    | operand h => exact (parsed_expression h).condition next hn hj
    | joined ho hl hr => exact .first (.chain (comparison_derives (.joined ho hl hr) hn) hj)
  | @joined op l r ho hl hr ih =>
    have hne : op ≠ "not" := by rcases ho with rfl | rfl <;> decide
    have hop : Chain.joins .condition (spelled op).kind = true := isLogical_of_word ho
    have hnj : Chain.joins .comparison (spelled op).kind = false := by
      rcases ho with rfl | rfl <;> rfl
    cases hc : Tree.hasComparison (.logicalExpression (.text op) l r) with
    | false =>
      exact (parsed_expression (isExpression_of_condition (.joined ho hl hr) hc)).condition _ hn hj
    | true =>
      rw [Print.condition, if_neg (by simp [hne, hc])]
      exact .joined (k := .condition) (ih (not_opens_of_joins hop) hnj) hop
        (.chain (comparison_derives hr hn) hj)

theorem hasComparison_eq_false (h : t.IsExpression) : t.hasComparison = false := by
  induction h with
  | junction _ _ _ ihl ihr => exact Bool.or_eq_false_iff.2 ⟨ihl, ihr⟩
  | not _ ih => exact Bool.or_eq_false_iff.2 ⟨ih, rfl⟩
  | _ => rfl

/-- A condition that is the negation of something is an expression. -/
theorem negated_condition {inner : Tree}
    (h : Tree.IsCondition (.logicalExpression (.text "not") inner r)) :
    inner.hasComparison = false := by
  have hnot : ¬("not" = "and" ∨ "not" = "or") := by decide
  cases h with
  | single h =>
    cases h with
    | operand h =>
      cases h with
      | junction ho => exact absurd ho hnot
      | not h => exact hasComparison_eq_false h
  | joined ho => exact absurd ho hnot

theorem test_plain (h : t.IsCondition) (keyword negated : String) :
    Print.test style keyword negated t = spelled keyword :: Print.condition style t := by
  unfold Print.test
  split
  · next op l r =>
    refine if_neg ?_
    rintro ⟨rfl, hl⟩
    rw [negated_condition h] at hl
    cases hl
  · rfl

/-- The tokens are a keyword of one of two kinds and a condition, which the second turns round. -/
def ReadsTest (ts : List Token) (k k' : Kind) (t : Tree) : Prop :=
  ∃ kw rest inner, ts = kw :: rest ∧ (kw.kind = k ∨ kw.kind = k') ∧
    Derives (.chain .condition) rest .doItKw inner ∧ turned kw.kind k' inner = t

theorem test_derives (h : t.IsTest) (keyword negated : String) {k k' : Kind}
    (hk : (spelled keyword).kind = k) (hk' : (spelled negated).kind = k') (hne : k ≠ k') :
    ReadsTest (Print.test style keyword negated t) k k' t := by
  have hderives : ∀ {t : Tree}, t.IsCondition →
      Derives (.chain .condition) (Print.condition style t) .doItKw t := fun h =>
    .chain (condition_derives h (by simp [Kind.Opens]) rfl) rfl
  have hplain : ∀ {t : Tree}, t.IsCondition →
      ReadsTest (Print.test style keyword negated t) k k' t :=
    fun h => ⟨_, _, _, test_plain h keyword negated, Or.inl hk, hderives h,
      by rw [turned, hk, if_neg hne]⟩
  cases h with
  | plain h => exact hplain h
  | @negated inner h =>
    cases hc : inner.hasComparison with
    | false => exact hplain (.single (.operand (.not (isExpression_of_condition h hc))))
    | true =>
      refine ⟨spelled negated, _, inner, ?_, Or.inr hk', hderives h, ?_⟩
      · rw [Print.test, if_pos ⟨rfl, hc⟩]
      · rw [turned, hk', if_pos rfl]

/-! ## Statements -/

theorem spelled_isName {s : String} (h : IsIdentifier s) : (spelled s).IsName := Or.inl h

theorem parameters_derives {params : List String} (h : ∀ s ∈ params, IsIdentifier s)
    (next : Kind) :
    Derives .parameters (Print.parameters (params.map .text) ++ [spelled ")"]) next
      (.list (params.map .text)) := by
  induction params with
  | nil => exact .noParameter rfl
  | cons s rest ih =>
    have hsep : Optional .comma (Print.comma (rest.map .text)) := by
      rcases comma_cases (rest.map .text) with ⟨hc, _⟩ | hc <;> rw [hc]
      · exact .absent
      · exact .present rfl
    have := Arranged.parameter (spelled_isName (h s (by simp))) hsep
      (ih fun s hs => h s (by simp [hs]))
    simpa [Print.parameters, spelled, bare] using this

/-- The kinds by which a call that is a statement would go on. -/
def resumes : Kind → Bool
  | .openArray | .beginParams | .equals => true
  | _ => false

theorem not_opens_of_resumes {k : Kind} (h : resumes k = false) : ¬k.Opens := by
  rintro (rfl | rfl) <;> cases h

theorem ne_equals_of_resumes {k : Kind} (h : resumes k = false) : k ≠ .equals := by
  rintro rfl
  cases h

/-- What is printed for a statement is derived before another one, and does not go on with the
    one before. -/
structure StandsAlone (ts : List Token) (t : Tree) : Prop where
  begins : ∃ tok rest, ts = tok :: rest ∧ resumes tok.kind = false
  derives : ∀ next, resumes next = false → Derives .statement ts next t

theorem body_derives {items : List Tree}
    (h : ∀ t ∈ items, StandsAlone (Print.statement style t) t) (hn : resumes next = false) :
    Derives .body (Print.body style items) next (.list items) := by
  induction items with
  | nil => exact .empty
  | cons t rest ih =>
    have hrest := ih fun t ht => h t (by simp [ht])
    refine .more ((h t (by simp)).derives _ ?_) hrest
    cases rest with
    | nil => exact hn
    | cons t' rest =>
      obtain ⟨tok, ts, hts, hr⟩ := (h t' (by simp)).begins
      rw [Print.body, hts]
      exact hr

theorem expression_derives (h : t.IsExpression) (hn : next.Stops) :
    Derives (.chain .expression) (Print.expression style t) next t :=
  .chain ((parsed_expression h).expression hn.opens) (Chain.joins_eq_false hn _)

theorem print_declaration (h : t.IsExpression) (style : Print.Style) (constant : Bool)
    (name : String) :
    Print.statement style (.variableDeclaration (.text name) t (.bool constant) (.bool false)) =
      spelled (if constant then "noChange" else "box") :: spelled name :: spelled "=" ::
        (Print.expression style t ++ [spelled "end"]) := by
  cases h <;> cases constant <;> rfl

theorem print_return (h : t.IsExpression) (style : Print.Style) :
    Print.statement style (.returnStatement t) =
      spelled "return" :: (Print.expression style t ++ [spelled "end"]) := by
  cases h <;> rfl

/-- A name stands alone with what makes a statement of it. -/
theorem access_begins (style : Print.Style) (h : t.IsExpression) (hb : t.isAccess = true)
    (more : List Token) :
    ∃ tok rest, Print.grouped style t ++ more = tok :: rest ∧ resumes tok.kind = false := by
  have hparsed : Parsed style t := parsed_expression h
  obtain ⟨s, rest, hs, hrest⟩ := (hparsed.named hb).begins
  refine ⟨spelled s, rest ++ more, by rw [hrest, List.cons_append], ?_⟩
  have hkind : (spelled s).kind = .identifier := hs
  rw [hkind]
  rfl

/-- **Statements are printed as they are read.** -/
theorem statement_standsAlone (style : Print.Style) (h : t.IsStatement) :
    StandsAlone (Print.statement style t) t := by
  have hstop : Kind.endKw.Stops := stops_of_mem (by simp)
  induction h with
  | box hn => exact ⟨⟨_, _, rfl, rfl⟩, fun _ _ => .box rfl (spelled_isName hn) rfl⟩
  | boxSet hn h =>
    rw [print_declaration h]
    exact ⟨⟨_, _, rfl, rfl⟩, fun _ _ =>
      .boxSet rfl (spelled_isName hn) rfl (expression_derives h hstop) rfl⟩
  | noChange hn h =>
    rw [print_declaration h]
    exact ⟨⟨_, _, rfl, rfl⟩, fun _ _ =>
      .noChange rfl (spelled_isName hn) rfl (expression_derives h hstop) rfl⟩
  | boxes hn h =>
    refine ⟨⟨_, _, rfl, rfl⟩, fun _ _ => .boxes rfl (spelled_isName hn) rfl ?_ rfl⟩
    cases h with
    | array h => exact .array rfl (elements_derives (fun t ht => parsed_expression (h t ht)) _)
  | function hn hp h ih =>
    exact ⟨⟨_, _, rfl, rfl⟩, fun _ _ => .function rfl (spelled_isName hn) rfl
      (parameters_derives hp _) rfl (body_derives ih rfl) rfl⟩
  | @ifThen t items ht h ih =>
    obtain ⟨kw, ts, inner, hts, hk, hinner, hturned⟩ :=
      test_derives ht "if" "ifNot" rfl rfl (by decide)
    have hprint : Print.statement style (.ifStatement t (.block (.list items)) .null) =
        kw :: (ts ++ spelled "doIt" :: (Print.body style items ++ [spelled "end"])) := by
      rw [← List.cons_append, ← hts]
      rfl
    rw [hprint, ← hturned]
    refine ⟨⟨_, _, rfl, by rcases hk with hk | hk <;> rw [hk] <;> rfl⟩, fun _ _ => ?_⟩
    exact .ifThen hk hinner rfl (body_derives ih rfl) rfl
  | @ifElse t items items' ht h h' ih ih' =>
    obtain ⟨kw, ts, inner, hts, hk, hinner, hturned⟩ :=
      test_derives ht "if" "ifNot" rfl rfl (by decide)
    have hprint : Print.statement style
        (.ifStatement t (.block (.list items)) (.block (.list items'))) =
        kw :: (ts ++ spelled "doIt" :: (Print.body style items ++ spelled "else" ::
          ((if style.doIt then [spelled "doIt"] else []) ++
            (Print.body style items' ++ [spelled "end"])))) := by
      rw [← List.cons_append, ← hts]
      rfl
    have hopt : Optional .doItKw (if style.doIt then [spelled "doIt"] else []) := by
      cases style.doIt
      · exact .absent
      · exact .present rfl
    rw [hprint, ← hturned]
    refine ⟨⟨_, _, rfl, by rcases hk with hk | hk <;> rw [hk] <;> rfl⟩, fun _ _ => ?_⟩
    exact .ifElse hk hinner rfl (body_derives ih rfl) rfl hopt (body_derives ih' rfl) rfl
  | @whileDo t items ht h ih =>
    obtain ⟨kw, ts, inner, hts, hk, hinner, hturned⟩ :=
      test_derives ht "while" "whileNot" rfl rfl (by decide)
    have hprint : Print.statement style (.whileStatement t (.block (.list items))) =
        kw :: (ts ++ spelled "doIt" :: (Print.body style items ++ [spelled "end"])) := by
      rw [← List.cons_append, ← hts]
      rfl
    rw [hprint, ← hturned]
    refine ⟨⟨_, _, rfl, by rcases hk with hk | hk <;> rw [hk] <;> rfl⟩, fun _ _ => ?_⟩
    exact .whileDo hk hinner rfl (body_derives ih rfl) rfl
  | forTo hn hs ht h ih =>
    exact ⟨⟨_, _, rfl, rfl⟩, fun _ _ => .forTo rfl (spelled_isName hn) rfl
      (expression_derives hs (stops_of_mem (by simp))) rfl
      (expression_derives ht (stops_of_mem (by simp))) rfl (body_derives ih rfl) rfl⟩
  | returnNull => exact ⟨⟨_, _, rfl, rfl⟩, fun _ _ => .returnNull rfl rfl⟩
  | returnValue h =>
    rw [print_return h]
    exact ⟨⟨_, _, rfl, rfl⟩, fun _ _ => .returnValue rfl (expression_derives h hstop) rfl⟩
  | assign ht hb hc h =>
    refine ⟨access_begins style ht hb _, fun _ _ => ?_⟩
    exact .assign (((parsed_expression ht).named hb).derives _) (target_of_isTarget hc) rfl
      (expression_derives h hstop) rfl
  | @callOnly f args h =>
    have hb : Tree.isAccess (.callExpression f (.list args)) = true := by
      cases h with
      | call hb => exact hb
    have hbegins := access_begins style h hb []
    rw [List.append_nil] at hbegins
    exact ⟨hbegins, fun next hn => .callOnly (((parsed_expression h).named hb).derives _)
      (not_opens_of_resumes hn) (ne_equals_of_resumes hn)⟩

/-! ## Programs -/

/-- **Printing, then parsing gives the program back**, unless the limit on nesting is smaller
    than the number of tokens and is hit. -/
theorem parseTokens_print {p : Tree} (h : p.IsProgram) (style : Print.Style) (depth : Nat) :
    parseTokens depth (Print.program style p) = .ok p ∨
      parseTokens depth (Print.program style p) = .error .tooDeep ∧
        depth < (Print.program style p).length := by
  cases h with
  | @program items h =>
    have hbody : Derives .body (Print.body style items) .endOfInput (.list items) :=
      body_derives (fun t ht => statement_standsAlone style (h t ht)) rfl
    have hparse := parseTokens_derived (.program hbody) (bare_kind .endOfInput "") depth
    refine hparse.imp_right fun ⟨hdeep, hlt⟩ => ⟨hdeep, Nat.lt_trans hlt ?_⟩
    simp [Print.program]

/-- A name in the sample. -/
def sampleName (s : String) : Tree := .identifier (.text s)

/-- A program with operands in parentheses, a test that `ifNot` negates and a call of a call. -/
def sampleProgram : Tree :=
  let x := sampleName "x"
  let y := sampleName "y"
  .program (.list [
    .variableDeclaration (.text "a") (.arrayLiteral (.list [.numberLiteral (.num 1.5),
      .logicalExpression (.text "or") x (.logicalExpression (.text "not") y .null)]))
      (.bool false) (.bool true),
    .ifStatement
      (.logicalExpression (.text "not") (.logicalExpression (.text "and")
        (.comparisonExpression (.text "<") x (.binaryExpression (.text "+") x y)) y) .null)
      (.block (.list [
        .assignmentExpression (.arrayAccess (sampleName "a") (.numberLiteral (.num 0)))
          (.unaryExpression (.text "-") (.binaryExpression (.text "*") x
            (.binaryExpression (.text "subtract") x y))),
        .callExpression (.callExpression (sampleName "f") (.list [x, y])) (.list [])]))
      (.block (.list [.returnStatement .null]))])

/-- The sample with as few parentheses as can be, and with as many. -/
theorem parseTokens_print_sample :
    sampleProgram.IsProgram ∧
      (Print.program ⟨fun _ => false, true⟩ sampleProgram).map Token.text =
        ["boxes", "a", "=", "[", "1.5", ",", "(", "x", "or", "not", "y", ")", "]", "end",
         "ifNot", "x", "<", "(", "x", "+", "y", ")", "and", "y", "doIt",
         "a", "[", "0.0", "]", "=", "-", "(", "x", "*", "(", "x", "subtract", "y", ")", ")", "end",
         "f", "(", "x", ",", "y", ")", "(", ")",
         "else", "doIt", "return", "end", "end", ""] ∧
      parseTokens 60 (Print.program ⟨fun _ => false, true⟩ sampleProgram) = .ok sampleProgram ∧
      parseTokens 100 (Print.program ⟨fun _ => true, false⟩ sampleProgram) = .ok sampleProgram := by
  have hx : (sampleName "x").IsExpression := .identifier rfl
  have hy : (sampleName "y").IsExpression := .identifier rfl
  have hpair : ∀ {P : Tree → Prop} {a b : Tree}, P a → P b → ∀ t ∈ [a, b], P t := fun ha hb =>
    List.forall_mem_cons.2 ⟨ha, List.forall_mem_singleton.2 hb⟩
  have hbinary : ∀ {op : String} {r : Tree}, (Kind.ofSpelling op).isArithmetic = true →
      r.IsExpression → Tree.IsExpression (.binaryExpression (.text op) (sampleName "x") r) :=
    fun ho hr => .binary (Or.inl ho) hx hr
  have htest : Tree.IsTest (.logicalExpression (.text "not") (.logicalExpression (.text "and")
      (.comparisonExpression (.text "<") (sampleName "x")
        (.binaryExpression (.text "+") (sampleName "x") (sampleName "y"))) (sampleName "y"))
      .null) :=
    .negated (.joined (Or.inl rfl) (.single (.joined rfl (.operand hx) (hbinary rfl hy)))
      (.operand hy))
  have h : sampleProgram.IsProgram := by
    refine .program (hpair (.boxes rfl (.array ?_)) (.ifElse htest (hpair ?_ ?_) ?_))
    · exact hpair (.number _) (.junction (Or.inr rfl) hx (.not hy))
    · exact .assign (.index rfl (.identifier rfl) (.number _)) rfl rfl
        (.negative (hbinary rfl (hbinary rfl hy)))
    · exact .callOnly (.call rfl (.call rfl (.identifier rfl) (hpair hx hy)) (by simp))
    · exact List.forall_mem_singleton.2 .returnNull
  refine ⟨h, by rfl, (parseTokens_print h _ 60).resolve_right fun hdeep => ?_,
    (parseTokens_print h _ 100).resolve_right fun hdeep => ?_⟩
  · exact absurd hdeep.2 (by decide)
  · exact absurd hdeep.2 (by decide)

end Grammar

end BoxScript
