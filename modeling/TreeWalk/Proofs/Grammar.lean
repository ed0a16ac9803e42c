import TreeWalk.Tree.Parser

/-!
# The grammar

What the productions of `Tree.Parser` are meant to read, said without cursor, fuel and faults.
`Derives rule inLoop tokens tree rest` says that `tokens` start with a phrase of the rule, that the
phrase has the tree, and that `rest` is what follows it. Repetitions stay lists until the tree of the
whole is built, so that a chain of operators visibly groups to the left and assignments and choices
visibly to the right.

Two things go beyond the rules as they are usually written. `inLoop` says whether `break` and
`continue` may stand in the phrase: loop bodies allow them, function bodies do not. The flag of a
statement says whether it ends in an `if` that has no `else`. Only a statement that does not may be
followed by an `else`, so an `else` belongs to the nearest `if`.

Trees are taken up to references: every reference in a derived tree is zero, and `erase` makes them
so.
-/

namespace TreeWalk

/-! ### Trees up to references -/

mutual

/-- The expression with every reference set to zero. -/
def Expr.erase : Expr → Expr
  | .literal value => .literal value
  | .group inner => .group inner.erase
  | .unary operator operand fixity => .unary operator operand.erase fixity
  | .binary left operator right => .binary left.erase operator right.erase
  | .logical left operator right => .logical left.erase operator right.erase
  | .ternary condition whenTrue whenFalse =>
    .ternary condition.erase whenTrue.erase whenFalse.erase
  | .variable _ name => .variable 0 name
  | .assign _ name value => .assign 0 name value.erase
  | .call callee paren arguments => .call callee.erase paren (eraseExprs arguments)
  | .array bracket elements => .array bracket (eraseExprs elements)
  | .index collection bracket position => .index collection.erase bracket position.erase
  | .get object name => .get object.erase name
  | .set object name value => .set object.erase name value.erase
  | .this _ keyword => .this 0 keyword
  | .lambda function => .lambda function.erase

def eraseExprs : List Expr → List Expr
  | [] => []
  | e :: rest => e.erase :: eraseExprs rest

def FunctionDecl.erase : FunctionDecl → FunctionDecl
  | ⟨name, parameters, body, keyword⟩ => ⟨name, parameters, eraseStmts body, keyword⟩

/-- The statement with every reference set to zero. -/
def Stmt.erase : Stmt → Stmt
  | .block body => .block (eraseStmts body)
  | .expression value => .expression value.erase
  | .print value => .print value.erase
  | .var bindings => .var (eraseBindings bindings)
  | .function decl => .function decl.erase
  | .classDecl name methods => .classDecl name (eraseMethods methods)
  | .conditional condition whenTrue none => .conditional condition.erase whenTrue.erase none
  | .conditional condition whenTrue (some whenFalse) =>
    .conditional condition.erase whenTrue.erase (some whenFalse.erase)
  | .loop condition body none => .loop condition.erase body.erase none
  | .loop condition body (some increment) =>
    .loop condition.erase body.erase (some increment.erase)
  | .returning keyword none => .returning keyword none
  | .returning keyword (some value) => .returning keyword (some value.erase)
  | .breaking keyword => .breaking keyword
  | .continuing keyword => .continuing keyword

def eraseStmts : List Stmt → List Stmt
  | [] => []
  | s :: rest => s.erase :: eraseStmts rest

def eraseBindings : List (Token × Option Expr) → List (Token × Option Expr)
  | [] => []
  | (name, none) :: rest => (name, none) :: eraseBindings rest
  | (name, some value) :: rest => (name, some value.erase) :: eraseBindings rest

def eraseMethods : List FunctionDecl → List FunctionDecl
  | [] => []
  | f :: rest => f.erase :: eraseMethods rest

end

/-! ### Tokens by kind -/

namespace Token

theorem isSymbol_iff {s : Symbol} {t : Token} : t.isSymbol s ↔ t.kind = .symbol s := by
  unfold isSymbol
  split <;> simp_all

theorem isKeyword_iff {k : Keyword} {t : Token} : t.isKeyword k ↔ t.kind = .keyword k := by
  unfold isKeyword
  split <;> simp_all

theorem isIdentifier_iff {t : Token} : t.isIdentifier ↔ t.kind = .identifier := by
  unfold isIdentifier
  split <;> simp_all

end Token

/-! ### The rules -/

/-- What may follow an operand: arguments, a position or a property. -/
inductive Suffix where
  | call (paren : Token) (arguments : List Expr)
  | index (bracket : Token) (position : Expr)
  | get (name : Token)

/-- The expression that a suffix makes of the one before it. -/
def Suffix.attach (e : Expr) : Suffix → Expr
  | .call paren arguments => .call e paren arguments
  | .index bracket position => .index e bracket position
  | .get name => .get e name

/-- The expression that an operator of a level and its right operand make of the one before them. -/
def Level.attach (level : Level) (left : Expr) (operand : Token × Expr) : Expr :=
  level.node left operand.1 operand.2

/-- The tree of a `for`: a loop, inside a block with its start if there is one. -/
def forLoop (first : Option Stmt) (condition increment : Option Expr) (body : Stmt) : Stmt :=
  let loop := .loop (condition.getD (.literal (.bool true))) body increment
  match first with
  | some first => .block [first, loop]
  | none => loop

inductive Rule where
  | expression
  | ternary
  /-- Operators of the given levels. -/
  | binary (levels : List Level)
  /-- Any number of operators of a level, each with its right operand. -/
  | operands (level : Level) (tighter : List Level)
  | unary
  | call
  | suffixes
  | primary
  /-- Expressions, none or more, and the closing symbol. -/
  | arguments (closing : Symbol)
  | argumentList (allowed : Nat)
  | parameters (allowed : Nat)
  /-- What follows the opening parenthesis of a function. -/
  | functionTail
  | function
  /-- What follows an opening brace. -/
  | block
  | declarations
  | declaration (short : Bool)
  | methods
  /-- What follows the keyword of a declaration of variables. -/
  | varTail
  | bindings
  | forStart
  /-- An expression, or nothing before the closing symbol. -/
  | optional (closing : Symbol)
  /-- A statement is short if it ends in an `if` that has no `else`. -/
  | statement (short : Bool)

/-- What a phrase of a rule stands for. -/
abbrev Rule.Tree : Rule → Type
  | expression | ternary | binary _ | unary | call | primary => Expr
  | operands _ _ => List (Token × Expr)
  | suffixes => List Suffix
  | arguments _ => List Expr × Token
  | argumentList _ => List Expr
  | parameters _ => List Token
  | functionTail => List Token × List Stmt
  | function => FunctionDecl
  | block | declarations => List Stmt
  | declaration _ | varTail | statement _ => Stmt
  | methods => List FunctionDecl
  | bindings => List (Token × Option Expr)
  | forStart => Option Stmt
  | optional _ => Option Expr

inductive Derives : (rule : Rule) → (inLoop : Bool) → List Token → rule.Tree → List Token → Prop
  -- expression → ternary | NAME "=" expression | call "." NAME "=" expression
  | simple {l ts e rest} (h : Derives .ternary l ts e rest) : Derives .expression l ts e rest
  | assign {l name equals ts value rest} (hn : name.isIdentifier) (he : equals.isSymbol .equal)
      (hv : Derives .expression l ts value rest) :
      Derives .expression l (name :: equals :: ts) (.assign 0 name value) rest
  | set {l ts object name equals ts' value rest}
      (ht : Derives .call l ts (.get object name) (equals :: ts')) (he : equals.isSymbol .equal)
      (hv : Derives .expression l ts' value rest) :
      Derives .expression l ts (.set object name value) rest
  -- ternary → binary ( "?" ternary ":" ternary )?
  | noChoice {l ts e rest} (h : Derives (.binary Level.all) l ts e rest) :
      Derives .ternary l ts e rest
  | choice {l ts condition question ts₁ whenTrue colon ts₂ whenFalse rest}
      (hc : Derives (.binary Level.all) l ts condition (question :: ts₁))
      (hq : question.isSymbol .question) (ht : Derives .ternary l ts₁ whenTrue (colon :: ts₂))
      (hs : colon.isSymbol .colon) (hf : Derives .ternary l ts₂ whenFalse rest) :
      Derives .ternary l ts (.ternary condition whenTrue whenFalse) rest
  -- a level → tighter ( operator tighter )*
  | tightest {l ts e rest} (h : Derives .unary l ts e rest) : Derives (.binary []) l ts e rest
  | level {level tighter l ts first ts' more rest} (hf : Derives (.binary tighter) l ts first ts')
      (hm : Derives (.operands level tighter) l ts' more rest) :
      Derives (.binary (level :: tighter)) l ts (more.foldl level.attach first) rest
  | noOperand {level tighter l rest} : Derives (.operands level tighter) l rest [] rest
  | operand {level tighter l operator ts right ts' more rest} (ho : level.hasOperator operator)
      (hr : Derives (.binary tighter) l ts right ts')
      (hm : Derives (.operands level tighter) l ts' more rest) :
      Derives (.operands level tighter) l (operator :: ts) ((operator, right) :: more) rest
  -- unary → ( "!" | "-" | "++" | "--" ) unary | call ( "++" | "--" )?
  | before {l operator ts operand rest} (ho : isPrefixOperator operator)
      (h : Derives .unary l ts operand rest) :
      Derives .unary l (operator :: ts) (.unary operator operand .before) rest
  | after {l ts operand operator rest} (h : Derives .call l ts operand (operator :: rest))
      (ho : isPostfixOperator operator) :
      Derives .unary l ts (.unary operator operand .after) rest
  | bare {l ts e rest} (h : Derives .call l ts e rest) : Derives .unary l ts e rest
  -- call → primary ( "(" arguments? ")" | "[" expression "]" | "." NAME )*
  | call {l ts e ts' more rest} (hp : Derives .primary l ts e ts')
      (hm : Derives .suffixes l ts' more rest) :
      Derives .call l ts (more.foldl Suffix.attach e) rest
  | noSuffix {l rest} : Derives .suffixes l rest [] rest
  | callSuffix {l opening ts values paren ts' more rest} (ho : opening.isSymbol .leftParen)
      (ha : Derives (.arguments .rightParen) l ts (values, paren) ts')
      (hm : Derives .suffixes l ts' more rest) :
      Derives .suffixes l (opening :: ts) (.call paren values :: more) rest
  | indexSuffix {l bracket ts position close ts' more rest} (hb : bracket.isSymbol .leftBracket)
      (hp : Derives .expression l ts position (close :: ts')) (hc : close.isSymbol .rightBracket)
      (hm : Derives .suffixes l ts' more rest) :
      Derives .suffixes l (bracket :: ts) (.index bracket position :: more) rest
  | getSuffix {l dot name ts more rest} (hd : dot.isSymbol .dot) (hn : name.isIdentifier)
      (hm : Derives .suffixes l ts more rest) :
      Derives .suffixes l (dot :: name :: ts) (.get name :: more) rest
  -- primary → literals | "this" | NAME | "(" expression ")" | "[" arguments? "]" | lambda
  | falseLiteral {l t rest} (h : t.isKeyword .false_) :
      Derives .primary l (t :: rest) (.literal (.bool false)) rest
  | trueLiteral {l t rest} (h : t.isKeyword .true_) :
      Derives .primary l (t :: rest) (.literal (.bool true)) rest
  | nilLiteral {l t rest} (h : t.isKeyword .nil_) :
      Derives .primary l (t :: rest) (.literal .nil) rest
  | number {l t value rest} (h : t.kind = .number value) :
      Derives .primary l (t :: rest) (.literal (numberLiteral t.lexeme value)) rest
  | string {l t content rest} (h : t.kind = .string content) :
      Derives .primary l (t :: rest) (.literal (.string content)) rest
  | this {l t rest} (h : t.isKeyword .this_) : Derives .primary l (t :: rest) (.this 0 t) rest
  | name {l t rest} (h : t.isIdentifier) : Derives .primary l (t :: rest) (.variable 0 t) rest
  | group {l opening ts inner close rest} (ho : opening.isSymbol .leftParen)
      (h : Derives .expression l ts inner (close :: rest)) (hc : close.isSymbol .rightParen) :
      Derives .primary l (opening :: ts) (.group inner) rest
  | array {l bracket ts elements close rest} (hb : bracket.isSymbol .leftBracket)
      (h : Derives (.arguments .rightBracket) l ts (elements, close) rest) :
      Derives .primary l (bracket :: ts) (.array bracket elements) rest
  | lambda {l keyword opening ts names body rest} (hk : keyword.isKeyword .fun_)
      (ho : opening.isSymbol .leftParen) (h : Derives .functionTail l ts (names, body) rest) :
      Derives .primary l (keyword :: opening :: ts) (.lambda ⟨none, names, body, keyword⟩) rest
  -- arguments → expression ( "," expression )*, and at most so many
  | noArguments {closing l close rest} (hc : close.isSymbol closing) :
      Derives (.arguments closing) l (close :: rest) ([], close) rest
  | someArguments {closing l ts values close rest}
      (h : Derives (.argumentList maxArguments) l ts values (close :: rest))
      (hc : close.isSymbol closing) : Derives (.arguments closing) l ts (values, close) rest
  | lastArgument {allowed l ts e rest} (h : Derives .expression l ts e rest) :
      Derives (.argumentList (allowed + 1)) l ts [e] rest
  | nextArgument {allowed l ts e comma ts' es rest} (h : Derives .expression l ts e (comma :: ts'))
      (hc : comma.isSymbol .comma) (hm : Derives (.argumentList allowed) l ts' es rest) :
      Derives (.argumentList (allowed + 1)) l ts (e :: es) rest
  -- parameters → NAME ( "," NAME )*, and at most so many
  | lastParameter {allowed l name rest} (hn : name.isIdentifier) :
      Derives (.parameters (allowed + 1)) l (name :: rest) [name] rest
  | nextParameter {allowed l name comma ts names rest} (hn : name.isIdentifier)
      (hc : comma.isSymbol .comma) (hm : Derives (.parameters allowed) l ts names rest) :
      Derives (.parameters (allowed + 1)) l (name :: comma :: ts) (name :: names) rest
  -- function → NAME "(" parameters? ")" block
  | noParameters {l close opening ts body rest} (hc : close.isSymbol .rightParen)
      (ho : opening.isSymbol .leftBrace) (hb : Derives .block false ts body rest) :
      Derives .functionTail l (close :: opening :: ts) ([], body) rest
  | someParameters {l ts names close opening ts' body rest}
      (hp : Derives (.parameters maxArguments) l ts names (close :: opening :: ts'))
      (hc : close.isSymbol .rightParen) (ho : opening.isSymbol .leftBrace)
      (hb : Derives .block false ts' body rest) :
      Derives .functionTail l ts (names, body) rest
  | function {l name opening ts names body rest} (hn : name.isIdentifier)
      (ho : opening.isSymbol .leftParen) (h : Derives .functionTail l ts (names, body) rest) :
      Derives .function l (name :: opening :: ts) ⟨some name, names, body, name⟩ rest
  -- block → "{" declaration* "}"
  | block {l ts body close rest} (h : Derives .declarations l ts body (close :: rest))
      (hc : close.isSymbol .rightBrace) : Derives .block l ts body rest
  | noDeclaration {l rest} : Derives .declarations l rest [] rest
  | nextDeclaration {short l ts s ts' ss rest} (h : Derives (.declaration short) l ts s ts')
      (hm : Derives .declarations l ts' ss rest) : Derives .declarations l ts (s :: ss) rest
  -- declaration → "class" NAME "{" function* "}" | "fun" function | "var" varTail | statement
  | classDecl {l keyword name opening ts methods close rest} (hk : keyword.isKeyword .class_)
      (hn : name.isIdentifier) (ho : opening.isSymbol .leftBrace)
      (hm : Derives .methods l ts methods (close :: rest)) (hc : close.isSymbol .rightBrace) :
      Derives (.declaration false) l (keyword :: name :: opening :: ts) (.classDecl name methods) rest
  | functionDecl {l keyword ts decl rest} (hk : keyword.isKeyword .fun_)
      (h : Derives .function l ts decl rest) :
      Derives (.declaration false) l (keyword :: ts) (.function decl) rest
  | varDecl {l keyword ts s rest} (hk : keyword.isKeyword .var_) (h : Derives .varTail l ts s rest) :
      Derives (.declaration false) l (keyword :: ts) s rest
  | statementDecl {short l ts s rest} (h : Derives (.statement short) l ts s rest) :
      Derives (.declaration short) l ts s rest
  | noMethod {l rest} : Derives .methods l rest [] rest
  | nextMethod {l ts f ts' fs rest} (h : Derives .function l ts f ts')
      (hm : Derives .methods l ts' fs rest) : Derives .methods l ts (f :: fs) rest
  -- varTail → NAME ( "=" expression )? ( "," NAME ( "=" expression )? )* ";"
  | varTail {l ts bindings semicolon rest} (h : Derives .bindings l ts bindings (semicolon :: rest))
      (hs : semicolon.isSymbol .semicolon) : Derives .varTail l ts (.var bindings) rest
  | lastName {l name rest} (hn : name.isIdentifier) :
      Derives .bindings l (name :: rest) [(name, none)] rest
  | lastValue {l name equals ts value rest} (hn : name.isIdentifier) (he : equals.isSymbol .equal)
      (hv : Derives .expression l ts value rest) :
      Derives .bindings l (name :: equals :: ts) [(name, some value)] rest
  | nextName {l name comma ts more rest} (hn : name.isIdentifier) (hc : comma.isSymbol .comma)
      (hm : Derives .bindings l ts more rest) :
      Derives .bindings l (name :: comma :: ts) ((name, none) :: more) rest
  | nextValue {l name equals ts value comma ts' more rest} (hn : name.isIdentifier)
      (he : equals.isSymbol .equal) (hv : Derives .expression l ts value (comma :: ts'))
      (hc : comma.isSymbol .comma) (hm : Derives .bindings l ts' more rest) :
      Derives .bindings l (name :: equals :: ts) ((name, some value) :: more) rest
  -- the parts of a "for"
  | noStart {l semicolon rest} (hs : semicolon.isSymbol .semicolon) :
      Derives .forStart l (semicolon :: rest) none rest
  | varStart {l keyword ts s rest} (hk : keyword.isKeyword .var_)
      (h : Derives .varTail l ts s rest) : Derives .forStart l (keyword :: ts) (some s) rest
  | expressionStart {l ts e semicolon rest} (h : Derives .expression l ts e (semicolon :: rest))
      (hs : semicolon.isSymbol .semicolon) : Derives .forStart l ts (some (.expression e)) rest
  | absent {closing l close rest} (hc : close.isSymbol closing) :
      Derives (.optional closing) l (close :: rest) none (close :: rest)
  | present {closing l ts e rest} (h : Derives .expression l ts e rest) :
      Derives (.optional closing) l ts (some e) rest
  -- statement → "for" … | "if" … | "while" … | "return" … | "break" ";" | "continue" ";"
  --   | "{" block | "print" expression ";" | expression ";"
  | forStatement {short l keyword opening ts first ts₁ condition semicolon ts₂ increment close ts₃
      body rest} (hk : keyword.isKeyword .for_) (ho : opening.isSymbol .leftParen)
      (hs : Derives .forStart l ts first ts₁)
      (hc : Derives (.optional .semicolon) l ts₁ condition (semicolon :: ts₂))
      (hm : semicolon.isSymbol .semicolon)
      (hi : Derives (.optional .rightParen) l ts₂ increment (close :: ts₃))
      (hp : close.isSymbol .rightParen) (hb : Derives (.statement short) true ts₃ body rest) :
      Derives (.statement short) l (keyword :: opening :: ts) (forLoop first condition increment body)
        rest
  | ifStatement {short l keyword opening ts condition close ts' whenTrue rest}
      (hk : keyword.isKeyword .if_) (ho : opening.isSymbol .leftParen)
      (hc : Derives .expression l ts condition (close :: ts')) (hp : close.isSymbol .rightParen)
      (ht : Derives (.statement short) l ts' whenTrue rest) :
      Derives (.statement true) l (keyword :: opening :: ts) (.conditional condition whenTrue none)
        rest
  | elseStatement {short l keyword opening ts condition close ts₁ whenTrue other ts₂ whenFalse rest}
      (hk : keyword.isKeyword .if_) (ho : opening.isSymbol .leftParen)
      (hc : Derives .expression l ts condition (close :: ts₁)) (hp : close.isSymbol .rightParen)
      (ht : Derives (.statement false) l ts₁ whenTrue (other :: ts₂)) (he : other.isKeyword .else_)
      (hf : Derives (.statement short) l ts₂ whenFalse rest) :
      Derives (.statement short) l (keyword :: opening :: ts)
        (.conditional condition whenTrue (some whenFalse)) rest
  | whileStatement {short l keyword opening ts condition close ts' body rest}
      (hk : keyword.isKeyword .while_) (ho : opening.isSymbol .leftParen)
      (hc : Derives .expression l ts condition (close :: ts')) (hp : close.isSymbol .rightParen)
      (hb : Derives (.statement short) true ts' body rest) :
      Derives (.statement short) l (keyword :: opening :: ts) (.loop condition body none) rest
  | returnStatement {l keyword ts value semicolon rest} (hk : keyword.isKeyword .return_)
      (h : Derives (.optional .semicolon) l ts value (semicolon :: rest))
      (hs : semicolon.isSymbol .semicolon) :
      Derives (.statement false) l (keyword :: ts) (.returning keyword value) rest
  | breakStatement {keyword semicolon rest} (hk : keyword.isKeyword .break_)
      (hs : semicolon.isSymbol .semicolon) :
      Derives (.statement false) true (keyword :: semicolon :: rest) (.breaking keyword) rest
  | continueStatement {keyword semicolon rest} (hk : keyword.isKeyword .continue_)
      (hs : semicolon.isSymbol .semicolon) :
      Derives (.statement false) true (keyword :: semicolon :: rest) (.continuing keyword) rest
  | blockStatement {l opening ts body rest} (ho : opening.isSymbol .leftBrace)
      (h : Derives .block l ts body rest) :
      Derives (.statement false) l (opening :: ts) (.block body) rest
  | printStatement {l keyword ts e semicolon rest} (hk : keyword.isKeyword .print_)
      (h : Derives .expression l ts e (semicolon :: rest)) (hs : semicolon.isSymbol .semicolon) :
      Derives (.statement false) l (keyword :: ts) (.print e) rest
  | expressionStatement {l ts e semicolon rest} (h : Derives .expression l ts e (semicolon :: rest))
      (hs : semicolon.isSymbol .semicolon) :
      Derives (.statement false) l ts (.expression e) rest

/-- The tokens before the end of the source are declarations, outside of all loops. -/
def IsProgram (tokens : List Token) (program : List Stmt) : Prop :=
  Derives .declarations false tokens program []

/-! ### Assignment targets -/

def Expr.isTarget : Expr → Bool
  | .variable _ _ => true
  | .get _ _ => true
  | _ => false

namespace Derives

variable {l : Bool} {ts rest : List Token} {e : Expr}

theorem isTarget_node (level : Level) (left right : Expr) (operator : Token) :
    (level.node left operator right).isTarget = false := by
  cases level <;> rfl

theorem isTarget_foldl {level : Level} {more : List (Token × Expr)}
    (h : (more.foldl level.attach e).isTarget) : more = [] := by
  rcases List.eq_nil_or_concat more with rfl | ⟨init, last, rfl⟩
  · rfl
  · rw [List.concat_eq_append, List.foldl_append] at h
    change (level.node _ _ _).isTarget = true at h
    rw [isTarget_node] at h
    cases h

theorem call_of_unary (h : Derives .unary l ts e rest) (he : e.isTarget) :
    Derives .call l ts e rest := by
  cases h with
  | before => cases he
  | after => cases he
  | bare h => exact h

theorem call_of_binary {levels : List Level} (h : Derives (.binary levels) l ts e rest)
    (he : e.isTarget) : Derives .call l ts e rest := by
  induction levels generalizing e rest with
  | nil =>
    cases h with
    | tightest h => exact h.call_of_unary he
  | cons level tighter ih =>
    cases h with
    | level hf hm =>
      obtain rfl := isTarget_foldl he
      cases hm
      exact ih hf he

theorem binary_of_call (h : Derives .call l ts e rest) (levels : List Level) :
    Derives (.binary levels) l ts e rest := by
  induction levels with
  | nil => exact .tightest (.bare h)
  | cons level tighter ih => exact .level ih .noOperand

/-- A target is a call, with nothing around it. -/
theorem call_of_ternary (h : Derives .ternary l ts e rest) (he : e.isTarget) :
    Derives .call l ts e rest := by
  cases h with
  | noChoice h => exact h.call_of_binary he
  | choice => cases he

theorem variable_of_call {name : Token} (h : Derives .call l ts (.variable 0 name) rest) :
    ts = name :: rest ∧ name.isIdentifier := by
  generalize he : Expr.variable 0 name = e at h
  cases h with
  | @call _ _ e _ more _ hp hm =>
    rcases List.eq_nil_or_concat more with rfl | ⟨init, last, rfl⟩
    · cases hm
      change Expr.variable 0 name = e at he
      subst he
      cases hp with
      | name h => exact ⟨rfl, h⟩
    · rw [List.concat_eq_append, List.foldl_append] at he
      change Expr.variable 0 name = Suffix.attach _ last at he
      cases last <;> cases he

end Derives

end TreeWalk
