import TreeWalk.Proofs.Relocation
import TreeWalk.Tree.Parser

/-!
# Reading renamed tokens

A reader looks at kinds and texts of tokens only, and gives references out one after the other. So
tokens on other lines, read from another reference on, give the tree with these lines and references
(`parseProgram_rename`), or the same faults on the other lines. A renaming that moves all references
alike is one that `Counts`.
-/

namespace TreeWalk

/-- The reference after another one stays the one after it. -/
def Renaming.Counts (ρ : Renaming) : Prop :=
  ∀ r, ρ.reference (r + 1) = ρ.reference r + 1

def SyntaxFault.rename (ρ : Renaming) (f : SyntaxFault) : SyntaxFault :=
  { f with place := f.place.rename ρ }

def Cursor.rename (ρ : Renaming) (c : Cursor) : Cursor where
  rest := c.rest.map (Token.rename ρ)
  endLine := ρ.line c.endLine
  loops := c.loops
  faults := c.faults.map (SyntaxFault.rename ρ)
  nextReference := ρ.reference c.nextReference

/-- What was read becomes `f` of it. -/
def Reply.rename {α : Type} (ρ : Renaming) (f : α → α) : Reply α → Reply α
  | .done a c => .done (f a) (c.rename ρ)
  | .failed fault c => .failed (fault.rename ρ) (c.rename ρ)

theorem Cursor.place_rename (ρ : Renaming) (c : Cursor) :
    (c.rename ρ).place = c.place.rename ρ := by
  obtain ⟨_ | ⟨t, rest⟩, endLine, loops, faults, n⟩ := c <;> rfl

namespace Production

variable {α β : Type} {ρ : Renaming} {f : α → α} {g : β → β}

/-- On renamed tokens `p'` reads what `p` reads, renamed by `f`. -/
def Natural (ρ : Renaming) (f : α → α) (p p' : Production α) : Prop :=
  ∀ c : Cursor, p' (c.rename ρ) = (p c).rename ρ f

/-! ### The parts -/

theorem natural_pure (a : α) : Natural ρ f (pure a) (pure (f a)) := fun _ => rfl

theorem natural_bind {p p' : Production α} {k k' : α → Production β} (hp : Natural ρ f p p')
    (hk : ∀ a, Natural ρ g (k a) (k' (f a))) : Natural ρ g (p >>= k) (p' >>= k') := by
  intro c
  show Production.bind p' k' (c.rename ρ) = (Production.bind p k c).rename ρ g
  unfold Production.bind
  rw [hp c]
  cases p c with
  | done a c' => exact hk a c'
  | failed fault c' => rfl

theorem natural_fail (cause : SyntaxCause) : Natural ρ f (fail cause) (fail cause) := by
  intro c
  rw [fail, Cursor.place_rename]
  rfl

theorem natural_failAt (t : Token) (cause : SyntaxCause) :
    Natural ρ f (failAt t cause) (failAt (t.rename ρ) cause) := by
  intro c
  rw [failAt, Token.place_rename]
  rfl

section

variable {p : Token → Bool} (hp : ∀ t, p (t.rename ρ) = p t)

include hp

theorem natural_check : Natural ρ id (check p) (check p) := by
  rintro ⟨_ | ⟨t, rest⟩, endLine, loops, faults, n⟩
  · rfl
  · exact congrArg (fun b => Reply.done b _) (hp t)

theorem natural_accept? : Natural ρ (Option.map (Token.rename ρ)) (accept? p) (accept? p) := by
  rintro ⟨_ | ⟨t, rest⟩, endLine, loops, faults, n⟩
  · rfl
  · simp only [accept?, Cursor.rename, List.map_cons, hp]
    split <;> rfl

theorem natural_expect (what : Expected) :
    Natural ρ (Token.rename ρ) (expect p what) (expect p what) := by
  rintro ⟨_ | ⟨t, rest⟩, endLine, loops, faults, n⟩
  · rfl
  · simp only [expect, Cursor.rename, List.map_cons, hp]
    split <;> rfl

end

theorem natural_symbol? (s : Symbol) :
    Natural ρ (Option.map (Token.rename ρ)) (symbol? s) (symbol? s) :=
  natural_accept? fun _ => rfl

theorem natural_keyword? (k : Keyword) :
    Natural ρ (Option.map (Token.rename ρ)) (keyword? k) (keyword? k) :=
  natural_accept? fun _ => rfl

theorem natural_symbol (s : Symbol) (what : Expected) :
    Natural ρ (Token.rename ρ) (symbol s what) (symbol s what) :=
  natural_expect (fun _ => rfl) what

theorem natural_identifier (what : Expected) :
    Natural ρ (Token.rename ρ) (identifier what) (identifier what) :=
  natural_expect (fun _ => rfl) what

theorem natural_endsBlock : Natural ρ id endsBlock endsBlock := by
  rintro ⟨_ | ⟨t, rest⟩, endLine, loops, faults, n⟩ <;> rfl

theorem natural_startsFunction : Natural ρ id startsFunction startsFunction := by
  rintro ⟨_ | ⟨t, _ | ⟨t', rest⟩⟩, endLine, loops, faults, n⟩ <;> rfl

theorem natural_freshReference (hρ : ρ.Counts) :
    Natural ρ ρ.reference freshReference freshReference := by
  intro c
  simp only [freshReference, Cursor.rename, Reply.rename, hρ c.nextReference]

theorem natural_withLoops {p p' : Production α} (enter : Nat → Nat) (leave : Nat → Nat → Nat)
    (hp : Natural ρ f p p') : Natural ρ f (withLoops enter leave p) (withLoops enter leave p') := by
  intro c
  have h := hp { c with loops := enter c.loops }
  simp only [Cursor.rename] at h
  simp only [withLoops, Cursor.rename, h]
  cases p { c with loops := enter c.loops } <;> rfl

theorem skipFrom_rename (last : Token) (ts : List Token) :
    skipFrom (last.rename ρ) (ts.map (Token.rename ρ)) =
      (skipFrom last ts).map (Token.rename ρ) := by
  induction ts generalizing last with
  | nil => rfl
  | cons t rest ih =>
    have hstarts : startsStatement (t.rename ρ) = startsStatement t := rfl
    rw [List.map_cons, skipFrom, skipFrom, hstarts, Token.isSymbol_rename, ih]
    split <;> rfl

theorem resume_rename (ts : List Token) :
    resume (ts.map (Token.rename ρ)) = (resume ts).map (Token.rename ρ) := by
  cases ts with
  | nil => rfl
  | cons t rest => exact skipFrom_rename t rest

theorem natural_recovering {p p' : Production α} (hp : Natural ρ f p p') :
    Natural ρ (Option.map f) (recovering p) (recovering p') := by
  intro c
  rw [recovering, recovering, hp c]
  cases p c with
  | done a c' => rfl
  | failed fault c' => simp [Reply.rename, Cursor.rename, resume_rename]

/-- What follows the last item of a list, and what follows a comma. -/
theorem natural_comma {k k' : Option Token → Production β} (hlast : Natural ρ g (k none) (k' none))
    (hnext : ∀ t, Natural ρ g (k (some t)) (k' (some (t.rename ρ)))) :
    Natural ρ g (symbol? .comma >>= k) (symbol? .comma >>= k') := by
  refine natural_bind (natural_symbol? _) fun comma => ?_
  cases comma with
  | none => exact hlast
  | some t => exact hnext t

theorem natural_parameters (allowed : Nat) :
    Natural ρ (List.map (Token.rename ρ)) (parameters allowed) (parameters allowed) := by
  induction allowed with
  | zero => exact natural_fail _
  | succ allowed ih =>
    rw [parameters]
    exact natural_bind (natural_identifier _) fun name => natural_comma (natural_pure [name])
      fun _ => natural_bind ih fun names => natural_pure (name :: names)

theorem natural_jumpStatement (outside : SyntaxCause) (what : Expected) (node : Token → Stmt)
    (hnode : ∀ t, (node t).rename ρ = node (t.rename ρ)) (keyword : Token) :
    Natural ρ (Stmt.rename ρ) (jumpStatement outside what node keyword)
      (jumpStatement outside what node (keyword.rename ρ)) := by
  intro c
  have hloops : (c.rename ρ).loops = c.loops := rfl
  simp only [jumpStatement, hloops]
  split
  · exact natural_failAt keyword outside c
  · have hread : Natural ρ (Stmt.rename ρ)
        (do let _ ← symbol .semicolon what; return node keyword)
        (do let _ ← symbol .semicolon what; return node (keyword.rename ρ)) :=
      natural_bind (natural_symbol _ _) fun _ => hnode keyword ▸ natural_pure _
    exact hread c

/-! ### The productions -/

/-- The arguments and the token that closes them. -/
def renameArguments (ρ : Renaming) (a : List Expr × Token) : List Expr × Token :=
  (renameExprs ρ a.1, a.2.rename ρ)

/-- All productions that count down fuel read renamed tokens in this way with so much of it. -/
structure AllNatural (ρ : Renaming) (fuel : Nat) : Prop where
  expression : Natural ρ (Expr.rename ρ) (expression fuel) (expression fuel)
  ternary : Natural ρ (Expr.rename ρ) (ternary fuel) (ternary fuel)
  binary : ∀ levels, Natural ρ (Expr.rename ρ) (binary fuel levels) (binary fuel levels)
  binaryRest : ∀ level tighter left, Natural ρ (Expr.rename ρ) (binaryRest fuel level tighter left)
    (binaryRest fuel level tighter (left.rename ρ))
  unary : Natural ρ (Expr.rename ρ) (unary fuel) (unary fuel)
  callRest : ∀ callee, Natural ρ (Expr.rename ρ) (callRest fuel callee)
    (callRest fuel (callee.rename ρ))
  arguments : ∀ closing what, Natural ρ (renameArguments ρ) (arguments fuel closing what)
    (arguments fuel closing what)
  argumentList : ∀ allowed, Natural ρ (renameExprs ρ) (argumentList fuel allowed)
    (argumentList fuel allowed)
  primary : Natural ρ (Expr.rename ρ) (primary fuel) (primary fuel)
  functionTail : ∀ kind name keyword, Natural ρ (FunctionDecl.rename ρ)
    (functionTail fuel kind name keyword)
    (functionTail fuel kind (name.map (Token.rename ρ)) (keyword.rename ρ))
  function : ∀ kind, Natural ρ (FunctionDecl.rename ρ) (function fuel kind) (function fuel kind)
  block : Natural ρ (renameStmts ρ) (block fuel) (block fuel)
  declarations : Natural ρ (renameStmts ρ) (declarations fuel) (declarations fuel)
  declaration : Natural ρ (Stmt.rename ρ) (declaration fuel) (declaration fuel)
  methods : Natural ρ (renameMethods ρ) (methods fuel) (methods fuel)
  varDeclaration : Natural ρ (Stmt.rename ρ) (varDeclaration fuel) (varDeclaration fuel)
  bindings : Natural ρ (renameBindings ρ) (bindings fuel) (bindings fuel)
  statement : Natural ρ (Stmt.rename ρ) (statement fuel) (statement fuel)
  loopBody : Natural ρ (Stmt.rename ρ) (loopBody fuel) (loopBody fuel)
  forStart : Natural ρ (Option.map (Stmt.rename ρ)) (forStart fuel) (forStart fuel)
  optionalExpression : ∀ closing, Natural ρ (Option.map (Expr.rename ρ))
    (optionalExpression fuel closing) (optionalExpression fuel closing)
  forStatement : Natural ρ (Stmt.rename ρ) (forStatement fuel) (forStatement fuel)
  ifStatement : Natural ρ (Stmt.rename ρ) (ifStatement fuel) (ifStatement fuel)
  whileStatement : Natural ρ (Stmt.rename ρ) (whileStatement fuel) (whileStatement fuel)
  returnStatement : ∀ keyword, Natural ρ (Stmt.rename ρ) (returnStatement fuel keyword)
    (returnStatement fuel (keyword.rename ρ))
  blockStatement : Natural ρ (Stmt.rename ρ) (blockStatement fuel) (blockStatement fuel)
  printStatement : Natural ρ (Stmt.rename ρ) (printStatement fuel) (printStatement fuel)
  expressionStatement : Natural ρ (Stmt.rename ρ) (expressionStatement fuel)
    (expressionStatement fuel)

theorem allNatural_zero : AllNatural ρ 0 := by
  constructor <;> intros <;> exact natural_fail _

section

variable {fuel : Nat} (ih : AllNatural ρ fuel)

include ih

theorem natural_expression (hρ : ρ.Counts) :
    Natural ρ (Expr.rename ρ) (expression (fuel + 1)) (expression (fuel + 1)) := by
  rw [expression]
  refine natural_bind ih.ternary fun target => natural_bind (natural_symbol? _) fun equals => ?_
  cases equals with
  | none => exact natural_pure target
  | some equals =>
    refine natural_bind ih.expression fun value => ?_
    cases target with
    | «variable» reference name =>
      exact natural_bind (natural_freshReference hρ) fun r =>
        natural_pure (Expr.assign r name value)
    | get object name => exact natural_pure (Expr.set object name value)
    | _ => exact natural_failAt _ _

theorem natural_ternary : Natural ρ (Expr.rename ρ) (ternary (fuel + 1)) (ternary (fuel + 1)) := by
  rw [ternary]
  refine natural_bind (ih.binary _) fun condition =>
    natural_bind (natural_symbol? _) fun question => ?_
  cases question with
  | none => exact natural_pure condition
  | some _ =>
    exact natural_bind ih.ternary fun whenTrue => natural_bind (natural_symbol _ _) fun _ =>
      natural_bind ih.ternary fun whenFalse =>
        natural_pure (Expr.ternary condition whenTrue whenFalse)

theorem natural_binary (levels : List Level) :
    Natural ρ (Expr.rename ρ) (binary (fuel + 1) levels) (binary (fuel + 1) levels) := by
  cases levels with
  | nil =>
    rw [binary]
    exact ih.unary
  | cons level tighter =>
    rw [binary]
    exact natural_bind (ih.binary _) fun left => ih.binaryRest level tighter left

theorem natural_binaryRest (level : Level) (tighter : List Level) (left : Expr) :
    Natural ρ (Expr.rename ρ) (binaryRest (fuel + 1) level tighter left)
      (binaryRest (fuel + 1) level tighter (left.rename ρ)) := by
  rw [binaryRest, binaryRest]
  have hoperator : ∀ t, level.hasOperator (t.rename ρ) = level.hasOperator t := fun _ => rfl
  refine natural_bind (natural_accept? hoperator) fun operator => ?_
  cases operator with
  | none => exact natural_pure left
  | some operator =>
    refine natural_bind (ih.binary _) fun right => ?_
    have hnode : level.node (left.rename ρ) (operator.rename ρ) (right.rename ρ) =
        (level.node left operator right).rename ρ := by
      cases level <;> rfl
    simp only [hnode]
    exact ih.binaryRest _ _ _

theorem natural_unary : Natural ρ (Expr.rename ρ) (unary (fuel + 1)) (unary (fuel + 1)) := by
  rw [unary]
  refine natural_bind (natural_accept? fun _ => rfl) fun operator => ?_
  cases operator with
  | some operator =>
    exact natural_bind ih.unary fun operand => natural_pure (Expr.unary operator operand .before)
  | none =>
    refine natural_bind ih.primary fun first => natural_bind (ih.callRest first) fun operand =>
      natural_bind (natural_accept? fun _ => rfl) fun operator => ?_
    cases operator with
    | some operator => exact natural_pure (Expr.unary operator operand .after)
    | none => exact natural_pure operand

theorem natural_callRest (callee : Expr) :
    Natural ρ (Expr.rename ρ) (callRest (fuel + 1) callee)
      (callRest (fuel + 1) (callee.rename ρ)) := by
  rw [callRest, callRest]
  refine natural_bind (natural_symbol? _) fun paren => ?_
  cases paren with
  | some _ =>
    exact natural_bind (ih.arguments _ _) fun a => ih.callRest (.call callee a.2 a.1)
  | none =>
    refine natural_bind (natural_symbol? _) fun bracket => ?_
    cases bracket with
    | some bracket =>
      exact natural_bind ih.expression fun position => natural_bind (natural_symbol _ _) fun _ =>
        ih.callRest (.index callee bracket position)
    | none =>
      refine natural_bind (natural_symbol? _) fun dot => ?_
      cases dot with
      | some _ =>
        exact natural_bind (natural_identifier _) fun name => ih.callRest (.get callee name)
      | none => exact natural_pure callee

theorem natural_arguments (closing : Symbol) (what : Expected) :
    Natural ρ (renameArguments ρ) (arguments (fuel + 1) closing what)
      (arguments (fuel + 1) closing what) := by
  rw [arguments]
  refine natural_bind (natural_check fun _ => rfl) fun closes => ?_
  have hrest : ∀ values : List Expr, Natural ρ (renameArguments ρ) (do
      let close ← symbol closing what
      return (values, close)) (do
      let close ← symbol closing what
      return (renameExprs ρ values, close)) := fun values =>
    natural_bind (natural_symbol _ _) fun close => natural_pure (values, close)
  cases closes with
  | true => exact natural_bind (natural_pure []) hrest
  | false => exact natural_bind (ih.argumentList _) hrest

theorem natural_argumentList (allowed : Nat) :
    Natural ρ (renameExprs ρ) (argumentList (fuel + 1) allowed)
      (argumentList (fuel + 1) allowed) := by
  cases allowed with
  | zero =>
    rw [argumentList]
    exact natural_fail _
  | succ allowed =>
    rw [argumentList]
    exact natural_bind ih.expression fun value => natural_comma (natural_pure [value]) fun _ =>
      natural_bind (ih.argumentList _) fun values => natural_pure (value :: values)

theorem natural_primary (hρ : ρ.Counts) :
    Natural ρ (Expr.rename ρ) (primary (fuel + 1)) (primary (fuel + 1)) := by
  rintro ⟨_ | ⟨t, rest⟩, endLine, loops, faults, n⟩
  · rw [primary]
    exact natural_fail _ _
  · rw [primary]
    simp only [Cursor.rename, List.map_cons, Token.rename_kind, Token.rename_lexeme]
    have hread {p p' : Production Expr} (hp : Natural ρ (Expr.rename ρ) p p') :=
      hp ⟨rest, endLine, loops, faults, n⟩
    cases t.kind with
    | endOfSource => exact natural_fail _ ⟨t :: rest, endLine, loops, faults, n⟩
    | number value => rfl
    | string content => rfl
    | identifier =>
      exact hread (natural_bind (natural_freshReference hρ) fun r =>
        natural_pure (Expr.variable r t))
    | symbol s =>
      cases s with
      | leftParen =>
        exact hread (natural_bind ih.expression fun inner =>
          natural_bind (natural_symbol _ _) fun _ => natural_pure (Expr.group inner))
      | leftBracket =>
        exact hread (natural_bind (ih.arguments _ _) fun a => natural_pure (Expr.array t a.1))
      | _ => exact natural_fail _ ⟨t :: rest, endLine, loops, faults, n⟩
    | keyword k =>
      cases k with
      | false_ | true_ | nil_ => rfl
      | this_ =>
        exact hread (natural_bind (natural_freshReference hρ) fun r => natural_pure (Expr.this r t))
      | fun_ =>
        exact hread (natural_bind (natural_symbol _ _) fun _ =>
          natural_bind (ih.functionTail _ none t) fun decl => natural_pure (Expr.lambda decl))
      | _ => exact natural_fail _ ⟨t :: rest, endLine, loops, faults, n⟩

theorem natural_functionTail (kind : FunctionKind) (name : Option Token) (keyword : Token) :
    Natural ρ (FunctionDecl.rename ρ) (functionTail (fuel + 1) kind name keyword)
      (functionTail (fuel + 1) kind (name.map (Token.rename ρ)) (keyword.rename ρ)) := by
  rw [functionTail, functionTail]
  refine natural_bind (natural_check fun _ => rfl) fun closes => ?_
  have hrest : ∀ names : List Token, Natural ρ (FunctionDecl.rename ρ) (do
      let _ ← symbol .rightParen .closeParameters
      let _ ← symbol .leftBrace (.openFunctionBody kind)
      let body ← withLoops (fun _ => 0) (fun before _ => before) (block fuel)
      return (⟨name, names, body, keyword⟩ : FunctionDecl)) (do
      let _ ← symbol .rightParen .closeParameters
      let _ ← symbol .leftBrace (.openFunctionBody kind)
      let body ← withLoops (fun _ => 0) (fun before _ => before) (block fuel)
      return (⟨name.map (Token.rename ρ), names.map (Token.rename ρ), body, keyword.rename ρ⟩ :
        FunctionDecl)) := fun names =>
    natural_bind (natural_symbol _ _) fun _ => natural_bind (natural_symbol _ _) fun _ =>
      natural_bind (natural_withLoops _ _ ih.block) fun body =>
        natural_pure (⟨name, names, body, keyword⟩ : FunctionDecl)
  cases closes with
  | true => exact natural_bind (natural_pure []) hrest
  | false => exact natural_bind (natural_parameters _) hrest

theorem natural_function (kind : FunctionKind) :
    Natural ρ (FunctionDecl.rename ρ) (function (fuel + 1) kind) (function (fuel + 1) kind) := by
  rw [function]
  exact natural_bind (natural_identifier _) fun name => natural_bind (natural_symbol _ _) fun _ =>
    ih.functionTail _ (some name) name

theorem natural_block : Natural ρ (renameStmts ρ) (block (fuel + 1)) (block (fuel + 1)) := by
  rw [block]
  exact natural_bind ih.declarations fun body => natural_bind (natural_symbol _ _) fun _ =>
    natural_pure body

theorem natural_declarations :
    Natural ρ (renameStmts ρ) (declarations (fuel + 1)) (declarations (fuel + 1)) := by
  rw [declarations]
  refine natural_bind natural_endsBlock fun ends => ?_
  cases ends with
  | true => exact natural_pure []
  | false =>
    refine natural_bind (natural_recovering ih.declaration) fun first => ?_
    cases first with
    | some first => exact natural_bind ih.declarations fun rest => natural_pure (first :: rest)
    | none => exact ih.declarations

theorem natural_declaration :
    Natural ρ (Stmt.rename ρ) (declaration (fuel + 1)) (declaration (fuel + 1)) := by
  rw [declaration]
  refine natural_bind (natural_keyword? _) fun class_ => ?_
  cases class_ with
  | some _ =>
    exact natural_bind (natural_identifier _) fun name => natural_bind (natural_symbol _ _) fun _ =>
      natural_bind ih.methods fun members => natural_bind (natural_symbol _ _) fun _ =>
      natural_pure (Stmt.classDecl name members)
  | none =>
    refine natural_bind natural_startsFunction fun starts => ?_
    cases starts with
    | true =>
      exact natural_bind (natural_keyword? _) fun _ => natural_bind (ih.function _) fun decl =>
        natural_pure (Stmt.function decl)
    | false =>
      refine natural_bind (natural_keyword? _) fun var => ?_
      cases var with
      | some _ => exact ih.varDeclaration
      | none => exact ih.statement

theorem natural_methods :
    Natural ρ (renameMethods ρ) (methods (fuel + 1)) (methods (fuel + 1)) := by
  rw [methods]
  refine natural_bind natural_endsBlock fun ends => ?_
  cases ends with
  | true => exact natural_pure []
  | false =>
    exact natural_bind (ih.function _) fun first => natural_bind ih.methods fun rest =>
      natural_pure (first :: rest)

theorem natural_varDeclaration :
    Natural ρ (Stmt.rename ρ) (varDeclaration (fuel + 1)) (varDeclaration (fuel + 1)) := by
  rw [varDeclaration]
  exact natural_bind ih.bindings fun names => natural_bind (natural_symbol _ _) fun _ =>
    natural_pure (Stmt.var names)

/-- What follows a variable and its value: nothing, or a comma and more variables. -/
theorem natural_moreBindings (name : Token) (value : Option Expr)
    {k k' : Option Token → Production (List (Token × Option Expr))}
    (hlast : k none = pure [(name, value)])
    (hnext : ∀ t, k (some t) = do return (name, value) :: (← bindings fuel))
    (hlast' : k' none = pure [(name.rename ρ, value.map (Expr.rename ρ))])
    (hnext' : ∀ t, k' (some t) = do
      return (name.rename ρ, value.map (Expr.rename ρ)) :: (← bindings fuel)) :
    Natural ρ (renameBindings ρ) (symbol? .comma >>= k) (symbol? .comma >>= k') := by
  refine natural_comma ?_ fun t => ?_
  · rw [hlast, hlast']
    cases value with
    | none => exact natural_pure [(name, none)]
    | some value => exact natural_pure [(name, some value)]
  · rw [hnext, hnext']
    refine natural_bind ih.bindings fun rest => ?_
    cases value with
    | none => exact natural_pure ((name, none) :: rest)
    | some value => exact natural_pure ((name, some value) :: rest)

theorem natural_bindings :
    Natural ρ (renameBindings ρ) (bindings (fuel + 1)) (bindings (fuel + 1)) := by
  rw [bindings]
  refine natural_bind (natural_identifier _) fun name =>
    natural_bind (natural_symbol? _) fun equals => ?_
  cases equals with
  | none =>
    exact natural_bind (natural_pure none) fun value =>
      natural_moreBindings ih name value rfl (fun _ => rfl) rfl fun _ => rfl
  | some _ =>
    exact natural_bind (natural_bind ih.expression fun value => natural_pure (some value))
      fun value => natural_moreBindings ih name value rfl (fun _ => rfl) rfl fun _ => rfl

theorem natural_statement :
    Natural ρ (Stmt.rename ρ) (statement (fuel + 1)) (statement (fuel + 1)) := by
  rintro ⟨_ | ⟨t, rest⟩, endLine, loops, faults, n⟩
  · rw [statement]
    exact ih.expressionStatement _
  · rw [statement]
    simp only [Cursor.rename, List.map_cons, Token.rename_kind]
    have hread {p p' : Production Stmt} (hp : Natural ρ (Stmt.rename ρ) p p') :=
      hp ⟨rest, endLine, loops, faults, n⟩
    cases t.kind with
    | symbol s =>
      cases s with
      | leftBrace => exact hread ih.blockStatement
      | _ => exact ih.expressionStatement ⟨t :: rest, endLine, loops, faults, n⟩
    | keyword k =>
      cases k with
      | for_ => exact hread ih.forStatement
      | if_ => exact hread ih.ifStatement
      | while_ => exact hread ih.whileStatement
      | return_ => exact hread (ih.returnStatement t)
      | break_ | continue_ => exact hread (natural_jumpStatement _ _ _ (fun _ => rfl) t)
      | print_ => exact hread ih.printStatement
      | _ => exact ih.expressionStatement ⟨t :: rest, endLine, loops, faults, n⟩
    | _ => exact ih.expressionStatement ⟨t :: rest, endLine, loops, faults, n⟩

theorem natural_loopBody :
    Natural ρ (Stmt.rename ρ) (loopBody (fuel + 1)) (loopBody (fuel + 1)) := by
  rw [loopBody]
  exact natural_withLoops _ _ ih.statement

theorem natural_forStart :
    Natural ρ (Option.map (Stmt.rename ρ)) (forStart (fuel + 1)) (forStart (fuel + 1)) := by
  rw [forStart]
  refine natural_bind (natural_symbol? _) fun semicolon => ?_
  cases semicolon with
  | some _ => exact natural_pure none
  | none =>
    refine natural_bind (natural_keyword? _) fun var => ?_
    cases var with
    | some _ => exact natural_bind ih.varDeclaration fun first => natural_pure (some first)
    | none => exact natural_bind ih.expressionStatement fun first => natural_pure (some first)

theorem natural_optionalExpression (closing : Symbol) :
    Natural ρ (Option.map (Expr.rename ρ)) (optionalExpression (fuel + 1) closing)
      (optionalExpression (fuel + 1) closing) := by
  rw [optionalExpression]
  refine natural_bind (natural_check fun _ => rfl) fun closes => ?_
  cases closes with
  | true => exact natural_pure none
  | false => exact natural_bind ih.expression fun e => natural_pure (some e)

theorem natural_forStatement :
    Natural ρ (Stmt.rename ρ) (forStatement (fuel + 1)) (forStatement (fuel + 1)) := by
  rw [forStatement]
  refine natural_bind (natural_symbol _ _) fun _ => natural_bind ih.forStart fun first =>
    natural_bind (ih.optionalExpression _) fun condition => natural_bind (natural_symbol _ _) fun _ =>
    natural_bind (ih.optionalExpression _) fun increment => natural_bind (natural_symbol _ _) fun _ =>
    natural_bind ih.loopBody fun body => ?_
  have hloop : Stmt.loop ((condition.map (Expr.rename ρ)).getD (.literal (.bool true)))
      (body.rename ρ) (increment.map (Expr.rename ρ)) =
      (Stmt.loop (condition.getD (.literal (.bool true))) body increment).rename ρ := by
    cases condition <;> cases increment <;> rfl
  simp only [hloop]
  cases first with
  | some first => exact natural_pure (Stmt.block [first, .loop _ _ _])
  | none => exact natural_pure (Stmt.loop _ _ _)

theorem natural_ifStatement :
    Natural ρ (Stmt.rename ρ) (ifStatement (fuel + 1)) (ifStatement (fuel + 1)) := by
  rw [ifStatement]
  refine natural_bind (natural_symbol _ _) fun _ => natural_bind ih.expression fun condition =>
    natural_bind (natural_symbol _ _) fun _ => natural_bind ih.statement fun whenTrue =>
    natural_bind (natural_keyword? _) fun other => ?_
  cases other with
  | some _ =>
    exact natural_bind ih.statement fun whenFalse =>
      natural_pure (Stmt.conditional condition whenTrue (some whenFalse))
  | none => exact natural_pure (Stmt.conditional condition whenTrue none)

theorem natural_whileStatement :
    Natural ρ (Stmt.rename ρ) (whileStatement (fuel + 1)) (whileStatement (fuel + 1)) := by
  rw [whileStatement]
  exact natural_bind (natural_symbol _ _) fun _ => natural_bind ih.expression fun condition =>
    natural_bind (natural_symbol _ _) fun _ => natural_bind ih.loopBody fun body =>
    natural_pure (Stmt.loop condition body none)

theorem natural_returnStatement (keyword : Token) :
    Natural ρ (Stmt.rename ρ) (returnStatement (fuel + 1) keyword)
      (returnStatement (fuel + 1) (keyword.rename ρ)) := by
  rw [returnStatement, returnStatement]
  refine natural_bind (ih.optionalExpression _) fun value => natural_bind (natural_symbol _ _)
    fun _ => ?_
  cases value with
  | none => exact natural_pure (Stmt.returning keyword none)
  | some value => exact natural_pure (Stmt.returning keyword (some value))

theorem natural_blockStatement :
    Natural ρ (Stmt.rename ρ) (blockStatement (fuel + 1)) (blockStatement (fuel + 1)) := by
  rw [blockStatement]
  exact natural_bind ih.block fun body => natural_pure (Stmt.block body)

theorem natural_printStatement :
    Natural ρ (Stmt.rename ρ) (printStatement (fuel + 1)) (printStatement (fuel + 1)) := by
  rw [printStatement]
  exact natural_bind ih.expression fun value => natural_bind (natural_symbol _ _) fun _ =>
    natural_pure (Stmt.print value)

theorem natural_expressionStatement :
    Natural ρ (Stmt.rename ρ) (expressionStatement (fuel + 1)) (expressionStatement (fuel + 1)) := by
  rw [expressionStatement]
  exact natural_bind ih.expression fun value => natural_bind (natural_symbol _ _) fun _ =>
    natural_pure (Stmt.expression value)

end

theorem allNatural (hρ : ρ.Counts) (fuel : Nat) : AllNatural ρ fuel := by
  induction fuel with
  | zero => exact allNatural_zero
  | succ fuel ih =>
    exact ⟨natural_expression ih hρ, natural_ternary ih, natural_binary ih, natural_binaryRest ih,
      natural_unary ih, natural_callRest ih, natural_arguments ih, natural_argumentList ih,
      natural_primary ih hρ, natural_functionTail ih, natural_function ih, natural_block ih,
      natural_declarations ih, natural_declaration ih, natural_methods ih, natural_varDeclaration ih,
      natural_bindings ih, natural_statement ih, natural_loopBody ih, natural_forStart ih,
      natural_optionalExpression ih, natural_forStatement ih, natural_ifStatement ih,
      natural_whileStatement ih, natural_returnStatement ih, natural_blockStatement ih,
      natural_printStatement ih, natural_expressionStatement ih⟩

end Production

/-! ### Programs -/

def Rejection.rename (ρ : Renaming) (r : Rejection) : Rejection :=
  ⟨r.first.rename ρ, r.more.map (SyntaxFault.rename ρ)⟩

theorem Rejection.ending_rename (ρ : Renaming) (pending : List SyntaxFault) (last : SyntaxFault) :
    Rejection.ending (pending.map (SyntaxFault.rename ρ)) (last.rename ρ) =
      (Rejection.ending pending last).rename ρ := by
  cases pending with
  | nil => rfl
  | cons f fs => simp [Rejection.ending, Rejection.rename]

theorem Rejection.rename_references (f : Nat → Nat) (r : Rejection) :
    r.rename (.references f) = r := by
  have hfault : SyntaxFault.rename (.references f) = id := rfl
  simp [Rejection.rename, hfault]

def renameItem (ρ : Renaming) : Except Rejection Stmt → Except Rejection Stmt
  | .ok s => .ok (s.rename ρ)
  | .error r => .error (r.rename ρ)

def renameProgram (ρ : Renaming) : Except Rejection (List Stmt) → Except Rejection (List Stmt)
  | .ok program => .ok (renameStmts ρ program)
  | .error r => .error (r.rename ρ)

theorem collect_rename (ρ : Renaming) (items : List (Except Rejection Stmt)) :
    collect (items.map (renameItem ρ)) = renameProgram ρ (collect items) := by
  induction items with
  | nil => rfl
  | cons item items ih =>
    rcases item with r | s
    · simp only [List.map_cons, renameItem, collect, ih]
      cases collect items with
      | ok => rfl
      | error r' => simp [renameProgram, Rejection.rename, Rejection.toList]
    · simp only [List.map_cons, renameItem, collect, ih]
      cases collect items <;> rfl

namespace Cursor

variable {ρ : Renaming}

theorem next?_rename (hρ : ρ.Counts) (c : Cursor) :
    (c.rename ρ).next? = c.next?.map fun r => (renameItem ρ r.1, r.2.rename ρ) := by
  have hempty : (c.rename ρ).rest.isEmpty = c.rest.isEmpty := List.isEmpty_map
  have hfuel : (c.rename ρ).fuel = c.fuel := by simp [fuel, rename]
  simp only [next?, hempty, hfuel, (Production.allNatural hρ c.fuel).declaration c]
  split
  · rfl
  · cases Production.declaration c.fuel c with
    | done s c' =>
      obtain ⟨rest, endLine, loops, _ | ⟨f, fs⟩, n⟩ := c' <;> rfl
    | failed fault c' =>
      simp only [Reply.rename, rename, Option.map_some, renameItem, Rejection.ending_rename,
        Production.resume_rename, List.map_nil]

theorem items_rename (hρ : ρ.Counts) (fuel : Nat) (c : Cursor) :
    (c.rename ρ).items fuel = ((c.items fuel).1.map (renameItem ρ), (c.items fuel).2.rename ρ) := by
  induction fuel generalizing c with
  | zero => rfl
  | succ fuel ih =>
    rw [items, items, next?_rename hρ]
    cases c.next? with
    | none => rfl
    | some r => simp only [Option.map_some, ih, List.map_cons]

/-- A list of tokens without an end ends on line one, so that line has to stay. -/
theorem start_rename {ts : List Token} (hline : ts.find? Token.isEnd = none → ρ.line 1 = 1)
    (n : Nat) :
    start (ts.map (Token.rename ρ)) (ρ.reference n) = (start ts n).rename ρ := by
  have hisEnd : Token.isEnd ∘ Token.rename ρ = Token.isEnd := rfl
  have hrest : (ts.map (Token.rename ρ)).takeWhile (fun t => !t.isEnd) =
      (ts.takeWhile fun t => !t.isEnd).map (Token.rename ρ) := by
    rw [List.takeWhile_map]
    rfl
  simp only [start, rename, hrest, List.find?_map, hisEnd]
  cases hfind : ts.find? Token.isEnd with
  | none => simp [hline hfind]
  | some t => rfl

end Cursor

/-- Tokens on other lines, read from another reference on. -/
theorem parseProgram_rename {ρ : Renaming} (hρ : ρ.Counts) {ts : List Token}
    (hline : ts.find? Token.isEnd = none → ρ.line 1 = 1) (n : Nat) :
    parseProgram (ts.map (Token.rename ρ)) (ρ.reference n) =
      (renameProgram ρ (parseProgram ts n).1, ρ.reference (parseProgram ts n).2) := by
  simp only [parseProgram, parseItems, List.length_map, Cursor.start_rename hline,
    Cursor.items_rename hρ, collect_rename]
  rfl

end TreeWalk
