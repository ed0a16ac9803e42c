import TreeWalk.Tree.Parser

/-!
# What productions are put together from

Every production of the grammar is put together from a dozen parts, whatever its fuel (`allComposed`).
So a property that each part has and that `bind`, `withLoops` and `recovering` hand on is a property
of every production, and is proved by one induction over `Built`, a case for each part.

Two parts report a fault at a token that is not the next one: an assignment to something that is no
target, at its `=`, and a jump outside of loops, at its keyword. `Built` carries what these need: the
tokens that have been read, and the one that was read last if nothing has happened since.
-/

namespace TreeWalk

namespace Production

variable {α β : Type}

/-- Reads the first token with what `next` has for it; where it has nothing, `other` reads. -/
def look (next : Token → Option (Production α)) (other : Production α) : Production α :=
  fun c => match c.rest with
    | [] => other c
    | t :: rest =>
      match next t with
      | some p => p { c with rest := rest }
      | none => other c

/-- Runs `p` in a loop; where there is none, fails at `t`. -/
def insideLoop (t : Token) (outside : SyntaxCause) (p : Production α) : Production α :=
  fun c => if c.loops = 0 then failAt t outside c else p c

/-- The production is put together from the parts. The tokens `seen` have been read before, and
`last`, if there is one, right before. -/
inductive Built : (last : Option Token) → (seen : List Token) → {α : Type} → Production α → Prop
  | pure {last seen} {α : Type} (a : α) : Built last seen (pure a : Production α)
  | bind {last seen} {α β : Type} {p : Production α} {f : α → Production β} (hp : Built last seen p)
      (hf : ∀ a, Built none seen (f a)) : Built last seen (p >>= f)
  | fail {last seen} {α : Type} (cause : SyntaxCause) : Built last seen (fail cause : Production α)
  | noTarget {last seen} {α : Type} {equals : Token} (h : equals ∈ seen) :
      Built last seen (failAt equals .invalidTarget : Production α)
  | check {last seen} (q : Token → Bool) : Built last seen (check q)
  | endsBlock {last seen} : Built last seen endsBlock
  | startsFunction {last seen} : Built last seen startsFunction
  | freshReference {last seen} : Built last seen freshReference
  | expect {last seen} (q : Token → Bool) (what : Expected) : Built last seen (expect q what)
  | accept {last seen} {β : Type} {q : Token → Bool} {f : Option Token → Production β}
      (hnone : Built last seen (f none)) (hsome : ∀ t, Built none (t :: seen) (f (some t))) :
      Built last seen (accept? q >>= f)
  | look {last seen} {α : Type} {next : Token → Option (Production α)} {other : Production α}
      (hnext : ∀ t p, next t = some p → Built (some t) (t :: seen) p)
      (hother : Built last seen other) : Built last seen (look next other)
  | insideLoop {t seen} {α : Type} {outside : SyntaxCause} {p : Production α}
      (hp : Built none seen p) : Built (some t) seen (insideLoop t outside p)
  | withLoops {last seen} {α : Type} {enter : Nat → Nat} {leave : Nat → Nat → Nat}
      {p : Production α} (hback : ∀ n, leave n (enter n) = n) (hp : Built last seen p) :
      Built last seen (withLoops enter leave p)
  | recovering {last seen} {α : Type} {p : Production α} (hp : Built last seen p) :
      Built last seen (recovering p)

/-- Put together from the parts, wherever it stands. -/
def Composed (p : Production α) : Prop :=
  ∀ last seen, Built last seen p

/-! ### The parts -/

theorem composed_pure (a : α) : Composed (pure a) := fun _ _ => .pure a

theorem composed_fail (cause : SyntaxCause) : Composed (α := α) (fail cause) := fun _ _ => .fail cause

theorem composed_bind {p : Production α} {f : α → Production β} (hp : p.Composed)
    (hf : ∀ a, (f a).Composed) : Composed (p >>= f) :=
  fun last seen => .bind (hp last seen) fun a => hf a none seen

theorem composed_symbol (s : Symbol) (what : Expected) : Composed (symbol s what) :=
  fun _ _ => .expect _ _

theorem composed_identifier (what : Expected) : Composed (identifier what) := fun _ _ => .expect _ _

theorem composed_freshReference : Composed freshReference := fun _ _ => .freshReference

theorem composed_accept {q : Token → Bool} {f : Option Token → Production β}
    (hnone : Composed (f none)) (hsome : ∀ t, Composed (f (some t))) :
    Composed (accept? q >>= f) :=
  fun last seen => .accept (hnone last seen) fun t => hsome t none (t :: seen)

theorem composed_withLoops {p : Production α} {enter : Nat → Nat} {leave : Nat → Nat → Nat}
    (hback : ∀ n, leave n (enter n) = n) (hp : p.Composed) : Composed (withLoops enter leave p) :=
  fun last seen => .withLoops hback (hp last seen)

/-- A choice on whether something stands here. -/
theorem composed_if {p : Production Bool} {q q' : Production β} (hp : p.Composed) (hq : q.Composed)
    (hq' : q'.Composed) : Composed (do if ← p then q else q') := by
  refine composed_bind hp fun b => ?_
  cases b with
  | true => exact hq
  | false => exact hq'

theorem composed_parameters (allowed : Nat) : Composed (parameters allowed) := by
  induction allowed with
  | zero => exact composed_fail _
  | succ allowed ih =>
    rw [parameters]
    exact composed_bind (composed_identifier _) fun _ => composed_accept (composed_pure _) fun _ =>
      composed_bind ih fun _ => composed_pure _

theorem built_jumpStatement (outside : SyntaxCause) (what : Expected) (node : Token → Stmt)
    (keyword : Token) (seen : List Token) :
    Built (some keyword) seen (jumpStatement outside what node keyword) :=
  .insideLoop (.bind (.expect _ _) fun _ => .pure _)

/-! ### The productions -/

/-- What follows the first token of an operand. -/
def operandBehind (fuel : Nat) (t : Token) : Option (Production Expr) :=
  match t.kind with
  | .keyword .false_ => some (pure (.literal (.bool false)))
  | .keyword .true_ => some (pure (.literal (.bool true)))
  | .keyword .nil_ => some (pure (.literal .nil))
  | .number value => some (pure (.literal (numberLiteral t.lexeme value)))
  | .string content => some (pure (.literal (.string content)))
  | .keyword .this_ => some do return .this (← freshReference) t
  | .identifier => some do return .variable (← freshReference) t
  | .symbol .leftParen => some do
      let inner ← expression fuel
      let _ ← symbol .rightParen .closeGroup
      return .group inner
  | .symbol .leftBracket => some do
      let (elements, _) ← arguments fuel .rightBracket .closeArray
      return .array t elements
  | .keyword .fun_ => some do
      let _ ← symbol .leftParen .parenAfterFun
      return .lambda (← functionTail fuel .function none t)
  | _ => none

theorem primary_eq_look (fuel : Nat) :
    primary (fuel + 1) = look (operandBehind fuel) (fail (.expected .expression)) := by
  funext c
  rw [primary]
  obtain ⟨_ | ⟨⟨kind, lexeme, line⟩, rest⟩, endLine, loops, faults, n⟩ := c
  · rfl
  · cases kind with
    | symbol s => cases s <;> rfl
    | keyword k => cases k <;> rfl
    | _ => rfl

/-- What follows the first token of a statement, unless that token begins an expression. -/
def statementBehind (fuel : Nat) (t : Token) : Option (Production Stmt) :=
  match t.kind with
  | .keyword .for_ => some (forStatement fuel)
  | .keyword .if_ => some (ifStatement fuel)
  | .keyword .while_ => some (whileStatement fuel)
  | .keyword .return_ => some (returnStatement fuel t)
  | .keyword .break_ => some (jumpStatement .breakOutsideLoop .endOfBreak .breaking t)
  | .keyword .continue_ => some (jumpStatement .continueOutsideLoop .endOfContinue .continuing t)
  | .symbol .leftBrace => some (blockStatement fuel)
  | .keyword .print_ => some (printStatement fuel)
  | _ => none

theorem statement_eq_look (fuel : Nat) :
    statement (fuel + 1) = look (statementBehind fuel) (expressionStatement fuel) := by
  funext c
  rw [statement]
  obtain ⟨_ | ⟨⟨kind, lexeme, line⟩, rest⟩, endLine, loops, faults, n⟩ := c
  · rfl
  · cases kind with
    | symbol s => cases s <;> rfl
    | keyword k => cases k <;> rfl
    | _ => rfl

/-- All productions that count down fuel are put together from the parts. -/
structure AllComposed (fuel : Nat) : Prop where
  expression : Composed (expression fuel)
  ternary : Composed (ternary fuel)
  binary : ∀ levels, Composed (binary fuel levels)
  binaryRest : ∀ level tighter left, Composed (binaryRest fuel level tighter left)
  unary : Composed (unary fuel)
  callRest : ∀ callee, Composed (callRest fuel callee)
  arguments : ∀ closing what, Composed (arguments fuel closing what)
  argumentList : ∀ allowed, Composed (argumentList fuel allowed)
  primary : Composed (primary fuel)
  functionTail : ∀ kind name keyword, Composed (functionTail fuel kind name keyword)
  function : ∀ kind, Composed (function fuel kind)
  block : Composed (block fuel)
  declarations : Composed (declarations fuel)
  declaration : Composed (declaration fuel)
  methods : Composed (methods fuel)
  varDeclaration : Composed (varDeclaration fuel)
  bindings : Composed (bindings fuel)
  statement : Composed (statement fuel)
  loopBody : Composed (loopBody fuel)
  forStart : Composed (forStart fuel)
  optionalExpression : ∀ closing, Composed (optionalExpression fuel closing)
  forStatement : Composed (forStatement fuel)
  ifStatement : Composed (ifStatement fuel)
  whileStatement : Composed (whileStatement fuel)
  returnStatement : ∀ keyword, Composed (returnStatement fuel keyword)
  blockStatement : Composed (blockStatement fuel)
  printStatement : Composed (printStatement fuel)
  expressionStatement : Composed (expressionStatement fuel)

theorem allComposed_zero : AllComposed 0 := by
  constructor <;> intros <;> exact composed_fail _

section

variable {fuel : Nat} (ih : AllComposed fuel)

include ih

theorem composed_expression : Composed (expression (fuel + 1)) := by
  rw [expression]
  intro last seen
  refine .bind (ih.ternary last seen) fun target => .accept (.pure _) fun equals => ?_
  refine .bind (ih.expression _ _) fun value => ?_
  cases target with
  | «variable» => exact .bind .freshReference fun _ => .pure _
  | get => exact .pure _
  | _ => exact .noTarget List.mem_cons_self

theorem composed_ternary : Composed (ternary (fuel + 1)) := by
  rw [ternary]
  refine composed_bind (ih.binary _) fun _ => composed_accept (composed_pure _) fun _ => ?_
  exact composed_bind ih.ternary fun _ => composed_bind (composed_symbol _ _) fun _ =>
    composed_bind ih.ternary fun _ => composed_pure _

theorem composed_binary (levels : List Level) : Composed (binary (fuel + 1) levels) := by
  cases levels with
  | nil => rw [binary]; exact ih.unary
  | cons level tighter =>
    rw [binary]
    exact composed_bind (ih.binary _) fun left => ih.binaryRest level tighter left

theorem composed_binaryRest (level : Level) (tighter : List Level) (left : Expr) :
    Composed (binaryRest (fuel + 1) level tighter left) := by
  rw [binaryRest]
  exact composed_accept (composed_pure _) fun _ =>
    composed_bind (ih.binary _) fun _ => ih.binaryRest _ _ _

theorem composed_unary : Composed (unary (fuel + 1)) := by
  rw [unary]
  refine composed_accept ?_ fun _ => composed_bind ih.unary fun _ => composed_pure _
  exact composed_bind ih.primary fun _ => composed_bind (ih.callRest _) fun _ =>
    composed_accept (composed_pure _) fun _ => composed_pure _

theorem composed_callRest (callee : Expr) : Composed (callRest (fuel + 1) callee) := by
  rw [callRest]
  refine composed_accept ?_ fun _ => composed_bind (ih.arguments _ _) fun _ => ih.callRest _
  refine composed_accept ?_ fun _ => composed_bind ih.expression fun _ =>
    composed_bind (composed_symbol _ _) fun _ => ih.callRest _
  exact composed_accept (composed_pure _) fun _ =>
    composed_bind (composed_identifier _) fun _ => ih.callRest _

theorem composed_arguments (closing : Symbol) (what : Expected) :
    Composed (arguments (fuel + 1) closing what) := by
  rw [arguments]
  refine composed_bind (fun _ _ => .check _) fun closes => ?_
  have hclose : ∀ values : List Expr, Composed (do
      let close ← symbol closing what
      return (values, close)) := fun _ => composed_bind (composed_symbol _ _) fun _ => composed_pure _
  cases closes with
  | true => exact composed_bind (composed_pure _) hclose
  | false => exact composed_bind (ih.argumentList _) hclose

theorem composed_argumentList (allowed : Nat) : Composed (argumentList (fuel + 1) allowed) := by
  cases allowed with
  | zero => rw [argumentList]; exact composed_fail _
  | succ allowed =>
    rw [argumentList]
    exact composed_bind ih.expression fun _ => composed_accept (composed_pure _) fun _ =>
      composed_bind (ih.argumentList _) fun _ => composed_pure _

theorem composed_operandBehind {t : Token} {p : Production Expr}
    (h : operandBehind fuel t = some p) : p.Composed := by
  unfold operandBehind at h
  split at h <;> cases h
  · exact composed_pure _
  · exact composed_pure _
  · exact composed_pure _
  · exact composed_pure _
  · exact composed_pure _
  · exact composed_bind composed_freshReference fun _ => composed_pure _
  · exact composed_bind composed_freshReference fun _ => composed_pure _
  · exact composed_bind ih.expression fun _ => composed_bind (composed_symbol _ _) fun _ =>
      composed_pure _
  · exact composed_bind (ih.arguments _ _) fun _ => composed_pure _
  · exact composed_bind (composed_symbol _ _) fun _ => composed_bind (ih.functionTail _ _ _)
      fun _ => composed_pure _

theorem composed_primary : Composed (primary (fuel + 1)) := by
  rw [primary_eq_look]
  intro last seen
  exact .look (fun _ _ h => composed_operandBehind ih h _ _) (.fail _)

theorem composed_functionTail (kind : FunctionKind) (name : Option Token) (keyword : Token) :
    Composed (functionTail (fuel + 1) kind name keyword) := by
  rw [functionTail]
  refine composed_bind (fun _ _ => .check _) fun closes => ?_
  have hbody : ∀ names : List Token, Composed (do
      let _ ← symbol .rightParen .closeParameters
      let _ ← symbol .leftBrace (.openFunctionBody kind)
      let body ← withLoops (fun _ => 0) (fun before _ => before) (block fuel)
      return (⟨name, names, body, keyword⟩ : FunctionDecl)) := fun _ =>
    composed_bind (composed_symbol _ _) fun _ => composed_bind (composed_symbol _ _) fun _ =>
      composed_bind (composed_withLoops (fun _ => rfl) ih.block) fun _ => composed_pure _
  cases closes with
  | true => exact composed_bind (composed_pure _) hbody
  | false => exact composed_bind (composed_parameters _) hbody

theorem composed_function (kind : FunctionKind) : Composed (function (fuel + 1) kind) := by
  rw [function]
  exact composed_bind (composed_identifier _) fun _ => composed_bind (composed_symbol _ _) fun _ =>
    ih.functionTail _ _ _

theorem composed_block : Composed (block (fuel + 1)) := by
  rw [block]
  exact composed_bind ih.declarations fun _ => composed_bind (composed_symbol _ _) fun _ =>
    composed_pure _

theorem composed_declarations : Composed (declarations (fuel + 1)) := by
  rw [declarations]
  refine composed_if (fun _ _ => .endsBlock) (composed_pure _) ?_
  refine composed_bind (fun _ _ => .recovering (ih.declaration _ _)) fun first => ?_
  cases first with
  | some _ => exact composed_bind ih.declarations fun _ => composed_pure _
  | none => exact ih.declarations

theorem composed_declaration : Composed (declaration (fuel + 1)) := by
  rw [declaration]
  refine composed_accept ?_ fun _ => composed_bind (composed_identifier _) fun _ =>
    composed_bind (composed_symbol _ _) fun _ => composed_bind ih.methods fun _ =>
    composed_bind (composed_symbol _ _) fun _ => composed_pure _
  have hfunction : Composed (do return Stmt.function (← function fuel .function)) :=
    composed_bind (ih.function _) fun _ => composed_pure _
  refine composed_if (fun _ _ => .startsFunction) (composed_accept hfunction fun _ => hfunction) ?_
  exact composed_accept ih.statement fun _ => ih.varDeclaration

theorem composed_methods : Composed (methods (fuel + 1)) := by
  rw [methods]
  exact composed_if (fun _ _ => .endsBlock) (composed_pure _) (composed_bind (ih.function _) fun _ =>
    composed_bind ih.methods fun _ => composed_pure _)

theorem composed_varDeclaration : Composed (varDeclaration (fuel + 1)) := by
  rw [varDeclaration]
  exact composed_bind ih.bindings fun _ => composed_bind (composed_symbol _ _) fun _ =>
    composed_pure _

theorem composed_bindings : Composed (bindings (fuel + 1)) := by
  rw [bindings]
  refine composed_bind (composed_identifier _) fun name => composed_accept ?_ fun _ => ?_
  · refine composed_bind (composed_pure _) fun _ => composed_accept (composed_pure _) fun _ => ?_
    exact composed_bind ih.bindings fun _ => composed_pure _
  · refine composed_bind (composed_bind ih.expression fun _ => composed_pure _) fun _ => ?_
    exact composed_accept (composed_pure _) fun _ => composed_bind ih.bindings fun _ =>
      composed_pure _

theorem composed_loopBody : Composed (loopBody (fuel + 1)) := by
  rw [loopBody]
  exact composed_withLoops (fun _ => rfl) ih.statement

theorem composed_forStart : Composed (forStart (fuel + 1)) := by
  rw [forStart]
  refine composed_accept ?_ fun _ => composed_pure _
  exact composed_accept (composed_bind ih.expressionStatement fun _ => composed_pure _) fun _ =>
    composed_bind ih.varDeclaration fun _ => composed_pure _

theorem composed_optionalExpression (closing : Symbol) :
    Composed (optionalExpression (fuel + 1) closing) := by
  rw [optionalExpression]
  exact composed_if (fun _ _ => .check _) (composed_pure _)
    (composed_bind ih.expression fun _ => composed_pure _)

theorem composed_forStatement : Composed (forStatement (fuel + 1)) := by
  rw [forStatement]
  refine composed_bind (composed_symbol _ _) fun _ => composed_bind ih.forStart fun first =>
    composed_bind (ih.optionalExpression _) fun _ => composed_bind (composed_symbol _ _) fun _ =>
    composed_bind (ih.optionalExpression _) fun _ => composed_bind (composed_symbol _ _) fun _ =>
    composed_bind ih.loopBody fun _ => ?_
  cases first with
  | some _ => exact composed_pure _
  | none => exact composed_pure _

theorem composed_ifStatement : Composed (ifStatement (fuel + 1)) := by
  rw [ifStatement]
  exact composed_bind (composed_symbol _ _) fun _ => composed_bind ih.expression fun _ =>
    composed_bind (composed_symbol _ _) fun _ => composed_bind ih.statement fun _ =>
    composed_accept (composed_pure _) fun _ => composed_bind ih.statement fun _ => composed_pure _

theorem composed_whileStatement : Composed (whileStatement (fuel + 1)) := by
  rw [whileStatement]
  exact composed_bind (composed_symbol _ _) fun _ => composed_bind ih.expression fun _ =>
    composed_bind (composed_symbol _ _) fun _ => composed_bind ih.loopBody fun _ => composed_pure _

theorem composed_returnStatement (keyword : Token) :
    Composed (returnStatement (fuel + 1) keyword) := by
  rw [returnStatement]
  exact composed_bind (ih.optionalExpression _) fun _ => composed_bind (composed_symbol _ _) fun _ =>
    composed_pure _

theorem composed_blockStatement : Composed (blockStatement (fuel + 1)) := by
  rw [blockStatement]
  exact composed_bind ih.block fun _ => composed_pure _

theorem composed_printStatement : Composed (printStatement (fuel + 1)) := by
  rw [printStatement]
  exact composed_bind ih.expression fun _ => composed_bind (composed_symbol _ _) fun _ =>
    composed_pure _

theorem composed_expressionStatement : Composed (expressionStatement (fuel + 1)) := by
  rw [expressionStatement]
  exact composed_bind ih.expression fun _ => composed_bind (composed_symbol _ _) fun _ =>
    composed_pure _

/-- A jump is the one production that has to stand right behind its keyword. -/
theorem built_statementBehind {t : Token} {p : Production Stmt} (h : statementBehind fuel t = some p)
    (seen : List Token) : Built (some t) seen p := by
  unfold statementBehind at h
  split at h <;> cases h
  · exact ih.forStatement _ _
  · exact ih.ifStatement _ _
  · exact ih.whileStatement _ _
  · exact ih.returnStatement _ _ _
  · exact built_jumpStatement _ _ _ _ _
  · exact built_jumpStatement _ _ _ _ _
  · exact ih.blockStatement _ _
  · exact ih.printStatement _ _

theorem composed_statement : Composed (statement (fuel + 1)) := by
  rw [statement_eq_look]
  intro last seen
  exact .look (fun _ _ h => built_statementBehind ih h _) (ih.expressionStatement _ _)

end

/-- Every production is put together from the parts, with any amount of fuel. -/
theorem allComposed (fuel : Nat) : AllComposed fuel := by
  induction fuel with
  | zero => exact allComposed_zero
  | succ fuel ih =>
    exact ⟨composed_expression ih, composed_ternary ih, composed_binary ih, composed_binaryRest ih,
      composed_unary ih, composed_callRest ih, composed_arguments ih, composed_argumentList ih,
      composed_primary ih, composed_functionTail ih, composed_function ih, composed_block ih,
      composed_declarations ih, composed_declaration ih, composed_methods ih,
      composed_varDeclaration ih, composed_bindings ih, composed_statement ih, composed_loopBody ih,
      composed_forStart ih, composed_optionalExpression ih, composed_forStatement ih,
      composed_ifStatement ih, composed_whileStatement ih, composed_returnStatement ih,
      composed_blockStatement ih, composed_printStatement ih, composed_expressionStatement ih⟩

end Production

end TreeWalk
