import TreeWalk.Tree.Cursor
import TreeWalk.Number.Reading

/-!
# From tokens to syntax trees

One production for each rule of the grammar:

    program     → declaration*
    declaration → "class" NAME "{" function* "}" | "fun" function | "var" bindings ";" | statement
    function    → NAME "(" parameters? ")" block
    bindings    → NAME ( "=" expression )? ( "," NAME ( "=" expression )? )*
    statement   → "for" … | "if" … | "while" … | "return" … | "break" ";" | "continue" ";"
                | block | "print" expression ";" | expression ";"
    expression  → ternary | NAME "=" expression | call "." NAME "=" expression
    ternary     → binary ( "?" ternary ":" ternary )?
    binary      → operators of six levels, from "or" to "*", each grouping to the left
    unary       → ( "!" | "-" | "++" | "--" ) unary | call ( "++" | "--" )?
    call        → primary ( "(" arguments? ")" | "[" expression "]" | "." NAME )*
    primary     → literals, names, "this", "(" expression ")", "[" arguments? "]", lambdas

A fault inside a block is noted and the block is read on, so that one reading finds every
independent fault. Productions count down a supply of fuel that `Cursor.fuel` makes larger than any
nesting of the tokens at hand.
-/

namespace TreeWalk

/-- At most so many parameters, arguments and array elements. -/
def maxArguments : Nat := 255

/-- The levels of binary operators, from the loosest to the tightest. -/
inductive Level where
  | disjunction
  | conjunction
  | equality
  | comparison
  | term
  | factor
deriving DecidableEq, Repr

namespace Level

def all : List Level :=
  [disjunction, conjunction, equality, comparison, term, factor]

def hasOperator (level : Level) (t : Token) : Bool :=
  match level, t.kind with
  | disjunction, .keyword k => k == .or_
  | conjunction, .keyword k => k == .and_
  | equality, .symbol s => s == .bangEqual || s == .equalEqual
  | comparison, .symbol s => s == .greater || s == .greaterEqual || s == .less || s == .lessEqual
  | term, .symbol s => s == .minus || s == .plus
  | factor, .symbol s => s == .slash || s == .star
  | _, _ => false

def node (level : Level) (left : Expr) (operator : Token) (right : Expr) : Expr :=
  match level with
  | disjunction | conjunction => .logical left operator right
  | _ => .binary left operator right

end Level

def isPrefixOperator (t : Token) : Bool :=
  t.isSymbol .bang || t.isSymbol .minus || t.isSymbol .plusPlus || t.isSymbol .minusMinus

def isPostfixOperator (t : Token) : Bool :=
  t.isSymbol .plusPlus || t.isSymbol .minusMinus

/-- A number as a literal: a machine word if it has no point and fits one. -/
def numberLiteral (lexeme : String) (value : Float) : Literal :=
  if lexeme.toList.contains '.' then .float value
  else match readInt64? lexeme.toList with
    | some n => .int n
    | none => .float value

namespace Production

/-- Parameters behind an opening parenthesis that does not close at once, `allowed` of them. -/
def parameters : (allowed : Nat) → Production (List Token)
  | 0 => fail .tooManyParameters
  | allowed + 1 => do
    let name ← identifier .parameterName
    match ← symbol? .comma with
    | none => return [name]
    | some _ => return name :: (← parameters allowed)

/-- A `break` or a `continue`, which has to stand in a loop. -/
def jumpStatement (outside : SyntaxCause) (what : Expected) (node : Token → Stmt)
    (keyword : Token) : Production Stmt :=
  fun c =>
    if c.loops = 0 then failAt keyword outside c
    else (do
      let _ ← symbol .semicolon what
      return node keyword : Production Stmt) c

/-- Whether a block, or the source, ends here. -/
def endsBlock : Production Bool :=
  fun c => .done (c.rest.isEmpty || c.sees (Token.isSymbol .rightBrace)) c

/-- Whether a function declaration stands here: a lambda has no name. -/
def startsFunction : Production Bool :=
  fun c => .done (c.sees (Token.isKeyword .fun_) && c.seesSecond Token.isIdentifier) c

mutual

def expression : (fuel : Nat) → Production Expr
  | 0 => fail .tooDeep
  | fuel + 1 => do
    let target ← ternary fuel
    match ← symbol? .equal with
    | none => return target
    | some equals =>
      let value ← expression fuel
      match target with
      | .variable _ name => return .assign (← freshReference) name value
      | .get object name => return .set object name value
      | _ => failAt equals .invalidTarget

def ternary : (fuel : Nat) → Production Expr
  | 0 => fail .tooDeep
  | fuel + 1 => do
    let condition ← binary fuel Level.all
    match ← symbol? .question with
    | none => return condition
    | some _ =>
      let whenTrue ← ternary fuel
      let _ ← symbol .colon .ternaryColon
      let whenFalse ← ternary fuel
      return .ternary condition whenTrue whenFalse

/-- Operators of the given levels, from the first on. -/
def binary : (fuel : Nat) → List Level → Production Expr
  | 0, _ => fail .tooDeep
  | fuel + 1, [] => unary fuel
  | fuel + 1, level :: tighter => do
    let left ← binary fuel tighter
    binaryRest fuel level tighter left

/-- The operators of one level that follow `left`. -/
def binaryRest : (fuel : Nat) → Level → List Level → Expr → Production Expr
  | 0, _, _, _ => fail .tooDeep
  | fuel + 1, level, tighter, left => do
    match ← accept? level.hasOperator with
    | none => return left
    | some operator =>
      let right ← binary fuel tighter
      binaryRest fuel level tighter (level.node left operator right)

def unary : (fuel : Nat) → Production Expr
  | 0 => fail .tooDeep
  | fuel + 1 => do
    match ← accept? isPrefixOperator with
    | some operator =>
      let operand ← unary fuel
      return .unary operator operand .before
    | none =>
      let operand ← primary fuel
      let operand ← callRest fuel operand
      match ← accept? isPostfixOperator with
      | some operator => return .unary operator operand .after
      | none => return operand

/-- Calls, positions and properties that follow `callee`. -/
def callRest : (fuel : Nat) → Expr → Production Expr
  | 0, _ => fail .tooDeep
  | fuel + 1, callee => do
    match ← symbol? .leftParen with
    | some _ =>
      let (values, paren) ← arguments fuel .rightParen .closeArguments
      callRest fuel (.call callee paren values)
    | none =>
      match ← symbol? .leftBracket with
      | some bracket =>
        let position ← expression fuel
        let _ ← symbol .rightBracket .closeIndex
        callRest fuel (.index callee bracket position)
      | none =>
        match ← symbol? .dot with
        | some _ =>
          let name ← identifier .propertyName
          callRest fuel (.get callee name)
        | none => return callee

/-- Expressions up to the symbol `closing`, and that symbol. -/
def arguments : (fuel : Nat) → Symbol → Expected → Production (List Expr × Token)
  | 0, _, _ => fail .tooDeep
  | fuel + 1, closing, what => do
    let values ← if ← check (Token.isSymbol closing) then pure []
      else argumentList fuel maxArguments
    let close ← symbol closing what
    return (values, close)

/-- One or more expressions, `allowed` at most. -/
def argumentList : (fuel : Nat) → (allowed : Nat) → Production (List Expr)
  | 0, _ => fail .tooDeep
  | _ + 1, 0 => fail .tooManyArguments
  | fuel + 1, allowed + 1 => do
    let value ← expression fuel
    match ← symbol? .comma with
    | none => return [value]
    | some _ => return value :: (← argumentList fuel allowed)

def primary : (fuel : Nat) → Production Expr
  | 0 => fail .tooDeep
  | fuel + 1 => fun c =>
    match c.rest with
    | [] => fail (.expected .expression) c
    | t :: rest =>
      match t.kind with
      | .keyword .false_ => .done (.literal (.bool false)) { c with rest := rest }
      | .keyword .true_ => .done (.literal (.bool true)) { c with rest := rest }
      | .keyword .nil_ => .done (.literal .nil) { c with rest := rest }
      | .number value => .done (.literal (numberLiteral t.lexeme value)) { c with rest := rest }
      | .string content => .done (.literal (.string content)) { c with rest := rest }
      | .keyword .this_ => (do return .this (← freshReference) t : Production Expr)
          { c with rest := rest }
      | .identifier => (do return .variable (← freshReference) t : Production Expr)
          { c with rest := rest }
      | .symbol .leftParen => (do
          let inner ← expression fuel
          let _ ← symbol .rightParen .closeGroup
          return .group inner : Production Expr) { c with rest := rest }
      | .symbol .leftBracket => (do
          let (elements, _) ← arguments fuel .rightBracket .closeArray
          return .array t elements : Production Expr) { c with rest := rest }
      | .keyword .fun_ => (do
          let _ ← symbol .leftParen .parenAfterFun
          return .lambda (← functionTail fuel .function none t) : Production Expr)
          { c with rest := rest }
      | _ => fail (.expected .expression) c

/-- Parameters and body of a function whose opening parenthesis has been taken. -/
def functionTail : (fuel : Nat) → FunctionKind → Option Token → Token → Production FunctionDecl
  | 0, _, _, _ => fail .tooDeep
  | fuel + 1, kind, name, keyword => do
    let names ← if ← check (Token.isSymbol .rightParen) then pure [] else parameters maxArguments
    let _ ← symbol .rightParen .closeParameters
    let _ ← symbol .leftBrace (.openFunctionBody kind)
    let body ← withLoops (fun _ => 0) (fun before _ => before) (block fuel)
    return ⟨name, names, body, keyword⟩

def function : (fuel : Nat) → FunctionKind → Production FunctionDecl
  | 0, _ => fail .tooDeep
  | fuel + 1, kind => do
    let name ← identifier (.functionName kind)
    let _ ← symbol .leftParen (.parenAfterName kind)
    functionTail fuel kind (some name) name

/-- Declarations and the brace that closes them. -/
def block : (fuel : Nat) → Production (List Stmt)
  | 0 => fail .tooDeep
  | fuel + 1 => do
    let body ← declarations fuel
    let _ ← symbol .rightBrace .closeBlock
    return body

/-- Declarations up to a closing brace; faults are recovered from. -/
def declarations : (fuel : Nat) → Production (List Stmt)
  | 0 => fail .tooDeep
  | fuel + 1 => do
    if ← endsBlock then return []
    else
      match ← recovering (declaration fuel) with
      | some first => return first :: (← declarations fuel)
      | none => declarations fuel

def declaration : (fuel : Nat) → Production Stmt
  | 0 => fail .tooDeep
  | fuel + 1 => do
    match ← keyword? .class_ with
    | some _ =>
      let name ← identifier .className
      let _ ← symbol .leftBrace .openClassBody
      let members ← methods fuel
      let _ ← symbol .rightBrace .closeClassBody
      return .classDecl name members
    | none =>
      if ← startsFunction then
        let _ ← keyword? .fun_
        return .function (← function fuel .function)
      else
        match ← keyword? .var_ with
        | some _ => varDeclaration fuel
        | none => statement fuel

def methods : (fuel : Nat) → Production (List FunctionDecl)
  | 0 => fail .tooDeep
  | fuel + 1 => do
    if ← endsBlock then return []
    else
      let first ← function fuel .method
      return first :: (← methods fuel)

/-- Variables behind the keyword, and the semicolon. -/
def varDeclaration : (fuel : Nat) → Production Stmt
  | 0 => fail .tooDeep
  | fuel + 1 => do
    let names ← bindings fuel
    let _ ← symbol .semicolon .endOfVariables
    return .var names

/-- One or more variables with their initial values. -/
def bindings : (fuel : Nat) → Production (List (Token × Option Expr))
  | 0 => fail .tooDeep
  | fuel + 1 => do
    let name ← identifier .variableName
    let value ← match ← symbol? .equal with
      | some _ => some <$> expression fuel
      | none => pure none
    match ← symbol? .comma with
    | none => return [(name, value)]
    | some _ => return (name, value) :: (← bindings fuel)

def statement : (fuel : Nat) → Production Stmt
  | 0 => fail .tooDeep
  | fuel + 1 => fun c =>
    match c.rest with
    | [] => expressionStatement fuel c
    | t :: rest =>
      match t.kind with
      | .keyword .for_ => forStatement fuel { c with rest := rest }
      | .keyword .if_ => ifStatement fuel { c with rest := rest }
      | .keyword .while_ => whileStatement fuel { c with rest := rest }
      | .keyword .return_ => returnStatement fuel t { c with rest := rest }
      | .keyword .break_ =>
        jumpStatement .breakOutsideLoop .endOfBreak .breaking t { c with rest := rest }
      | .keyword .continue_ =>
        jumpStatement .continueOutsideLoop .endOfContinue .continuing t { c with rest := rest }
      | .symbol .leftBrace => blockStatement fuel { c with rest := rest }
      | .keyword .print_ => printStatement fuel { c with rest := rest }
      | _ => expressionStatement fuel c

def loopBody : (fuel : Nat) → Production Stmt
  | 0 => fail .tooDeep
  | fuel + 1 => withLoops (· + 1) (fun _ after => after - 1) (statement fuel)

/-- What may stand before the first semicolon of a `for`. -/
def forStart : (fuel : Nat) → Production (Option Stmt)
  | 0 => fail .tooDeep
  | fuel + 1 => do
    match ← symbol? .semicolon with
    | some _ => return none
    | none =>
      match ← keyword? .var_ with
      | some _ => return some (← varDeclaration fuel)
      | none => return some (← expressionStatement fuel)

/-- An expression, unless `closing` stands here. -/
def optionalExpression : (fuel : Nat) → Symbol → Production (Option Expr)
  | 0, _ => fail .tooDeep
  | fuel + 1, closing => do
    if ← check (Token.isSymbol closing) then return none
    else return some (← expression fuel)

/-- A `for` is a loop with an increment, inside a block with its start. -/
def forStatement : (fuel : Nat) → Production Stmt
  | 0 => fail .tooDeep
  | fuel + 1 => do
    let _ ← symbol .leftParen .parenAfterFor
    let first ← forStart fuel
    let condition ← optionalExpression fuel .semicolon
    let _ ← symbol .semicolon .endOfLoopCondition
    let increment ← optionalExpression fuel .rightParen
    let _ ← symbol .rightParen .closeForClauses
    let body ← loopBody fuel
    let loop := .loop (condition.getD (.literal (.bool true))) body increment
    match first with
    | some first => return .block [first, loop]
    | none => return loop

def ifStatement : (fuel : Nat) → Production Stmt
  | 0 => fail .tooDeep
  | fuel + 1 => do
    let _ ← symbol .leftParen .parenAfterIf
    let condition ← expression fuel
    let _ ← symbol .rightParen .closeIfCondition
    let whenTrue ← statement fuel
    match ← keyword? .else_ with
    | some _ => return .conditional condition whenTrue (some (← statement fuel))
    | none => return .conditional condition whenTrue none

def whileStatement : (fuel : Nat) → Production Stmt
  | 0 => fail .tooDeep
  | fuel + 1 => do
    let _ ← symbol .leftParen .parenAfterWhile
    let condition ← expression fuel
    let _ ← symbol .rightParen .closeWhileCondition
    return .loop condition (← loopBody fuel) none

def returnStatement : (fuel : Nat) → Token → Production Stmt
  | 0, _ => fail .tooDeep
  | fuel + 1, keyword => do
    let value ← optionalExpression fuel .semicolon
    let _ ← symbol .semicolon .endOfReturn
    return .returning keyword value

def blockStatement : (fuel : Nat) → Production Stmt
  | 0 => fail .tooDeep
  | fuel + 1 => do
    return .block (← block fuel)

def printStatement : (fuel : Nat) → Production Stmt
  | 0 => fail .tooDeep
  | fuel + 1 => do
    let value ← expression fuel
    let _ ← symbol .semicolon .endOfPrint
    return .print value

def expressionStatement : (fuel : Nat) → Production Stmt
  | 0 => fail .tooDeep
  | fuel + 1 => do
    let value ← expression fuel
    let _ ← symbol .semicolon .endOfStatement
    return .expression value

end

end Production

/-- More than the productions at hand can nest: between two tokens they nest less than sixteen
deep. -/
def Cursor.fuel (c : Cursor) : Nat :=
  16 * (c.rest.length + 1)

/-- The faults of a declaration: one or more. -/
structure Rejection where
  first : SyntaxFault
  more : List SyntaxFault
deriving DecidableEq, Repr

namespace Rejection

def toList (r : Rejection) : List SyntaxFault :=
  r.first :: r.more

/-- The faults `pending` and then `last`. -/
def ending (pending : List SyntaxFault) (last : SyntaxFault) : Rejection :=
  match pending with
  | [] => ⟨last, []⟩
  | f :: fs => ⟨f, fs ++ [last]⟩

end Rejection

/-- The next declaration, or all its faults, and the cursor behind it. Nothing at the end of the
source. -/
def Cursor.next? (c : Cursor) : Option (Except Rejection Stmt × Cursor) :=
  if c.rest.isEmpty then none
  else some <| match Production.declaration c.fuel c with
    | .done stmt c' =>
      match c'.faults with
      | [] => (.ok stmt, c')
      | f :: fs => (.error ⟨f, fs⟩, { c' with faults := [] })
    | .failed fault c' =>
      (.error (Rejection.ending c'.faults fault),
        { c' with rest := Production.resume c'.rest, faults := [] })

/-- The declarations from the cursor on, at most `fuel` of them, and the cursor behind them. -/
def Cursor.items : (fuel : Nat) → Cursor → List (Except Rejection Stmt) × Cursor
  | 0, c => ([], c)
  | fuel + 1, c =>
    match c.next? with
    | none => ([], c)
    | some (item, c') =>
      let (items, c'') := items fuel c'
      (item :: items, c'')

/-- The statements of a list without faults, or all faults in order. -/
def collect : List (Except Rejection Stmt) → Except Rejection (List Stmt)
  | [] => .ok []
  | .ok stmt :: items => (collect items).map (stmt :: ·)
  | .error r :: items =>
    match collect items with
    | .ok _ => .error r
    | .error r' => .error ⟨r.first, r.more ++ r'.toList⟩

/-- The declarations of a list of tokens one by one. Every declaration takes at least one token. -/
def parseItems (tokens : List Token) (nextReference : Nat) :
    List (Except Rejection Stmt) × Cursor :=
  (Cursor.start tokens nextReference).items tokens.length

/-- The program that tokens spell, or all its faults; and the next free reference. -/
def parseProgram (tokens : List Token) (nextReference : Nat) :
    Except Rejection (List Stmt) × Nat :=
  let (items, c) := parseItems tokens nextReference
  (collect items, c.nextReference)

/-- One expression that all tokens spell; and the next free reference. -/
def parseExpression (tokens : List Token) (nextReference : Nat) :
    Except SyntaxFault Expr × Nat :=
  let c := Cursor.start tokens nextReference
  match Production.expression c.fuel c with
  | .done e c' =>
    if c'.rest.isEmpty then (.ok e, c'.nextReference)
    else (.error ⟨.expected .endOfExpression, c'.place⟩, c'.nextReference)
  | .failed fault c' => (.error fault, c'.nextReference)

end TreeWalk
