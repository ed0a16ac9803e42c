import TreeWalk.Tree

/-!
# Reading tokens one after the other

A `Cursor` is where the reader stands in a list of tokens, and a `Production` reads something there.
It answers with what it read or with a fault, and in both cases with the cursor it left behind: a
reader that recovers from a fault goes on from there.

The end of the source is no token of the list. A cursor with nothing left stands at the end.
-/

namespace TreeWalk

/-- What a declaration of parameters and body belongs to. -/
inductive FunctionKind where
  | function
  | method
deriving DecidableEq, Repr

/-- What a reader looked for and did not find. -/
inductive Expected where
  | expression
  | endOfExpression
  | className
  | functionName (kind : FunctionKind)
  | parameterName
  | variableName
  | propertyName
  | parenAfterName (kind : FunctionKind)
  | parenAfterFor
  | parenAfterIf
  | parenAfterWhile
  | parenAfterFun
  | closeParameters
  | closeArguments
  | closeGroup
  | closeIfCondition
  | closeWhileCondition
  | closeForClauses
  | openClassBody
  | openFunctionBody (kind : FunctionKind)
  | closeClassBody
  | closeBlock
  | endOfVariables
  | endOfLoopCondition
  | endOfBreak
  | endOfContinue
  | endOfPrint
  | endOfReturn
  | endOfStatement
  | closeIndex
  | closeArray
  | ternaryColon
deriving DecidableEq, Repr

/-- Why tokens are no program. -/
inductive SyntaxCause where
  | expected (what : Expected)
  | tooManyParameters
  | tooManyArguments
  | breakOutsideLoop
  | continueOutsideLoop
  | invalidTarget
  /-- The reader gave up on tokens nested more deeply than there are tokens. -/
  | tooDeep
deriving DecidableEq, Repr

/-- A fault in the syntax and where it was found. -/
structure SyntaxFault where
  cause : SyntaxCause
  place : Place
deriving DecidableEq, Repr

/-- Where a reader stands. -/
structure Cursor where
  rest : List Token
  /-- The line on which the source ends. -/
  endLine : Nat
  /-- How many loops of the function at hand surround the place. -/
  loops : Nat
  /-- The faults recovered from, in the order in which they were found. -/
  faults : List SyntaxFault
  nextReference : Nat

/-- The answer of a production. -/
inductive Reply (α : Type) where
  | done (value : α) (after : Cursor)
  | failed (fault : SyntaxFault) (after : Cursor)

/-- A reader of an `α`. -/
def Production (α : Type) : Type :=
  Cursor → Reply α

namespace Cursor

def place (c : Cursor) : Place :=
  match c.rest with
  | t :: _ => ⟨t.line, some t.lexeme⟩
  | [] => ⟨c.endLine, none⟩

/-- The cursor at the start of `tokens`. Reading stops at the first end of source among them; a list
without one ends on line one. -/
def start (tokens : List Token) (nextReference : Nat) : Cursor where
  rest := tokens.takeWhile fun t => !t.isEnd
  endLine := match tokens.find? Token.isEnd with
    | some t => t.line
    | none => 1
  loops := 0
  faults := []
  nextReference := nextReference

/-- Whether the next token satisfies `p`. -/
def sees (p : Token → Bool) (c : Cursor) : Bool :=
  match c.rest with
  | t :: _ => p t
  | [] => false

/-- Whether the token after the next one satisfies `p`. -/
def seesSecond (p : Token → Bool) (c : Cursor) : Bool :=
  match c.rest with
  | _ :: t :: _ => p t
  | _ => false

end Cursor

namespace Production

@[always_inline, inline]
protected def pure {α : Type} (a : α) : Production α :=
  fun c => .done a c

@[always_inline, inline]
protected def bind {α β : Type} (p : Production α) (f : α → Production β) : Production β :=
  fun c => match p c with
    | .done a c' => f a c'
    | .failed fault c' => .failed fault c'

@[always_inline]
instance : Monad Production where
  pure := Production.pure
  bind := Production.bind

@[inline]
def fail {α : Type} (cause : SyntaxCause) : Production α :=
  fun c => .failed ⟨cause, c.place⟩ c

/-- Fails at a token that was read before. -/
@[inline]
def failAt {α : Type} (t : Token) (cause : SyntaxCause) : Production α :=
  fun c => .failed ⟨cause, t.place⟩ c

/-- Whether the next token satisfies `p`. -/
@[inline]
def check (p : Token → Bool) : Production Bool :=
  fun c => .done (c.sees p) c

/-- Takes the next token if it satisfies `p`. -/
def accept? (p : Token → Bool) : Production (Option Token) :=
  fun c => match c.rest with
    | t :: rest => if p t then .done (some t) { c with rest := rest } else .done none c
    | [] => .done none c

/-- Takes the next token, which has to satisfy `p`. -/
def expect (p : Token → Bool) (what : Expected) : Production Token :=
  fun c => match c.rest with
    | t :: rest =>
      if p t then .done t { c with rest := rest } else .failed ⟨.expected what, c.place⟩ c
    | [] => .failed ⟨.expected what, c.place⟩ c

def symbol? (s : Symbol) : Production (Option Token) :=
  accept? (Token.isSymbol s)

def keyword? (k : Keyword) : Production (Option Token) :=
  accept? (Token.isKeyword k)

def symbol (s : Symbol) (what : Expected) : Production Token :=
  expect (Token.isSymbol s) what

def identifier (what : Expected) : Production Token :=
  expect Token.isIdentifier what

/-- A reference that was not given out before. -/
def freshReference : Production Nat :=
  fun c => .done c.nextReference { c with nextReference := c.nextReference + 1 }

/-- Runs `p` in as many loops as `enter` makes of the number at hand. Whether `p` succeeds or fails,
`leave` gives the number behind it, from the one before and the one that `p` left. -/
@[inline]
def withLoops {α : Type} (enter : Nat → Nat) (leave : (before after : Nat) → Nat)
    (p : Production α) : Production α :=
  fun c => match p { c with loops := enter c.loops } with
    | .done a c' => .done a { c' with loops := leave c.loops c'.loops }
    | .failed fault c' => .failed fault { c' with loops := leave c.loops c'.loops }

/-- The keywords at which reading resumes after a fault. -/
def startsStatement (t : Token) : Bool :=
  match t.kind with
  | .keyword k => k ∈ [.class_, .fun_, .var_, .for_, .if_, .while_, .print_, .return_, .break_,
      .continue_]
  | _ => false

/-- Drops tokens up to a keyword that starts a statement or to what follows a semicolon; `last` is
the token dropped before. -/
def skipFrom (last : Token) : List Token → List Token
  | [] => []
  | t :: rest =>
    if last.isSymbol .semicolon || startsStatement t then t :: rest else skipFrom t rest

/-- The tokens at which reading goes on after a fault. The token at fault is always dropped. -/
def resume : List Token → List Token
  | [] => []
  | t :: rest => skipFrom t rest

/-- Runs `p`; a fault is noted, and reading goes on behind it. -/
@[inline]
def recovering {α : Type} (p : Production α) : Production (Option α) :=
  fun c => match p c with
    | .done a c' => .done (some a) c'
    | .failed fault c' =>
      .done none { c' with rest := resume c'.rest, faults := c'.faults ++ [fault] }

end Production

end TreeWalk
