import TreeWalk.Token

/-!
# Syntax trees

Expressions, statements and function declarations. Operators, names and brackets stay tokens, so
that a diagnostic can point at them. An expression that refers to a variable (`variable`, `assign`,
`this`) carries a number of its own, its *reference*; the scope of the variable is looked up under
it.
-/

namespace TreeWalk

/-- A constant in a source. -/
inductive Literal where
  | nil
  | bool (b : Bool)
  | int (n : Int64)
  | float (x : Float)
  | string (s : String)
deriving DecidableEq

/-- Whether a unary operator stands before or after its operand. -/
inductive Fixity where
  | before
  | after
deriving DecidableEq, Repr

mutual

inductive Expr where
  | literal (value : Literal)
  | group (inner : Expr)
  | unary (operator : Token) (operand : Expr) (fixity : Fixity)
  | binary (left : Expr) (operator : Token) (right : Expr)
  | logical (left : Expr) (operator : Token) (right : Expr)
  | ternary (condition whenTrue whenFalse : Expr)
  | variable (reference : Nat) (name : Token)
  | assign (reference : Nat) (name : Token) (value : Expr)
  /-- `paren` is the closing parenthesis. -/
  | call (callee : Expr) (paren : Token) (arguments : List Expr)
  | array (bracket : Token) (elements : List Expr)
  | index (collection : Expr) (bracket : Token) (position : Expr)
  | get (object : Expr) (name : Token)
  | set (object : Expr) (name : Token) (value : Expr)
  | this (reference : Nat) (keyword : Token)
  | lambda (function : FunctionDecl)

/-- Parameters and body of a function, a method or a lambda. -/
structure FunctionDecl where
  /-- Absent in a lambda. -/
  name : Option Token
  parameters : List Token
  body : List Stmt
  /-- The name, or the keyword of a lambda. -/
  keyword : Token

inductive Stmt where
  | block (body : List Stmt)
  | expression (value : Expr)
  | print (value : Expr)
  /-- Several variables, each with its initial value if it has one. -/
  | var (bindings : List (Token × Option Expr))
  | function (decl : FunctionDecl)
  | classDecl (name : Token) (methods : List FunctionDecl)
  | conditional (condition : Expr) (whenTrue : Stmt) (whenFalse : Option Stmt)
  /-- `increment` runs after every round, also after one that was cut short. -/
  | loop (condition : Expr) (body : Stmt) (increment : Option Expr)
  | returning (keyword : Token) (value : Option Expr)
  | breaking (keyword : Token)
  | continuing (keyword : Token)

end

instance : Inhabited Expr := ⟨.literal .nil⟩

instance : Inhabited FunctionDecl := ⟨⟨none, [], [], Token.endOn 0⟩⟩

instance : Inhabited Stmt := ⟨.block []⟩

/-- The name under which a function is shown. -/
def FunctionDecl.label (f : FunctionDecl) : String :=
  match f.name with
  | some name => name.lexeme
  | none => "lambda"

/-- The line for a diagnostic about an expression; literals have none. -/
def Expr.line : Expr → Nat
  | .literal _ => 0
  | .group inner => inner.line
  | .unary operator _ _ => operator.line
  | .binary _ operator _ => operator.line
  | .logical _ operator _ => operator.line
  | .ternary condition _ _ => condition.line
  | .variable _ name => name.line
  | .assign _ name _ => name.line
  | .call _ paren _ => paren.line
  | .array bracket _ => bracket.line
  | .index _ bracket _ => bracket.line
  | .get _ name => name.line
  | .set _ name _ => name.line
  | .this _ keyword => keyword.line
  | .lambda function => function.keyword.line

/-- The line for a diagnostic about a statement; an empty block has none. -/
def Stmt.line : Stmt → Nat
  | .block [] => 0
  | .block (first :: _) => first.line
  | .expression value => value.line
  | .print value => value.line
  | .var [] => 0
  | .var ((name, _) :: _) => name.line
  | .function decl => decl.keyword.line
  | .classDecl name _ => name.line
  | .conditional condition _ _ => condition.line
  | .loop condition _ _ => condition.line
  | .returning keyword _ => keyword.line
  | .breaking keyword => keyword.line
  | .continuing keyword => keyword.line

end TreeWalk
