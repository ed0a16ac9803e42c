import TreeWalk.Tree

/-!
# Syntax trees as text

A tree is shown as nested lists in parentheses: a word for the node, then its parts.
-/

namespace TreeWalk

/-- A constant as a tree shows it. -/
def Literal.text : Literal → String
  | nil => "nil"
  | bool b => if b then "true" else "false"
  | int n => intText n.toInt
  | float x => floatLiteralText x
  | string s => "\"" ++ s ++ "\""

/-- The word for a unary operator. -/
def Fixity.word : Fixity → String → String
  | before, operator => operator
  | after, operator => "post" ++ operator

/-- The names of parameters, in parentheses. -/
def parametersText (parameters : List Token) : String :=
  "(" ++ String.intercalate " " (parameters.map Token.lexeme) ++ ")"

mutual

def Expr.text : Expr → String
  | .literal value => value.text
  | .group inner => "(group " ++ inner.text ++ ")"
  | .unary operator operand fixity =>
    "(" ++ fixity.word operator.lexeme ++ " " ++ operand.text ++ ")"
  | .binary left operator right =>
    "(" ++ operator.lexeme ++ " " ++ left.text ++ " " ++ right.text ++ ")"
  | .logical left operator right =>
    "(" ++ operator.lexeme ++ " " ++ left.text ++ " " ++ right.text ++ ")"
  | .ternary condition whenTrue whenFalse =>
    "(? " ++ condition.text ++ " " ++ whenTrue.text ++ " " ++ whenFalse.text ++ ")"
  | .variable _ name => name.lexeme
  | .assign _ name value => "(= " ++ name.lexeme ++ " " ++ value.text ++ ")"
  | .call callee _ arguments => "(call " ++ callee.text ++ exprsText arguments ++ ")"
  | .array _ elements => "(array" ++ exprsText elements ++ ")"
  | .index collection _ position => "(index " ++ collection.text ++ " " ++ position.text ++ ")"
  | .get object name => "(. " ++ object.text ++ " " ++ name.lexeme ++ ")"
  | .set object name value =>
    "(.= " ++ object.text ++ " " ++ name.lexeme ++ " " ++ value.text ++ ")"
  | .this _ _ => "this"
  | .lambda function => function.text "lambda"

/-- Expressions, each after a blank. -/
def exprsText : List Expr → String
  | [] => ""
  | e :: rest => " " ++ e.text ++ exprsText rest

/-- A function under the word `head`. -/
def FunctionDecl.text (head : String) : FunctionDecl → String
  | ⟨name, parameters, body, keyword⟩ =>
    "(" ++ head ++ " " ++ FunctionDecl.label ⟨name, parameters, body, keyword⟩ ++ " " ++
      parametersText parameters ++ stmtsText body ++ ")"

def Stmt.text : Stmt → String
  | .block body => "(block" ++ stmtsText body ++ ")"
  | .expression value => "(; " ++ value.text ++ ")"
  | .print value => "(print " ++ value.text ++ ")"
  | .var bindings => "(var" ++ bindingsText bindings ++ ")"
  | .function decl => decl.text "fun"
  | .classDecl name methods => "(class " ++ name.lexeme ++ methodsText methods ++ ")"
  | .conditional condition whenTrue none => "(if " ++ condition.text ++ " " ++ whenTrue.text ++ ")"
  | .conditional condition whenTrue (some whenFalse) =>
    "(if " ++ condition.text ++ " " ++ whenTrue.text ++ " " ++ whenFalse.text ++ ")"
  | .loop condition body none => "(while " ++ condition.text ++ " " ++ body.text ++ ")"
  | .loop condition body (some increment) =>
    "(while " ++ condition.text ++ " " ++ body.text ++ " " ++ increment.text ++ ")"
  | .returning _ none => "(return)"
  | .returning _ (some value) => "(return " ++ value.text ++ ")"
  | .breaking _ => "(break)"
  | .continuing _ => "(continue)"

/-- Statements, each after a blank. -/
def stmtsText : List Stmt → String
  | [] => ""
  | s :: rest => " " ++ s.text ++ stmtsText rest

/-- Variables, each after a blank. -/
def bindingsText : List (Token × Option Expr) → String
  | [] => ""
  | (name, none) :: rest => " " ++ name.lexeme ++ bindingsText rest
  | (name, some value) :: rest =>
    " (= " ++ name.lexeme ++ " " ++ value.text ++ ")" ++ bindingsText rest

/-- Methods, each after a blank. -/
def methodsText : List FunctionDecl → String
  | [] => ""
  | f :: rest => " " ++ f.text "method" ++ methodsText rest

end

end TreeWalk
