import TreeWalk.Token.Lexer
import TreeWalk.Tree.Parser
import TreeWalk.Tree.Scoping
import TreeWalk.Fault

/-!
# Diagnostics

Everything that can be wrong with a program, and how it is worded. Faults in tokens, syntax and
scopes are found before the program runs; the others while it runs.
-/

namespace TreeWalk

inductive Diagnostic where
  | lexical (fault : LexFault)
  | syntactic (faults : Rejection)
  | scoping (fault : ScopeFault)
  | runtime (fault : Fault)
deriving DecidableEq

def LexCause.message : LexCause → String
  | unterminated => "Unterminated string."
  | notText => "Invalid UTF-8 in source."
  | unexpected byte => "Unexpected character: " ++ String.singleton (Lexer.charOf byte)

def FunctionKind.text : FunctionKind → String
  | function => "function"
  | method => "method"

/-- What was looked for, as it is named in "Expect ….". -/
def Expected.text : Expected → String
  | expression => "expression"
  | endOfExpression => "end of expression"
  | className => "class name"
  | functionName kind => kind.text ++ " name"
  | parameterName => "parameter name"
  | variableName => "variable name"
  | propertyName => "property name after '.'"
  | parenAfterName kind => "'(' after " ++ kind.text ++ " name"
  | parenAfterFor => "'(' after 'for'"
  | parenAfterIf => "'(' after 'if'"
  | parenAfterWhile => "'(' after 'while'"
  | parenAfterFun => "'(' after 'fun'"
  | closeParameters => "')' after parameters"
  | closeArguments => "')' after arguments"
  | closeGroup => "')' after expression"
  | closeIfCondition => "')' after if condition"
  | closeWhileCondition => "')' after condition"
  | closeForClauses => "')' after for clauses"
  | openClassBody => "'\x7b' before class body"
  | openFunctionBody kind => "'\x7b' before " ++ kind.text ++ " body"
  | closeClassBody => "'\x7d' after class body"
  | closeBlock => "'\x7d' after block"
  | endOfVariables => "';' after variable declaration"
  | endOfLoopCondition => "';' after loop condition"
  | endOfBreak => "';' after 'break'"
  | endOfContinue => "';' after 'continue'"
  | endOfPrint => "';' after value"
  | endOfReturn => "';' after return value"
  | endOfStatement => "';' after expression"
  | closeIndex => "']' after index"
  | closeArray => "']' after array elements"
  | ternaryColon => "':' after ternary '?'"

def SyntaxCause.message : SyntaxCause → String
  | expected what => "Expect " ++ what.text ++ "."
  | tooManyParameters => "Can't have more than " ++ natText maxArguments ++ " parameters."
  | tooManyArguments => "Can't have more than " ++ natText maxArguments ++ " arguments."
  | breakOutsideLoop => "Can't use 'break' outside of a loop."
  | continueOutsideLoop => "Can't use 'continue' outside of a loop."
  | invalidTarget => "Invalid assignment target."
  | tooDeep => "Nesting too deep."

def ScopeCause.message : ScopeCause → String
  | alreadyDeclared => "Already a variable with this name in this scope."
  | readInInitializer => "Can't read local variable in its own initializer."
  | returnAtTopLevel => "Can't return from top-level code."
  | valueFromInitializer => "Can't return a value from an initializer."
  | thisOutsideClass => "Can't use 'this' outside of a class."

def RunCause.message : RunCause → String
  | undefinedVariable name => "Undefined variable '" ++ name ++ "'."
  | undefinedProperty name => "Undefined property '" ++ name ++ "'."
  | notCallable type => "Can only call functions and classes, not " ++ type.text ++ "."
  | wrongArgumentCount arity count =>
    "Expected " ++ arity.text ++ " arguments but got " ++ natText count ++ "."
  | stackOverflow => "Stack overflow: more than " ++ natText maxDepth ++ " nested calls."
  | noProperties => "Only instances have properties."
  | noFields => "Only instances have fields."
  | notIndexable type => "Can only index arrays, not " ++ type.text ++ "."
  | positionNotWhole shown => "Array index must be an integer, not " ++ shown ++ "."
  | positionOutOfRange position length =>
    "Array index " ++ intText position ++ " out of range for length " ++ natText length ++ "."
  | unknownUnary lexeme => "Invalid unary operator '" ++ lexeme ++ "'."
  | unknownBinary lexeme => "Invalid binary operator '" ++ lexeme ++ "'."
  | noLength type => "Can't take the length of a " ++ type.text ++ "."
  | returnAtTopLevel => "Can't return from top-level code."
  | jumpAtTopLevel => "Can't use 'break' or 'continue' outside of a loop."

def Target.text : Target → String
  | int => "int"
  | float => "float"
  | string => "string"

/-- The part of a diagnostic that names its line. -/
def lineText (line : Nat) : String :=
  "[line " ++ natText line ++ "] "

def LexFault.text (f : LexFault) : String :=
  lineText f.line ++ "Error: " ++ f.cause.message

def SyntaxFault.text (f : SyntaxFault) : String :=
  lineText f.place.line ++ "Error" ++ f.place.text ++ ": " ++ f.cause.message

def ScopeFault.text (f : ScopeFault) : String :=
  lineText f.place.line ++ "Error" ++ f.place.text ++ ": " ++ f.cause.message

/-- The line below a runtime error that names the active calls. -/
def traceText : List String → String
  | [] => ""
  | names => "\n  in " ++ String.intercalate " -> " names

def Fault.text : Fault → String
  | runtime cause line trace =>
    lineText line ++ "Runtime error: " ++ cause.message ++ traceText trace
  | conversion shown target =>
    "Convert error: can't convert " ++ shown ++ " to " ++ target.text ++ "."

namespace Diagnostic

/-- The text of a diagnostic; several faults stand on lines of their own. -/
def text : Diagnostic → String
  | lexical f => f.text
  | syntactic r => String.intercalate "\n" (r.toList.map SyntaxFault.text)
  | scoping f => f.text
  | runtime f => f.text

/-- Whether the program was rejected before it ran. -/
def isStatic : Diagnostic → Bool
  | runtime _ => false
  | _ => true

/-- The exit code of a command that ends with a diagnostic. -/
def exitCode : Diagnostic → Nat
  | runtime _ => 70
  | _ => 65

end Diagnostic

end TreeWalk
