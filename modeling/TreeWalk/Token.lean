import TreeWalk.Number.Written

/-!
# Tokens

A token is a symbol, a keyword, a name, a string, a number or the end of the source, with the bytes
it was read from and the line it ends on.
-/

namespace TreeWalk

inductive Symbol where
  | leftParen | rightParen | leftBrace | rightBrace | leftBracket | rightBracket
  | comma | dot | question | colon | semicolon
  | minus | minusMinus | plus | plusPlus | slash | star
  | bang | bangEqual | equal | equalEqual | greater | greaterEqual | less | lessEqual
deriving DecidableEq, Repr

inductive Keyword where
  | and_ | break_ | class_ | continue_ | else_ | false_ | fun_ | for_ | if_ | nil_ | or_ | print_
  | return_ | super_ | this_ | true_ | var_ | while_
deriving DecidableEq, Repr

namespace Symbol

/-- The name of a symbol in a list of tokens. -/
def name : Symbol → String
  | leftParen => "LEFT_PAREN" | rightParen => "RIGHT_PAREN"
  | leftBrace => "LEFT_BRACE" | rightBrace => "RIGHT_BRACE"
  | leftBracket => "LEFT_BRACKET" | rightBracket => "RIGHT_BRACKET"
  | comma => "COMMA" | dot => "DOT" | question => "QUESTION" | colon => "COLON"
  | semicolon => "SEMICOLON"
  | minus => "MINUS" | minusMinus => "MINUS_MINUS"
  | plus => "PLUS" | plusPlus => "PLUS_PLUS"
  | slash => "SLASH" | star => "STAR"
  | bang => "BANG" | bangEqual => "BANG_EQUAL"
  | equal => "EQUAL" | equalEqual => "EQUAL_EQUAL"
  | greater => "GREATER" | greaterEqual => "GREATER_EQUAL"
  | less => "LESS" | lessEqual => "LESS_EQUAL"

def all : List Symbol :=
  [leftParen, rightParen, leftBrace, rightBrace, leftBracket, rightBracket, comma, dot, question,
    colon, semicolon, minus, minusMinus, plus, plusPlus, slash, star, bang, bangEqual, equal,
    equalEqual, greater, greaterEqual, less, lessEqual]

end Symbol

namespace Keyword

/-- How a keyword is written in a source. -/
def text : Keyword → String
  | and_ => "and" | break_ => "break" | class_ => "class" | continue_ => "continue"
  | else_ => "else" | false_ => "false" | fun_ => "fun" | for_ => "for" | if_ => "if"
  | nil_ => "nil" | or_ => "or" | print_ => "print" | return_ => "return" | super_ => "super"
  | this_ => "this" | true_ => "true" | var_ => "var" | while_ => "while"

/-- The name of a keyword in a list of tokens. -/
def name : Keyword → String
  | and_ => "AND" | break_ => "BREAK" | class_ => "CLASS" | continue_ => "CONTINUE"
  | else_ => "ELSE" | false_ => "FALSE" | fun_ => "FUN" | for_ => "FOR" | if_ => "IF"
  | nil_ => "NIL" | or_ => "OR" | print_ => "PRINT" | return_ => "RETURN" | super_ => "SUPER"
  | this_ => "THIS" | true_ => "TRUE" | var_ => "VAR" | while_ => "WHILE"

def all : List Keyword :=
  [and_, break_, class_, continue_, else_, false_, fun_, for_, if_, nil_, or_, print_, return_,
    super_, this_, true_, var_, while_]

/-- The keyword that is written as `word`. -/
def ofText? (word : String) : Option Keyword :=
  all.find? fun k => k.text == word

end Keyword

/-- What a token is. Strings and numbers carry the value they stand for. -/
inductive TokenKind where
  | symbol (s : Symbol)
  | keyword (k : Keyword)
  | identifier
  | string (content : String)
  | number (value : Float)
  | endOfSource
deriving DecidableEq

/-- A token with its source text and line. -/
structure Token where
  kind : TokenKind
  lexeme : String
  line : Nat
deriving DecidableEq

namespace TokenKind

/-- The name of a kind in a list of tokens. -/
def name : TokenKind → String
  | symbol s => s.name
  | keyword k => k.name
  | identifier => "IDENTIFIER"
  | string _ => "STRING"
  | number _ => "NUMBER"
  | endOfSource => "EOF"

/-- The value of a string or a number. -/
def literalText : TokenKind → String
  | string content => content
  | number value => floatTokenText value
  | _ => "null"

/-- The kind with the given name; a string or a number takes its value from `content` or `value`. -/
def ofName? (name : String) (content : String) (value : Float) : Option TokenKind :=
  if name = "IDENTIFIER" then some identifier
  else if name = "STRING" then some (string content)
  else if name = "NUMBER" then some (number value)
  else if name = "EOF" then some endOfSource
  else match Symbol.all.find? fun s => s.name == name with
    | some s => some (symbol s)
    | none => (Keyword.all.find? fun k => k.name == name).map keyword

end TokenKind

/-- A place in a source that a diagnostic points to: a line and what stands there, or nothing at the
end of the source. -/
structure Place where
  line : Nat
  lexeme : Option String
deriving DecidableEq, Repr

/-- The part of a diagnostic that follows the word "Error". -/
def Place.text (p : Place) : String :=
  match p.lexeme with
  | some lexeme => " at '" ++ lexeme ++ "'"
  | none => " at end"

namespace Token

/-- Kind, source text and value, as a list of tokens shows them. -/
def text (t : Token) : String :=
  t.kind.name ++ " " ++ t.lexeme ++ " " ++ t.kind.literalText

def place (t : Token) : Place :=
  match t.kind with
  | .endOfSource => ⟨t.line, none⟩
  | _ => ⟨t.line, some t.lexeme⟩

/-- The token at the end of a source that ends on `line`. -/
def endOn (line : Nat) : Token :=
  ⟨.endOfSource, "", line⟩

def isSymbol (s : Symbol) (t : Token) : Bool :=
  match t.kind with
  | .symbol s' => s' == s
  | _ => false

def isKeyword (k : Keyword) (t : Token) : Bool :=
  match t.kind with
  | .keyword k' => k' == k
  | _ => false

def isIdentifier (t : Token) : Bool :=
  match t.kind with
  | .identifier => true
  | _ => false

def isEnd (t : Token) : Bool :=
  match t.kind with
  | .endOfSource => true
  | _ => false

end Token

end TreeWalk
