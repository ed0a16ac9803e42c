import TreeWalk.Text.Utf8
import TreeWalk.Number.Reading
import TreeWalk.Token

/-!
# From bytes to tokens

`scan` cuts a source into tokens and lexical faults, in order, and ends the list with the token for
the end of the source. A fault does not stop it: what the fault covers is dropped and scanning goes
on behind it. `tokens` is the same list for a source without faults.

`next` takes one piece off the front: blanks, a comment, a token or a fault. It always takes at
least one byte, so `scan` needs no more rounds than there are bytes.
-/

namespace TreeWalk

inductive LexCause where
  | unterminated
  /-- A string whose bytes are not UTF-8. -/
  | notText
  | unexpected (byte : UInt8)
deriving DecidableEq, Repr

/-- A lexical fault and the line it was found on. -/
structure LexFault where
  cause : LexCause
  line : Nat
deriving DecidableEq, Repr

namespace Lexer

def isDigit (b : UInt8) : Bool :=
  48 ≤ b && b ≤ 57

def startsWord (b : UInt8) : Bool :=
  97 ≤ b && b ≤ 122 || 65 ≤ b && b ≤ 90 || b == 95

def continuesWord (b : UInt8) : Bool :=
  startsWord b || isDigit b

/-- The character with the number of a byte. -/
def charOf (b : UInt8) : Char :=
  Char.ofNat b.toNat

def asciiText (bytes : List UInt8) : String :=
  String.ofList (bytes.map charOf)

/-- How many lines end within `bytes`. -/
def newlines (bytes : List UInt8) : Nat :=
  bytes.countP (· == 10)

/-- The symbols of one byte that no second byte can extend. -/
def single? (b : UInt8) : Option Symbol :=
  match charOf b with
  | '(' => some .leftParen
  | ')' => some .rightParen
  | '{' => some .leftBrace
  | '}' => some .rightBrace
  | '[' => some .leftBracket
  | ']' => some .rightBracket
  | ',' => some .comma
  | '.' => some .dot
  | ';' => some .semicolon
  | '*' => some .star
  | '?' => some .question
  | ':' => some .colon
  | _ => none

/-- The symbols that a second byte can extend: the symbol of the byte alone, the second byte, and the
symbol of both. -/
def double? (b : UInt8) : Option (Symbol × Char × Symbol) :=
  match charOf b with
  | '-' => some (.minus, '-', .minusMinus)
  | '+' => some (.plus, '+', .plusPlus)
  | '!' => some (.bang, '=', .bangEqual)
  | '=' => some (.equal, '=', .equalEqual)
  | '<' => some (.less, '=', .lessEqual)
  | '>' => some (.greater, '=', .greaterEqual)
  | _ => none

inductive Item where
  /-- Blanks and comments. -/
  | skipped
  | token (t : Token)
  | fault (f : LexFault)

/-- One piece of a source: the item, the line after it and the bytes after it. -/
structure Piece where
  item : Item
  line : Nat
  rest : List UInt8

/-- A string whose opening quote has been taken. -/
def string (line : Nat) (bytes : List UInt8) : Piece :=
  let content := bytes.takeWhile (· != 34)
  let line := line + newlines content
  match bytes.dropWhile (· != 34) with
  | [] => ⟨.fault ⟨.unterminated, line⟩, line, []⟩
  | _ :: rest =>
    match Utf8.text? content with
    | none => ⟨.fault ⟨.notText, line⟩, line, rest⟩
    | some s => ⟨.token ⟨.string s, "\"" ++ s ++ "\"", line⟩, line, rest⟩

/-- The number that digits, a point and more digits spell. -/
def numberToken (line : Nat) (whole fraction : List UInt8) (lexeme : String) : Token :=
  let digits := (whole ++ fraction).map charOf
  ⟨.number (nearest (natOfDigits 0 digits) (-(fraction.length : Int))), lexeme, line⟩

/-- A number: digits and, if a digit follows a point, the point and the digits after it. -/
def number (line : Nat) (bytes : List UInt8) : Piece :=
  let whole := bytes.takeWhile isDigit
  let rest := bytes.dropWhile isDigit
  match rest with
  | 46 :: d :: more =>
    if isDigit d then
      let fraction := (d :: more).takeWhile isDigit
      let lexeme := asciiText (whole ++ 46 :: fraction)
      ⟨.token (numberToken line whole fraction lexeme), line, (d :: more).dropWhile isDigit⟩
    else ⟨.token (numberToken line whole [] (asciiText whole)), line, rest⟩
  | _ => ⟨.token (numberToken line whole [] (asciiText whole)), line, rest⟩

/-- A word: a keyword or a name. -/
def word (line : Nat) (bytes : List UInt8) : Piece :=
  let lexeme := asciiText (bytes.takeWhile continuesWord)
  let kind := match Keyword.ofText? lexeme with
    | some k => .keyword k
    | none => .identifier
  ⟨.token ⟨kind, lexeme, line⟩, line, bytes.dropWhile continuesWord⟩

/-- A symbol that may be one byte or two. -/
def oneOrTwo (line : Nat) (b : UInt8) (rest : List UInt8) (one : Symbol) (second : Char)
    (two : Symbol) : Piece :=
  match rest with
  | c :: rest' =>
    if charOf c = second then ⟨.token ⟨.symbol two, asciiText [b, c], line⟩, line, rest'⟩
    else ⟨.token ⟨.symbol one, asciiText [b], line⟩, line, rest⟩
  | [] => ⟨.token ⟨.symbol one, asciiText [b], line⟩, line, rest⟩

/-- A slash, or a comment up to the end of its line. -/
def slash (line : Nat) (rest : List UInt8) : Piece :=
  match rest with
  | 47 :: comment => ⟨.skipped, line, comment.dropWhile (· != 10)⟩
  | _ => ⟨.token ⟨.symbol .slash, "/", line⟩, line, rest⟩

/-- The piece that starts with byte `b`. -/
def next (line : Nat) (b : UInt8) (rest : List UInt8) : Piece :=
  match single? b with
  | some s => ⟨.token ⟨.symbol s, asciiText [b], line⟩, line, rest⟩
  | none =>
    match double? b with
    | some (one, second, two) => oneOrTwo line b rest one second two
    | none =>
      if b == 32 || b == 13 || b == 9 then ⟨.skipped, line, rest⟩
      else if b == 10 then ⟨.skipped, line + 1, rest⟩
      else if b == 47 then slash line rest
      else if b == 34 then string line rest
      else if isDigit b then number line (b :: rest)
      else if startsWord b then word line (b :: rest)
      else ⟨.fault ⟨.unexpected b, line⟩, line, rest⟩

/-- The pieces of the bytes that start on `line`, with at most `fuel` rounds. -/
def scanFrom : (fuel : Nat) → (line : Nat) → List UInt8 → List (Except LexFault Token)
  | fuel + 1, line, b :: bytes =>
    let piece := next line b bytes
    match piece.item with
    | .skipped => scanFrom fuel piece.line piece.rest
    | .token t => .ok t :: scanFrom fuel piece.line piece.rest
    | .fault f => .error f :: scanFrom fuel piece.line piece.rest
  | _, line, _ => [.ok (Token.endOn line)]

/-- The tokens and faults of a source, in order. -/
def scan (source : List UInt8) : List (Except LexFault Token) :=
  scanFrom source.length 1 source

/-- The tokens of a list of tokens and faults, or its first fault. -/
def firstFault : List (Except LexFault Token) → Except LexFault (List Token)
  | [] => .ok []
  | .ok t :: items => (firstFault items).map (t :: ·)
  | .error f :: _ => .error f

/-- The tokens of a source without lexical faults, or the first fault. -/
def tokens (source : List UInt8) : Except LexFault (List Token) :=
  firstFault (scan source)

end Lexer

end TreeWalk
