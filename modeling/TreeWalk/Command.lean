import TreeWalk.Tree.Printer
import TreeWalk.Session

/-!
# Commands

What each command of the command line writes, and the code it exits with. `tokenize` lists the
tokens of a file, `parse` shows its syntax tree, `run` runs it, and a dialogue runs the lines of its
input one after the other in one session.
-/

namespace TreeWalk

structure Report where
  exit : Nat
  stdout : String
  stderr : String
deriving DecidableEq, Repr

/-! ### Tokens as JSON -/

namespace Json

def hexByte (n : Nat) : String :=
  String.ofList [Nat.digitChar (n / 16), Nat.digitChar (n % 16)]

/-- A character inside of a quoted text. -/
def escape (c : Char) : String :=
  if c = '"' then "\\\""
  else if c = '\\' then "\\\\"
  else if c = '\n' then "\\n"
  else if c = '\r' then "\\r"
  else if c = '\t' then "\\t"
  else if c.toNat = 8 then "\\b"
  else if c.toNat = 12 then "\\f"
  else if c.toNat < 32 then "\\u00" ++ hexByte c.toNat
  else String.singleton c

def quoted (s : String) : String :=
  "\"" ++ String.join (s.toList.map escape) ++ "\""

/-- A kind with a value is an object with one field. -/
def kindWith (name value : String) : String :=
  "\x7b\n      " ++ quoted name ++ ": " ++ value ++ "\n    \x7d"

def kind : TokenKind → String
  | .string content => kindWith "STRING" (quoted content)
  | .number value => kindWith "NUMBER" (floatJsonText value)
  | k => quoted k.name

def token (t : Token) : String :=
  "  \x7b\n    \"token_type\": " ++ kind t.kind ++ ",\n    \"lexeme\": " ++ quoted t.lexeme ++
    ",\n    \"line\": " ++ natText t.line ++ "\n  \x7d"

/-- A list of tokens, indented by two blanks a level. -/
def tokens (ts : List Token) : String :=
  match ts with
  | [] => "[]"
  | ts => "[\n" ++ String.intercalate ",\n" (ts.map token) ++ "\n]"

end Json

namespace Command

/-- Texts, each on a line of its own. -/
def lines (texts : List String) : String :=
  String.join (texts.map (· ++ "\n"))

def success (stdout : String) : Report := ⟨0, stdout, ""⟩

/-- A command that ended with a diagnostic. -/
def failure (stdout : String) (d : Diagnostic) : Report := ⟨d.exitCode, stdout, d.text ++ "\n"⟩

def missing (file : String) : Report :=
  ⟨1, "", "Error: Failed to open file \"" ++ file ++
    "\"\n\nCaused by:\n    No such file or directory (os error 2)\n"⟩

def malformedText (e : Utf8.Malformed) : String :=
  match e.length with
  | some n =>
    "invalid utf-8 sequence of " ++ natText n ++ " bytes from index " ++ natText e.validUpTo
  | none => "incomplete utf-8 byte sequence from index " ++ natText e.validUpTo

def notText (file : String) (e : Utf8.Malformed) : Report :=
  ⟨1, "", "Error: \"" ++ file ++ "\" is not valid UTF-8\n\nCaused by:\n    " ++
    malformedText e ++ "\n"⟩

def goodTokens (items : List (Except LexFault Token)) : List Token :=
  items.filterMap fun
    | .ok t => some t
    | .error _ => none

def faults (items : List (Except LexFault Token)) : List LexFault :=
  items.filterMap fun
    | .ok _ => none
    | .error f => some f

/-- Lists the tokens of a source, line by line or as JSON. -/
def tokenize (json : Bool) (source : List UInt8) : Report :=
  let items := Lexer.scan source
  let good := goodTokens items
  let bad := faults items
  { exit := if bad.isEmpty then 0 else 65
    stdout := if json then Json.tokens good ++ "\n" else lines (good.map Token.text)
    stderr := lines (bad.map LexFault.text) }

/-- Shows the syntax tree of a source, a statement on each line. -/
def parse (source : List UInt8) : Report :=
  match (Session.start 0).parse source with
  | (.ok program, _) => success (lines (program.map Stmt.text))
  | (.error d, _) => failure "" d

def run (limit : Nat) (time : Float) (file : String) (source : List UInt8) : Option Report :=
  match Utf8.decode source with
  | .error e => some (notText file e)
  | .ok _ =>
    match (Session.start time).run limit source with
    | none => none
    | some (outcome, s) =>
      match outcome with
      | .ok _ => some (success s.machine.output)
      | .error d => some (failure s.machine.output d)

end Command

namespace Dialogue

/-- What stands before each line of input. -/
def prompt : String := "> "

/-- What is said when a line of input is not text. -/
def notText : String := "Error: stream did not contain valid UTF-8\n"

/-- Splits input into lines; each but the last keeps the newline it ends with. -/
def splitLines : List UInt8 → List (List UInt8)
  | [] => []
  | b :: rest =>
    if b = 10 then [b] :: splitLines rest
    else match splitLines rest with
      | [] => [[b]]
      | line :: more => (b :: line) :: more

/-- What a line of input led to. -/
inductive Turn where
  | notText
  /-- What went to output and to the error stream, and the session afterwards. -/
  | ran (output errors : String) (session : Session)

/-- Runs a line of input. The values of expressions are shown, each on a line of its own. -/
def runLine (limit : Nat) (line : List UInt8) (s : Session) : Option Turn :=
  match Utf8.decode line with
  | .error _ => some .notText
  | .ok _ =>
    match s.run limit line with
    | none => none
    | some (outcome, s) =>
      let (output, s) := s.takeOutput
      match outcome with
      | .ok values =>
        let shown := (values.filterMap id).map s.machine.heap.text
        some (.ran (output ++ Command.lines shown) "" s)
      | .error d => some (.ran output (d.text ++ "\n") s)

/-- Runs lines of input up to the end or to one that is not text. -/
def runLines (limit : Nat) (s : Session) : List (List UInt8) → Option Report
  | [] => some ⟨0, prompt, ""⟩
  | line :: rest =>
    match runLine limit line s with
    | none => none
    | some .notText => some ⟨1, prompt, notText⟩
    | some (.ran output errors s) =>
      match runLines limit s rest with
      | none => none
      | some report =>
        some ⟨report.exit, prompt ++ output ++ report.stdout, errors ++ report.stderr⟩

def run (limit : Nat) (time : Float) (input : List UInt8) : Option Report :=
  runLines limit (.start time) (splitLines input)

end Dialogue

end TreeWalk
