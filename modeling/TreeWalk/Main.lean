import TreeWalk.Command

/-!
# The command line
-/

namespace TreeWalk.Main

/-- More steps than any run takes. -/
def stepLimit : Nat := 4611686018427387904

def usage : String :=
  "Usage: treewalk tokenize FILE [--json] | parse FILE | run FILE | repl\n"

/-- Seconds on the clock. -/
def now : IO Float := do
  let ms ← IO.monoMsNow
  return ms.toFloat / 1000.0

/-- Writes a report and gives its exit code. -/
def finish (r : Report) : IO UInt32 := do
  IO.print r.stdout
  IO.eprint r.stderr
  return r.exit.toUInt32

/-- Runs a command on the bytes of a file. -/
def onFile (file : String) (command : List UInt8 → Option Report) : IO UInt32 := do
  let bytes ← try
      let bytes ← IO.FS.readBinFile file
      pure (some bytes)
    catch _ => pure none
  match bytes with
  | none => finish (Command.missing file)
  | some bytes =>
    match command bytes.toList with
    | some report => finish report
    | none => return 1

/-- Reads bytes up to a newline, or to the end of the input. -/
partial def readLine (input : IO.FS.Stream) (line : ByteArray) : IO ByteArray := do
  let bytes ← input.read 1
  let line := line ++ bytes
  if bytes.isEmpty || bytes.data.contains 10 then return line else readLine input line

/-- Reads and runs lines until the input ends. -/
partial def dialogue (input output : IO.FS.Stream) (s : Session) : IO UInt32 := do
  output.putStr Dialogue.prompt
  output.flush
  let line ← readLine input .empty
  if line.isEmpty then return 0
  match Dialogue.runLine stepLimit line.toList s with
  | none => return 1
  | some .notText =>
    IO.eprint Dialogue.notText
    return 1
  | some (.ran shown errors s) =>
    output.putStr shown
    output.flush
    IO.eprint errors
    dialogue input output s

/-- Runs the command that the arguments name. -/
def run (arguments : List String) : IO UInt32 := do
  match arguments with
  | ["tokenize", file] => onFile file fun source => some (Command.tokenize false source)
  | ["tokenize", file, "--json"] => onFile file fun source => some (Command.tokenize true source)
  | ["tokenize", "--json", file] => onFile file fun source => some (Command.tokenize true source)
  | ["parse", file] => onFile file fun source => some (Command.parse source)
  | ["run", file] => do
    let time ← now
    onFile file (Command.run stepLimit time file)
  | ["repl"] => do
    let time ← now
    dialogue (← IO.getStdin) (← IO.getStdout) (.start time)
  | _ =>
    IO.eprint usage
    return 2

end TreeWalk.Main

/-- The program: `--log` is taken anywhere among the arguments and changes nothing. -/
def main (arguments : List String) : IO UInt32 :=
  TreeWalk.Main.run (arguments.filter (· != "--log"))
