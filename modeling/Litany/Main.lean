import Litany.Shell.Transcript

/-!
# The executable

Carries the arguments, the files and the two outputs of the process to and from `Litany.Shell`.
Included files are read one by one, as a first reading of the source asks for them; the program
then runs on the texts found. How a runner is started is a parameter of `program`; the executable by
itself starts none.
-/

namespace Litany

namespace Shell

/-- The text of a file of the system. -/
def readText (path : String) : IO (Except FileError String) := do
  try
    let contents ← IO.FS.readBinFile path
    match String.fromUTF8? contents with
    | some text => return .ok text
    | none => return .error .notText
  catch e =>
    match e with
    | .noFileOrDirectory .. => return .error .notFound
    | .inappropriateType .. => return .error .isDirectory
    | _ => return .error .notDirectory

/-- The answers of a table of texts by the path they are asked for with. -/
def tableFetcher (table : List (String × Except FileError String)) : Fetcher :=
  fun _ path => ((table.lookup path).getD (.error .notFound)).mapError FileError.text

/-- Read every file that a source asks for, `n` at most. -/
def gather (base source : String) :
    Nat → List (String × Except FileError String) → IO (List (String × Except FileError String))
  | 0, table => return table
  | n + 1, table => do
    let scan := Stream.ofText (some (tableFetcher table)) [] source
    match scan.fetched.find? fun path => (table.lookup path).isNone with
    | none => return table
    | some path => gather base source n ((path, ← readText (join base path)) :: table)

/-- Write a transcript to the outputs of the process. -/
def emit (t : Transcript) : IO Unit := do
  (← IO.getStderr).putStr t.err
  (← IO.getStdout).putStr t.out
  (← IO.getStdout).flush

/-- The bytes of a line of input up to its line end, behind those already read. -/
partial def readLine (input : IO.FS.Stream) (line : ByteArray) : IO ByteArray := do
  let byte ← input.read 1
  if byte.isEmpty then return line
  if byte.toList == [10] then return line ++ byte
  readLine input (line ++ byte)

/-- Read lines until the input ends. -/
partial def promptLoop (runner : Option Runner) (s : Session) : IO Unit := do
  emit (Transcript.empty.print promptText)
  let line ← readLine (← IO.getStdin) ByteArray.empty
  if line.isEmpty then emit (Transcript.empty.print farewell)
  else
    let (s, t) := runLine runner line s .empty
    emit t
    promptLoop runner s

/-- Run the program with the given arguments. A runner is started by its name. -/
def program (start : String → Runner) (arguments : List String) : IO UInt32 := do
  match Command.ofArguments arguments with
  | .error r =>
    emit (refused r)
    return 1
  | .ok (.prompt runner) =>
    promptLoop (runner.map start) Session.fresh
    return 0
  | .ok (.file path runner) =>
    let source ← readText path
    let table ←
      match source with
      | .ok text => gather (directory path) text Stream.includeBudget []
      | .error _ => pure []
    let t := runSource (tableFetcher table) path source (runner.map start)
    emit t
    return t.status.toUInt32

end Shell

end Litany

/-- Run the program with the arguments of the process. -/
def main (arguments : List String) : IO UInt32 :=
  Litany.Shell.program Litany.Shell.Runner.unsupported arguments
