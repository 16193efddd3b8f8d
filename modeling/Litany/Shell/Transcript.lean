import Litany.Session
import Litany.Shell.Command
import Litany.Shell.Files
import Litany.Shell.Runner
import Litany.Text.Blank

/-!
# What the program writes

The whole behaviour of the program as a function of its arguments, the files around it, its standard
input and the programs that it can start: what it writes to its two outputs, and its exit status. A
runner writes to the same outputs while a block is handed over, that is before the output of the
text that holds the block.
-/

namespace Litany

namespace Shell

/-- What was written so far, and the exit status. -/
structure Transcript where
  status : Nat
  out : String
  err : String
deriving DecidableEq, Repr

namespace Transcript

/-- Nothing was written and nothing failed. -/
def empty : Transcript :=
  ⟨0, "", ""⟩

/-- Write to standard output. -/
def print (t : Transcript) (text : String) : Transcript :=
  { t with out := t.out ++ text }

/-- Write a line to standard error. -/
def complain (t : Transcript) (text : String) : Transcript :=
  { t with err := t.err ++ text ++ "\n" }

/-- Write what a runner wrote when it was handed the given blocks after the earlier ones. -/
def relay (t : Transcript) (runner : Option Runner) (earlier : List String) :
    List String → Transcript
  | [] => t
  | body :: blocks =>
    match runner with
    | none => t
    | some r =>
      let reply := r.hand earlier body
      relay { t with out := t.out ++ reply.out, err := t.err ++ reply.err } runner
        (earlier ++ [body]) blocks

end Transcript

/-! ### Files -/

/-- The texts that a file in the given directory may include. -/
def fetcher (files : Files) (base : String) : Fetcher :=
  fun earlier path =>
    let files := earlier.foldl (fun files path => files.afterReading (join base path)) files
    (files.text (join base path)).mapError FileError.text

/-- The end of a run that failed. -/
def failed (t : Transcript) (message : String) : Transcript :=
  { t.complain ("Failed run file: " ++ message) with status := 1 }

/-- Run what was read from the file at the given path. -/
def runSource (fetch : Fetcher) (path : String) (source : Except FileError String)
    (runner : Option Runner) : Transcript :=
  match source with
  | .error _ => failed .empty (internalMessage ("Failed open source file " ++ path))
  | .ok source =>
    let host : Host := ⟨some fetch, runner.map Runner.executor⟩
    let answer := (Session.fresh.step host Session.ample .whole source).1
    let relayed := Transcript.empty.relay runner [] answer.blocks
    match answer.outcome with
    | .ok output => relayed.print output
    | .error f => failed relayed f.report

/-- Run the text of a file. -/
def runFile (files : Files) (path : String) (runner : Option Runner) : Transcript :=
  runSource (fetcher (files.afterReading path) (directory path)) path (files.text path) runner

/-! ### The prompt -/

/-- What stands in front of every line that is read. -/
def promptText : String := "> "

/-- What is written when the input ends. -/
def farewell : String := "\nExited zholyc repl\n"

/-- The output of a line, with a line end behind it unless it is empty or has one. -/
def terminated (output : String) : String :=
  match output.toList.getLast? with
  | none => ""
  | some '\n' => output
  | some _ => output ++ "\n"

/-- Run one line of input, given as bytes with its line end, and write what comes of it. -/
def runLine (runner : Option Runner) (line : ByteArray) (s : Session) (t : Transcript) :
    Session × Transcript :=
  match String.fromUTF8? line with
  | none => (s, t.complain ("Failed read line: " ++ FileError.notText.text))
  | some text =>
    let host : Host := ⟨none, runner.map Runner.executor⟩
    let (answer, later) := s.step host Session.ample .onTop (Text.trim text)
    let relayed := t.relay runner s.machine.blocks answer.blocks
    match answer.outcome with
    | .ok output => (later, relayed.print (terminated output))
    | .error f => (later, relayed.complain f.report)

/-- The lines of an input, each with its line end. -/
def inputLines : List UInt8 → List (List UInt8)
  | [] => []
  | b :: rest =>
    if b = 10 then [b] :: inputLines rest
    else
      match inputLines rest with
      | [] => [[b]]
      | line :: lines => (b :: line) :: lines

/-- Read lines until the input ends. -/
def runPrompt (runner : Option Runner) (input : ByteArray) : Transcript :=
  let (_, t) := (inputLines input.toList).foldl (fun (s, t) line =>
    runLine runner line.toByteArray s (t.print promptText)) (Session.fresh, Transcript.empty)
  (t.print promptText).print farewell

/-! ### The program -/

/-- The end of a run that never began. -/
def refused (r : Refusal) : Transcript :=
  ⟨1, "", r.text⟩

/-- The program. A runner is started by its name. -/
def run (arguments : List String) (files : Files) (input : ByteArray)
    (start : String → Runner := Runner.unsupported) : Transcript :=
  match Command.ofArguments arguments with
  | .error r => refused r
  | .ok (.file path runner) => runFile { files with input } path (runner.map start)
  | .ok (.prompt runner) => runPrompt (runner.map start) input

end Shell

end Litany
