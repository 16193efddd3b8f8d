/-!
# The command line

What the arguments of the program ask for: to run a file, to read lines from a prompt, or to be
told about either. Arguments are read from left to right, and the first that does not fit decides
the answer.
-/

namespace Litany

namespace Shell

/-- What to do. A runner is the program that blocks of foreign code are handed to. -/
inductive Command where
  | file (path : String) (runner : Option String)
  | prompt (runner : Option String)
deriving DecidableEq, Repr

/-- What a help text is about. -/
inductive Topic where
  | all
  | file
  | prompt
deriving DecidableEq, Repr

/-- Why there is nothing to do. -/
inductive Refusal where
  | help (topic : Topic)
  | noCommand
  | unknownCommand (name : String)
  | noPath
  | unexpected (argument : String)
  | noValue
  | repeatedRunner
deriving DecidableEq, Repr

/-! ### Texts -/

/-- The option for the runner with its value, as messages name it. -/
def runnerOption : String := "--foreign-runner <FOREIGN_RUNNER>"

/-- The part of a help text about the option for the runner. -/
def runnerHelp : String :=
  "Options:\n      " ++ runnerOption ++
    "\n          Program that receives each `js` block on stdin, e.g. `node`\n\n\n"

/-- The help text about a topic. -/
def Topic.text : Topic → String
  | all =>
    "Usage: zholyc <COMMAND>\n\nCommands:\n    file  Input file\n    repl  Input prompt, " ++
      "declarations persist between lines\n\nLog output is controlled through RUST_LOG, " ++
      "e.g. RUST_LOG=zholyc=debug.\n"
  | file =>
    "Input file\n\nUsage: zholyc file [OPTIONS] <PATH>\n\nArguments:\n  <PATH>\n\n" ++ runnerHelp
  | prompt =>
    "Input prompt, declarations persist between lines\n\nUsage: zholyc repl [OPTIONS]\n\n" ++
      runnerHelp

/-- The words for a refusal. -/
def Refusal.text : Refusal → String
  | help topic => topic.text
  | noCommand => "the subcommand is required but not provided\n"
  | unknownCommand name => "unrecognized subcommand '" ++ name ++ "'\n"
  | noPath => "the argument '<PATH>' is required but not provided\n"
  | unexpected argument => "unexpected argument '" ++ argument ++ "'\n"
  | noValue => "a value is required for '" ++ runnerOption ++ "' but none was supplied\n"
  | repeatedRunner => "the argument '" ++ runnerOption ++ "' cannot be used multiple times\n"

/-! ### Single arguments -/

/-- An argument by its form. A letter behind one dash stands for the letters behind it too: every
letter ends the reading of arguments, so the others are never looked at. -/
inductive Argument where
  | plain (text : String)
  | letter (c : Char)
  | long (name : List Char) (value : Option (List Char))
  /-- Two dashes, which end the options. -/
  | divider
deriving DecidableEq, Repr

namespace Argument

/-- The form of an argument. The value of a long option stands behind its first equals sign. -/
def ofString (argument : String) : Argument :=
  match argument.toList with
  | ['-', '-'] => .divider
  | '-' :: '-' :: option =>
    match option.dropWhile (· != '=') with
    | [] => .long option none
    | _ :: value => .long (option.takeWhile (· != '=')) (some value)
  | '-' :: c :: _ => .letter c
  | _ => .plain argument

/-- Whether an argument asks for help. -/
def asksHelp : Argument → Bool
  | letter c => c == 'h'
  | long name _ => name == "help".toList
  | _ => false

/-- How a complaint names an argument. Long options are named without their value and with their
two dashes. One dash stands before a name of a single character beyond ASCII and before no name,
and none before a name with two dashes of its own. -/
def shown : Argument → String
  | plain text => text
  | letter c => String.ofList ['-', c]
  | divider => "--"
  | long name _ =>
    match name with
    | [] => "-"
    | '-' :: '-' :: _ => String.ofList name
    | [c] => if c.toNat < 128 then String.ofList ['-', '-', c] else String.ofList ['-', c]
    | _ => String.ofList ('-' :: '-' :: name)

/-- Whether an argument can be the value of the option in front of it. -/
def isValue : Argument → Bool
  | plain _ => true
  | _ => false

end Argument

/-! ### Reading arguments -/

/-- The name of the option for the runner. -/
def runnerName : List Char := "foreign-runner".toList

/-- The arguments behind a command, as far as they are read. -/
structure Given where
  path : Option String
  runner : Option String

namespace Given

/-- Take a runner, of which there can be only one. -/
def withRunner (g : Given) (name : String) : Except Refusal Given :=
  match g.runner with
  | none => .ok { g with runner := some name }
  | some _ => .error .repeatedRunner

/-- Take an argument that is no option: the path of a file, of which there can be only one. -/
def withPath (g : Given) (topic : Topic) (argument : String) : Except Refusal Given :=
  match topic, g.path with
  | .file, none => .ok { g with path := some argument }
  | _, _ => .error (.unexpected argument)

end Given

/-- Read the arguments behind a command. The value of the option for the runner is written behind
an equals sign, or is the next argument. -/
def readGiven (topic : Topic) : Given → List String → Except Refusal Given
  | g, [] => .ok g
  | g, first :: rest =>
    let argument := Argument.ofString first
    if argument.asksHelp then .error (.help topic)
    else
      match argument with
      | .plain path => do readGiven topic (← g.withPath topic path) rest
      | .divider => rest.foldlM (fun g path => g.withPath topic path) g
      | .letter _ => .error (.unexpected argument.shown)
      | .long name value =>
        if name = runnerName then
          match value with
          | some runner => do readGiven topic (← g.withRunner (String.ofList runner)) rest
          | none =>
            match rest with
            | [] => .error .noValue
            | runner :: rest =>
              if (Argument.ofString runner).isValue then do
                readGiven topic (← g.withRunner runner) rest
              else .error .noValue
        else .error (.unexpected argument.shown)

/-- What a command asks for with the arguments behind it. -/
def Command.ofName (name : String) (arguments : List String) : Except Refusal Command :=
  if name = "file" then do
    let g ← readGiven .file ⟨none, none⟩ arguments
    match g.path with
    | some path => return .file path g.runner
    | none => throw .noPath
  else if name = "repl" then do
    let g ← readGiven .prompt ⟨none, none⟩ arguments
    return .prompt g.runner
  else .error (.unknownCommand name)

/-- What the arguments ask for. Two dashes in front of a command are passed over, and what follows
them is a command whatever its form. -/
def Command.ofArguments : List String → Except Refusal Command
  | [] => .error .noCommand
  | first :: rest =>
    let argument := Argument.ofString first
    match argument, rest with
    | .plain name, _ => Command.ofName name rest
    | .divider, [] => .error .noCommand
    | .divider, name :: rest => Command.ofName name rest
    | _, _ => if argument.asksHelp then .error (.help .all) else .error (.unexpected argument.shown)

end Shell

end Litany
