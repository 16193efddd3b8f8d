import Litany.Machine.Store

/-!
# Runners of foreign code

A runner is a program that is started anew for every block of foreign code and receives the block
on its standard input. What a program does with its input is not settled here: a runner is given by
what it makes of a block behind the blocks that it was handed before. What is settled is what the
interpreter makes of that, which is to accept a block exactly if the program ends well.
-/

namespace Litany

namespace Shell

/-! ### Endings -/

/-- How a program ended: by itself, with a status, or by a signal, perhaps with a dump of its
memory. -/
inductive Ending where
  | exited (status : Nat)
  | killed (signal : Nat) (dumped : Bool)
deriving DecidableEq, Repr

/-- The names of the signals below the real-time ones, from number one on. -/
def signalNames : List String :=
  ["HUP", "INT", "QUIT", "ILL", "TRAP", "ABRT", "BUS", "FPE", "KILL", "USR1", "SEGV", "USR2",
    "PIPE", "ALRM", "TERM", "STKFLT", "CHLD", "CONT", "STOP", "TSTP", "TTIN", "TTOU", "URG",
    "XCPU", "XFSZ", "VTALRM", "PROF", "WINCH", "IO", "PWR", "SYS"]

/-- The name of a signal below the real-time ones. -/
def signalName? (signal : Nat) : Option String :=
  if signal = 0 then none else signalNames[signal - 1]?

/-- The words for an ending. -/
def Ending.text : Ending → String
  | exited status => "exit status: " ++ Nat.repr status
  | killed signal dumped =>
    let name := ((signalName? signal).map fun n => " (SIG" ++ n ++ ")").getD ""
    "signal: " ++ Nat.repr signal ++ name ++ if dumped then " (core dumped)" else ""

/-! ### Runners -/

/-- What came of handing a block to a program: what the program wrote to its two outputs, and how
it ended, or why it could not be started or not take the block. -/
structure Reply where
  out : String
  err : String
  ending : Except String Ending

/-- A program by the name it is started with, and what comes of handing it a block after the earlier
ones. -/
structure Runner where
  name : String
  hand : (earlier : List String) → (body : String) → Reply

namespace Runner

/-- The runner where no program can be started. -/
def unsupported (name : String) : Runner :=
  ⟨name, fun _ _ => ⟨"", "", .error "operation not supported on this platform"⟩⟩

/-- The executor that hands every block to a runner. -/
def executor (r : Runner) : Executor :=
  fun earlier body =>
    match (r.hand earlier body).ending with
    | .error reason => .error reason
    | .ok ending =>
      if ending = .exited 0 then .ok ()
      else .error (r.name ++ " exited with " ++ ending.text)

end Runner

end Shell

end Litany
