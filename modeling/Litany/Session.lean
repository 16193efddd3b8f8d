import Litany.Failure
import Litany.Grammar.Program
import Litany.Machine.Execute

/-!
# Sessions

A session keeps names and values from one text to the next. A text is run whole, on fresh tables,
or on top of everything that came before.

When a text run on top of others does not parse, the names it declared are forgotten; when a text
run whole does not parse, they stay. A text that stops while it runs keeps its names and what it
stored, and loses what it printed.
-/

namespace Litany

/-- What a session may ask of its surroundings. -/
structure Host where
  fetch : Option Fetcher
  execute : Option Executor

/-- What a session remembers. -/
structure Session where
  names : Names
  machine : Machine
  /-- The paths asked of the host so far. -/
  fetched : List String

/-- How a text is run. -/
inductive Mode where
  /-- On fresh tables. -/
  | whole
  /-- On top of everything before. -/
  | onTop
deriving DecidableEq, Repr

/-- What came of a text: its output or a failure, and the blocks handed to the host meanwhile. -/
structure Answer where
  outcome : Except Failure String
  blocks : List String

namespace Session

/-- A session without history. -/
def fresh : Session :=
  ⟨Names.empty, Machine.empty, []⟩

/-- Read and parse a text, declaring its names. -/
def parse (host : Host) (source : String) (s : Session) :
    Except Failure (List Stmt) × Session :=
  let scan := Stream.ofText host.fetch s.fetched source
  let s := { s with fetched := scan.fetched }
  match scan.outcome with
  | .error f => (.error (.scan f), s)
  | .ok stream =>
    match Grammar.parse s.names stream with
    | (.error f, names) => (.error (.parse f), { s with names })
    | (.ok statements, names) => (.ok statements, { s with names })

/-- Give the declared globals their cells and execute statements. -/
def execute (host : Host) (fuel : Nat) (statements : List Stmt) (s : Session) :
    Except Failure String × Session :=
  let allocated := s.machine.allocate s.names.globalTypes
  match allocated.interpret host.execute fuel statements with
  | (.error stop, machine) => (.error (.stop stop), { s with machine })
  | (.ok output, machine) => (.ok output, { s with machine })

/-- Run a text on fresh tables. -/
def run (host : Host) (fuel : Nat) (source : String) (s : Session) :
    Except Failure String × Session :=
  match parse host source { s with names := Names.empty, machine := s.machine.reset } with
  | (.error f, s) => (.error f, s)
  | (.ok statements, s) => execute host fuel statements s

/-- Run a text on top of everything before. -/
def runOnTop (host : Host) (fuel : Nat) (source : String) (s : Session) :
    Except Failure String × Session :=
  match parse host source s with
  | (.error f, later) => (.error f, { later with names := s.names })
  | (.ok statements, s) => execute host fuel statements s

/-- Run a text and tell which blocks were handed over. -/
def step (host : Host) (fuel : Nat) (mode : Mode) (source : String) (s : Session) :
    Answer × Session :=
  let (outcome, later) :=
    match mode with
    | .whole => run host fuel source s
    | .onTop => runOnTop host fuel source s
  (⟨outcome, later.machine.blocks.drop s.machine.blocks.length⟩, later)

/-- More fuel than a run can use up. -/
def ample : Nat := Nat.pow 2 62

end Session

end Litany
