import Litany.Machine.Evaluate
import Litany.Template
import Litany.Text.Escape

/-!
# Execution of statements

`execute` recurses on the statement; what a call runs, and how often a loop may go round, come from
a context. `runBody` ties the knot: with fuel `n` calls may be nested `n` deep, and no loop goes
round more than `n` times. A run that ends does so with the same result for every larger amount of
fuel; one that uses up its fuel says so.
-/

namespace Litany

open Run

/-- What the execution of a statement depends on besides the machine. -/
structure Context where
  executor : Option Executor
  /-- Runs the body of a procedure. -/
  body : List Stmt → Run Ending
  /-- How often a loop may go round. -/
  rounds : Nat

/-- Go round a loop while its test holds. A return in its body ends it at once. -/
def rounds (test : Run Bool) (body : Run Ending) (step : Run Unit) : Nat → Run Ending
  | 0 => throw .outOfFuel
  | n + 1 => do
    if ← test then
      match ← body with
      | .returned v => return .returned v
      | .through =>
        step
        rounds test body step n
    else return .through

/-- Zero the declared cells and assign their initial values. A declaration in a loop starts each
round afresh. -/
def declareAll (body : List Stmt → Run Ending) : List Declarator → Run Unit
  | [] => return ()
  | d :: rest => do
    let _ ← store d.target (Value.zero d.target.type)
    match d.initial with
    | none => pure ()
    | some e =>
      let _ ← evaluate body e
    declareAll body rest

/-- Evaluate an expression, if there is one, for its effects. -/
def effect (body : List Stmt → Run Ending) : Option Expr → Run Unit
  | none => return ()
  | some e => do
    let _ ← evaluate body e

/-- The test of a loop: a missing one holds. -/
def continues (body : List Stmt → Run Ending) : Option Condition → Run Bool
  | none => return true
  | some c => evaluateCondition body c

/-- The value of a return: zero when it has none. -/
def returnValue (body : List Stmt → Run Ending) : Option Expr → Run Value
  | none => return .int 0
  | some e => evaluate body e

mutual

/-- Execute one statement. -/
def execute (cx : Context) : Stmt → Run Ending
  | .expr e => do
    effect cx.body (some e)
    return .through
  | .declare vars => do
    declareAll cx.body vars
    return .through
  | .classDef _ vars => do
    declareAll cx.body vars
    return .through
  | .procedure p => do
    modify fun m => m.install p
    return .through
  | .print template arguments _ => do
    let values ← evaluateAll cx.body arguments
    write (Text.unescape (Template.format template values))
    return .through
  | .loop initial test step body => do
    effect cx.body initial
    rounds (continues cx.body test) (executeAll cx body) (effect cx.body step) cx.rounds
  | .branch test yes no => do
    if ← evaluateCondition cx.body test then executeAll cx yes
    else
      match no with
      | none => return .through
      | some no => executeAll cx no
  | .giveBack value _ => do
    return .returned (← returnValue cx.body value)
  | .foreign code line => do
    handOver cx.executor code line
    return .through

/-- Execute statements up to the first return. -/
def executeAll (cx : Context) : List Stmt → Run Ending
  | [] => return .through
  | s :: rest => do
    match ← execute cx s with
    | .returned v => return .returned v
    | .through => executeAll cx rest

end

/-- Execute statements with the given fuel. -/
def runBody (executor : Option Executor) : Nat → List Stmt → Run Ending
  | 0, _ => throw .outOfFuel
  | n + 1, statements => executeAll ⟨executor, runBody executor n, n⟩ statements

/-- Execute the statements of a program and hand out what they printed. Its procedures are
installed first. Output of a program that stops early is lost, and no frame is left. -/
def Machine.interpret (executor : Option Executor) (fuel : Nat) (statements : List Stmt)
    (m : Machine) : Except Stop String × Machine :=
  match runBody executor fuel statements (m.installAll statements) with
  | .ok _ m => (.ok m.output, { m with frames := [], output := "" })
  | .error stop m => (.error stop, { m with frames := [], output := "" })

end Litany
