import Litany.Machine.Store

/-!
# Evaluation of expressions

Operands are evaluated from left to right. An assignment writes its target after every step, and
the operand of the next step is read after that: `a = 1 + a` makes `a` two.

A call needs the bodies of procedures to run; `evaluate` takes the way to run them as an argument,
so that it recurses on the expression alone.
-/

namespace Litany

/-- How a list of statements ends: by running through, or at a return. -/
inductive Ending where
  | through
  | returned (v : Value)

namespace Run

/-- The result of an operation. Nothing is divided by zero, not even a float. -/
def arithmetic (l : Value) (op : Arithmetic) (r : Value) (line : Nat) : Run Value :=
  if op = .divide ∧ r.isZero then fault (.divisionByZero line)
  else
    match l.combine op r with
    | some v => return v
    | none => fault (.unsupported (.arithmetic l op r) line)

/-- The number with the opposite sign. -/
def negation (v : Value) (line : Nat) : Run Value :=
  match v.negate? with
  | some w => return w
  | none => fault (.unsupported (.negation v) line)

/-- The outcome of a comparison. -/
def comparison (l : Value) (c : Comparison) (r : Value) (line : Nat) : Run Bool :=
  match l.compare? c r with
  | some b => return b
  | none => fault (.unsupported (.comparison l c r) line)

/-- The installed procedure with the given ordinal. -/
def procedure (ordinal : Nat) (name : String) (line : Nat) : Run Procedure :=
  fun m =>
    match m.procedures[ordinal]? with
    | some (some p) => .ok p m
    | _ => fault (.noBody name line) m

/-- What a procedure gives back: a returned value as its type keeps it, or else zero. -/
def result (returns : Scalar) : Ending → Value
  | .returned v => v.coerce returns
  | .through => Value.zero (.scalar returns)

/-- Run the body of a procedure in a frame of its own. -/
def invoke (body : List Stmt → Run Ending) (p : Procedure) (arguments : List Value) :
    Run Value := do
  let ending ← inFrame ⟨arguments, p.locals.map Value.zero⟩ (body p.body)
  return result p.returns ending

end Run

open Run

mutual

/-- The value of an expression. -/
def evaluate (body : List Stmt → Run Ending) : Expr → Run Value
  | .literal v => return v
  | .read place => visit place
  | .group inner => evaluate body inner
  | .negate operand line => do
    let v ← evaluate body operand
    negation v line
  | .binary left op right line => do
    let l ← evaluate body left
    let r ← evaluate body right
    arithmetic l op r line
  | .assign target steps => do
    let v ← visit target
    evaluateSteps body target v steps
  | .bump target up after line => do
    let current ← visit target
    let changed ← arithmetic current .add (.int (if up then 1 else -1)) line
    let kept ← store target changed
    return if after then kept else current
  | .call ordinal name arguments line => do
    let p ← procedure ordinal name line
    let values ← evaluateArguments body p.parameters arguments
    invoke body p values

/-- The arguments of a call, each as the type of its parameter keeps it. -/
def evaluateArguments (body : List Stmt → Run Ending) : List Scalar → List Expr → Run (List Value)
  | type :: types, e :: rest => do
    let v ← evaluate body e
    return v.coerce type :: (← evaluateArguments body types rest)
  | _, _ => return []

/-- Carry out the steps of an assignment to a target that holds the given value. -/
def evaluateSteps (body : List Stmt → Run Ending) (target : Place) :
    Value → List (Step Expr) → Run Value
  | v, [] => return v
  | v, ⟨op, operand, line⟩ :: rest => do
    let r ← evaluate body operand
    let changed ←
      match op with
      | none => pure r
      | some op => arithmetic v op r line
    let kept ← store target changed
    evaluateSteps body target kept rest

end

/-- The values of expressions, from left to right. -/
def evaluateAll (body : List Stmt → Run Ending) : List Expr → Run (List Value)
  | [] => return []
  | e :: rest => do
    let v ← evaluate body e
    return v :: (← evaluateAll body rest)

/-! ### Conditions -/

/-- The truth of one term. -/
def evaluateTerm (body : List Stmt → Run Ending) (t : Term) : Run Bool := do
  let l ← evaluate body t.left
  let holds ←
    match t.comparison with
    | none => pure l.truth
    | some (c, right) => do
      let r ← evaluate body right
      comparison l c r t.line
  return holds != t.negated

/-- The truth of a condition whose current conjunction has the given truth so far: a true one
decides the condition at the next `||`, and a false one skips the terms up to there. -/
def evaluateTerms (body : List Stmt → Run Ending) : Bool → List (Connective × Term) → Run Bool
  | sofar, [] => return sofar
  | true, (.or, _) :: _ => return true
  | false, (.or, t) :: rest => do evaluateTerms body (← evaluateTerm body t) rest
  | true, (.and, t) :: rest => do evaluateTerms body (← evaluateTerm body t) rest
  | false, (.and, _) :: rest => evaluateTerms body false rest

/-- The truth of a condition: a disjunction of conjunctions, evaluated from left to right and no
further than needed. -/
def evaluateCondition (body : List Stmt → Run Ending) (c : Condition) : Run Bool := do
  evaluateTerms body (← evaluateTerm body c.first) c.rest

end Litany
