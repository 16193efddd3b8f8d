import Litany.Machine.Execute
import Litany.Proofs.Outcome

/-!
# Programs on any storage

What the evaluator needs of the place where values are kept is little: to read a place, to store at
a place, to declare a variable, and to open the frame of a call. A `Storage` is an offer of these
and of procedures, output and foreign code. This module evaluates expressions and executes
statements on any storage, in the same order and with the same stops as on the machine.

The cells of the machine are one storage, `Storage.cells`, and on it nothing changes:
`Storage.runBody_cells`. So another storage may be compared with the machine by comparing the
storages.
-/

namespace Litany

/-- A computation on a state of any kind that stops as programs do. -/
abbrev RunOn (σ : Type) := EStateM Stop σ

/-- What a running program asks of the place where its values are kept. -/
structure Storage (σ : Type) where
  /-- The value at a place. -/
  visit : Place → RunOn σ Value
  /-- Store at a place what its type keeps of a value, and answer what was stored. -/
  store : Place → Value → RunOn σ Value
  /-- Give a declared variable what a variable of its type begins with. -/
  declare : Place → RunOn σ Unit
  procedure : (ordinal : Nat) → (name : String) → (line : Nat) → RunOn σ Procedure
  install : Procedure → RunOn σ Unit
  /-- Run the body of a procedure with the given arguments and locals of its own. -/
  enter : Procedure → List Value → RunOn σ Ending → RunOn σ Ending
  write : String → RunOn σ Unit
  handOver : Option Executor → (code : String) → (line : Nat) → RunOn σ Unit

namespace Storage

variable {σ : Type}

/-- A computation that does not look at its machine, on any state. -/
def apart {α : Type} (x : Run α) : RunOn σ α :=
  fun s =>
    match x Machine.empty with
    | .ok a _ => .ok a s
    | .error stop _ => .error stop s

/-! ### Expressions -/

mutual

/-- The value of an expression. -/
def evaluate (S : Storage σ) (body : List Stmt → RunOn σ Ending) : Expr → RunOn σ Value
  | .literal v => return v
  | .read place => S.visit place
  | .group inner => evaluate S body inner
  | .negate operand line => do
    let v ← evaluate S body operand
    apart (Run.negation v line)
  | .binary left op right line => do
    let l ← evaluate S body left
    let r ← evaluate S body right
    apart (Run.arithmetic l op r line)
  | .assign target steps => do
    let v ← S.visit target
    evaluateSteps S body target v steps
  | .bump target up after line => do
    let current ← S.visit target
    let changed ← apart (Run.arithmetic current .add (.int (if up then 1 else -1)) line)
    let kept ← S.store target changed
    return if after then kept else current
  | .call ordinal name arguments line => do
    let p ← S.procedure ordinal name line
    let values ← evaluateArguments S body p.parameters arguments
    let ending ← S.enter p values (body p.body)
    return Run.result p.returns ending

/-- The arguments of a call, each as the type of its parameter keeps it. -/
def evaluateArguments (S : Storage σ) (body : List Stmt → RunOn σ Ending) :
    List Scalar → List Expr → RunOn σ (List Value)
  | type :: types, e :: rest => do
    let v ← evaluate S body e
    return v.coerce type :: (← evaluateArguments S body types rest)
  | _, _ => return []

/-- Carry out the steps of an assignment to a target that holds the given value. -/
def evaluateSteps (S : Storage σ) (body : List Stmt → RunOn σ Ending) (target : Place) :
    Value → List (Step Expr) → RunOn σ Value
  | v, [] => return v
  | v, ⟨op, operand, line⟩ :: rest => do
    let r ← evaluate S body operand
    let changed ←
      match op with
      | none => pure r
      | some op => apart (Run.arithmetic v op r line)
    let kept ← S.store target changed
    evaluateSteps S body target kept rest

end

variable (S : Storage σ) (body : List Stmt → RunOn σ Ending)

/-- The values of expressions, from left to right. -/
def evaluateAll : List Expr → RunOn σ (List Value)
  | [] => return []
  | e :: rest => do
    let v ← S.evaluate body e
    return v :: (← evaluateAll rest)

/-- The truth of one term. -/
def evaluateTerm (t : Term) : RunOn σ Bool := do
  let l ← S.evaluate body t.left
  let holds ←
    match t.comparison with
    | none => pure l.truth
    | some (c, right) => do
      let r ← S.evaluate body right
      apart (Run.comparison l c r t.line)
  return holds != t.negated

/-- The truth of a condition whose current conjunction has the given truth so far. -/
def evaluateTerms : Bool → List (Connective × Term) → RunOn σ Bool
  | sofar, [] => return sofar
  | true, (.or, _) :: _ => return true
  | false, (.or, t) :: rest => do evaluateTerms (← S.evaluateTerm body t) rest
  | true, (.and, t) :: rest => do evaluateTerms (← S.evaluateTerm body t) rest
  | false, (.and, _) :: rest => evaluateTerms false rest

/-- The truth of a condition. -/
def evaluateCondition (c : Condition) : RunOn σ Bool := do
  S.evaluateTerms body (← S.evaluateTerm body c.first) c.rest

/-! ### Statements -/

/-- Go round a loop while its test holds. A return in its body ends it at once. -/
def rounds (test : RunOn σ Bool) (loop : RunOn σ Ending) (step : RunOn σ Unit) :
    Nat → RunOn σ Ending
  | 0 => throw .outOfFuel
  | n + 1 => do
    if ← test then
      match ← loop with
      | .returned v => return .returned v
      | .through =>
        step
        rounds test loop step n
    else return .through

/-- Declare variables and assign their initial values. -/
def declareAll : List Declarator → RunOn σ Unit
  | [] => return ()
  | d :: rest => do
    S.declare d.target
    match d.initial with
    | none => pure ()
    | some e =>
      let _ ← S.evaluate body e
    declareAll rest

/-- Evaluate an expression, if there is one, for its effects. -/
def effect : Option Expr → RunOn σ Unit
  | none => return ()
  | some e => do
    let _ ← S.evaluate body e

/-- The test of a loop: a missing one holds. -/
def continues : Option Condition → RunOn σ Bool
  | none => return true
  | some c => S.evaluateCondition body c

/-- The value of a return: zero when it has none. -/
def returnValue : Option Expr → RunOn σ Value
  | none => return .int 0
  | some e => S.evaluate body e

mutual

/-- Execute one statement; a loop may go round `n` times. -/
def execute (executor : Option Executor) (n : Nat) : Stmt → RunOn σ Ending
  | .expr e => do
    S.effect body (some e)
    return .through
  | .declare vars => do
    S.declareAll body vars
    return .through
  | .classDef _ vars => do
    S.declareAll body vars
    return .through
  | .procedure p => do
    S.install p
    return .through
  | .print template arguments _ => do
    let values ← S.evaluateAll body arguments
    S.write (Text.unescape (Template.format template values))
    return .through
  | .loop initial test step loop => do
    S.effect body initial
    rounds (S.continues body test) (executeAll executor n loop) (S.effect body step) n
  | .branch test yes no => do
    if ← S.evaluateCondition body test then executeAll executor n yes
    else
      match no with
      | none => return .through
      | some no => executeAll executor n no
  | .giveBack value _ => do
    return .returned (← S.returnValue body value)
  | .foreign code line => do
    S.handOver executor code line
    return .through

/-- Execute statements up to the first return. -/
def executeAll (executor : Option Executor) (n : Nat) : List Stmt → RunOn σ Ending
  | [] => return .through
  | s :: rest => do
    match ← execute executor n s with
    | .returned v => return .returned v
    | .through => executeAll executor n rest

end

/-- Execute statements with the given fuel. -/
def runBody (executor : Option Executor) : Nat → List Stmt → RunOn σ Ending
  | 0, _ => throw .outOfFuel
  | n + 1, statements => S.executeAll (runBody executor n) executor n statements

/-! ### The cells of the machine -/

/-- The cells of the machine: what is found at a place may be new, and a call has a frame. -/
def cells : Storage Machine where
  visit := Run.visit
  store := Run.store
  declare p := do
    let _ ← Run.store p (Value.zero p.type)
  procedure := Run.procedure
  install p := modify fun m => m.install p
  enter p arguments := Run.inFrame ⟨arguments, p.locals.map Value.zero⟩
  write := Run.write
  handOver := Run.handOver

/-- A value is negated on the machine as it is without one. -/
private theorem apart_negation (v : Value) (line : Nat) :
    (apart (Run.negation v line) : Run Value) = Run.negation v line := by
  funext m
  unfold apart Run.negation
  cases v.negate? with
  | some w => rfl
  | none => rfl

/-- An operation gives the same on the machine as without one. -/
private theorem apart_arithmetic (l : Value) (op : Arithmetic) (r : Value) (line : Nat) :
    (apart (Run.arithmetic l op r line) : Run Value) = Run.arithmetic l op r line := by
  funext m
  unfold apart Run.arithmetic
  by_cases hzero : op = .divide ∧ r.isZero = true
  · rw [if_pos hzero]
    rfl
  · rw [if_neg hzero]
    cases l.combine op r with
    | some v => rfl
    | none => rfl

/-- Values are compared on the machine as they are without one. -/
private theorem apart_comparison (l : Value) (c : Comparison) (r : Value) (line : Nat) :
    (apart (Run.comparison l c r line) : Run Bool) = Run.comparison l c r line := by
  funext m
  unfold apart Run.comparison
  cases l.compare? c r with
  | some b => rfl
  | none => rfl

mutual

/-- On the cells of the machine, an expression has the value that it has on the machine. -/
theorem evaluate_cells (body : List Stmt → Run Ending) :
    (e : Expr) → cells.evaluate body e = Litany.evaluate body e
  | .literal v => by rw [evaluate, Litany.evaluate]
  | .read place => by rw [evaluate, Litany.evaluate]; rfl
  | .group inner => by rw [evaluate, Litany.evaluate, evaluate_cells body inner]
  | .negate operand line => by
    rw [evaluate, Litany.evaluate, evaluate_cells body operand]
    simp only [apart_negation]
  | .binary left op right line => by
    rw [evaluate, Litany.evaluate, evaluate_cells body left, evaluate_cells body right]
    simp only [apart_arithmetic]
  | .assign target steps => by
    rw [evaluate, Litany.evaluate]
    simp only [evaluateSteps_cells body target _ steps]
    rfl
  | .bump target up after line => by
    rw [evaluate, Litany.evaluate]
    simp only [apart_arithmetic]
    rfl
  | .call ordinal name arguments line => by
    rw [evaluate, Litany.evaluate]
    simp only [evaluateArguments_cells body _ arguments]
    rfl

/-- On the cells of the machine, arguments have the values that they have on the machine. -/
theorem evaluateArguments_cells (body : List Stmt → Run Ending) (types : List Scalar) :
    (es : List Expr) →
      cells.evaluateArguments body types es = Litany.evaluateArguments body types es
  | [] => by cases types <;> rfl
  | e :: rest => by
    cases types with
    | nil => rfl
    | cons type types =>
      rw [evaluateArguments, Litany.evaluateArguments, evaluate_cells body e]
      simp only [evaluateArguments_cells body types rest]

/-- On the cells of the machine, an assignment stores what it stores on the machine. -/
private theorem evaluateSteps_cells (body : List Stmt → Run Ending) (target : Place) (v : Value) :
    (steps : List (Step Expr)) →
      cells.evaluateSteps body target v steps = Litany.evaluateSteps body target v steps
  | [] => by rw [evaluateSteps, Litany.evaluateSteps]
  | ⟨op, operand, line⟩ :: rest => by
    rw [evaluateSteps, Litany.evaluateSteps, evaluate_cells body operand]
    simp only [apart_arithmetic, evaluateSteps_cells body target _ rest]
    rfl

end

section Statements

variable (body : List Stmt → Run Ending)

private theorem evaluateAll_cells (es : List Expr) :
    cells.evaluateAll body es = Litany.evaluateAll body es := by
  induction es with
  | nil => rfl
  | cons e es ih => rw [evaluateAll, Litany.evaluateAll, ih, evaluate_cells]

/-- On the cells of the machine, a term is as true as it is on the machine. -/
private theorem evaluateTerm_cells (t : Term) :
    cells.evaluateTerm body t = Litany.evaluateTerm body t := by
  obtain ⟨negated, left, comparison, line⟩ := t
  rcases comparison with _ | ⟨c, right⟩
  · simp only [evaluateTerm, Litany.evaluateTerm, evaluate_cells]
  · simp only [evaluateTerm, Litany.evaluateTerm, evaluate_cells, apart_comparison]

/-- On the cells of the machine, a condition goes on behind its first term as it does on the
machine. -/
private theorem evaluateTerms_cells (sofar : Bool) (ts : List (Connective × Term)) :
    cells.evaluateTerms body sofar ts = Litany.evaluateTerms body sofar ts := by
  induction ts generalizing sofar with
  | nil => cases sofar <;> rfl
  | cons t ts ih =>
    obtain ⟨connective, t⟩ := t
    cases connective <;> cases sofar <;>
      simp only [evaluateTerms, Litany.evaluateTerms, evaluateTerm_cells, ih]

private theorem evaluateCondition_cells (c : Condition) :
    cells.evaluateCondition body c = Litany.evaluateCondition body c := by
  simp only [evaluateCondition, Litany.evaluateCondition, evaluateTerm_cells, evaluateTerms_cells]

/-- On the cells of the machine, a loop goes round as it does on the machine. -/
private theorem rounds_cells (test : Run Bool) (loop : Run Ending) (step : Run Unit) (n : Nat) :
    rounds test loop step n = Litany.rounds test loop step n := by
  induction n with
  | zero => rfl
  | succ n ih =>
    -- the two sides have case distinctions of their own, which are the same when they are opened
    rewrite [rounds, Litany.rounds, ih]
    rfl

private theorem effect_cells (e : Option Expr) : cells.effect body e = Litany.effect body e := by
  cases e with
  | none => rfl
  | some e => simp only [effect, Litany.effect, evaluate_cells]

private theorem continues_cells (c : Option Condition) :
    cells.continues body c = Litany.continues body c := by
  cases c with
  | none => rfl
  | some c => exact evaluateCondition_cells body c

private theorem returnValue_cells (e : Option Expr) :
    cells.returnValue body e = Litany.returnValue body e := by
  cases e with
  | none => rfl
  | some e => exact evaluate_cells body e

/-- What is stored by a declaration is not answered. -/
private theorem declare_bind {α : Type} (p : Place) (k : Run α) :
    (cells.declare p >>= fun _ => k) = (Run.store p (Value.zero p.type) >>= fun _ => k) := by
  have hdeclare : cells.declare p = (Run.store p (Value.zero p.type) >>= fun _ => pure ()) := rfl
  funext m
  rw [bind_apply, hdeclare, bind_apply, bind_apply]
  cases Run.store p (Value.zero p.type) m with
  | ok v m' => rfl
  | error stop m' => rfl

/-- On the cells of the machine, declared variables begin as they do on the machine. -/
private theorem declareAll_cells (ds : List Declarator) :
    cells.declareAll body ds = Litany.declareAll body ds := by
  induction ds with
  | nil => rfl
  | cons d ds ih =>
    have heval : cells.evaluate body = Litany.evaluate body := funext (evaluate_cells body)
    rewrite [declareAll, Litany.declareAll, ih, declare_bind, heval]
    rfl

end Statements

mutual

/-- On the cells of the machine, a statement does what it does on the machine. -/
theorem execute_cells (body : List Stmt → Run Ending) (executor : Option Executor) (n : Nat) :
    (s : Stmt) → cells.execute body executor n s = Litany.execute ⟨executor, body, n⟩ s
  | .expr e => by rw [execute, Litany.execute, effect_cells]
  | .declare vars => by rw [execute, Litany.execute, declareAll_cells]
  | .classDef _ vars => by rw [execute, Litany.execute, declareAll_cells]
  | .procedure p => by rw [execute, Litany.execute]; rfl
  | .print template arguments _ => by rw [execute, Litany.execute, evaluateAll_cells]; rfl
  | .loop initial test step loop => by
    rw [execute, Litany.execute, effect_cells, effect_cells, continues_cells, rounds_cells,
      executeAll_cells body executor n loop]
  | .branch test yes none => by
    rw [execute, Litany.execute, evaluateCondition_cells, executeAll_cells body executor n yes]
  | .branch test yes (some no) => by
    rw [execute, Litany.execute, evaluateCondition_cells, executeAll_cells body executor n yes]
    simp only [executeAll_cells body executor n no]
  | .giveBack value _ => by rw [execute, Litany.execute, returnValue_cells]
  | .foreign code line => by rw [execute, Litany.execute]; rfl

/-- On the cells of the machine, statements in a row do what they do on the machine. -/
private theorem executeAll_cells (body : List Stmt → Run Ending) (executor : Option Executor)
    (n : Nat) : (ss : List Stmt) →
      cells.executeAll body executor n ss = Litany.executeAll ⟨executor, body, n⟩ ss
  | [] => by rw [executeAll, Litany.executeAll]
  | s :: rest => by
    rewrite [executeAll, Litany.executeAll, execute_cells body executor n s,
      executeAll_cells body executor n rest]
    rfl

end

/-- With any fuel, statements do on the cells of the machine what they do on the machine. -/
theorem runBody_cells (executor : Option Executor) (n : Nat) :
    cells.runBody executor n = Litany.runBody executor n := by
  induction n with
  | zero => rfl
  | succ n ih =>
    funext ss
    rw [runBody, Litany.runBody, ih, executeAll_cells]

end Storage

end Litany
