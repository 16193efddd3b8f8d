import Litany.Grammar.Cursor
import Litany.Machine.Execute
import Litany.Proofs.Outcome

/-!
# Forgetting lines

Tokens, syntax and failures carry the line they come from. The functions of this module forget it:
`unlined` puts zero in the place of every line and keeps everything else. Two things are alike if
they are the same without their lines.

A computation that does not look at lines may be run on a state whose lines are forgotten: it does
there what it does on the state itself, up to the lines of its answer. `Commutes` is this property,
with one rule for each way to build a computation.
-/

namespace Litany

/-! ### Tokens -/

/-- The token without its line. -/
def Token.unlined (t : Token) : Token :=
  { t with line := 0 }

/-- Forgetting its line leaves the kind of a token. -/
@[simp] theorem Token.unlined_kind (t : Token) : t.unlined.kind = t.kind := rfl

/-- Forgetting its line leaves the text that a token was read from. -/
@[simp] theorem Token.unlined_lexeme (t : Token) : t.unlined.lexeme = t.lexeme := rfl

/-- The tokens of a text without their lines. -/
def Stream.unlined (s : Stream) : Stream :=
  ⟨s.tokens.map Token.unlined, 0⟩

/-! ### Expressions -/

mutual

/-- The expression without its lines. -/
def Expr.unlined : Expr → Expr
  | .literal v => .literal v
  | .read place => .read place
  | .call ordinal name arguments _ => .call ordinal name (Expr.unlinedAll arguments) 0
  | .negate operand _ => .negate operand.unlined 0
  | .group inner => .group inner.unlined
  | .binary left op right _ => .binary left.unlined op right.unlined 0
  | .assign target steps => .assign target (Expr.unlinedSteps steps)
  | .bump target up after _ => .bump target up after 0

/-- Expressions without their lines. -/
def Expr.unlinedAll : List Expr → List Expr
  | [] => []
  | e :: rest => e.unlined :: Expr.unlinedAll rest

/-- The steps of an assignment without their lines. -/
def Expr.unlinedSteps : List (Step Expr) → List (Step Expr)
  | [] => []
  | ⟨op, operand, _⟩ :: rest => ⟨op, operand.unlined, 0⟩ :: Expr.unlinedSteps rest

end

/-- The step without its lines. -/
def Step.unlined (step : Step Expr) : Step Expr :=
  ⟨step.op, step.operand.unlined, 0⟩

/-- Expressions in a row lose their lines one by one. -/
@[simp] theorem Expr.unlinedAll_eq_map (es : List Expr) :
    Expr.unlinedAll es = es.map Expr.unlined := by
  induction es with
  | nil => rfl
  | cons e es ih => rw [Expr.unlinedAll, ih, List.map_cons]

/-- The steps of an assignment lose their lines one by one. -/
@[simp] theorem Expr.unlinedSteps_eq_map (steps : List (Step Expr)) :
    Expr.unlinedSteps steps = steps.map Step.unlined := by
  induction steps with
  | nil => rfl
  | cons step steps ih =>
    obtain ⟨op, operand, line⟩ := step
    rw [Expr.unlinedSteps, ih, List.map_cons]
    rfl

/-- The term without its lines. -/
def Term.unlined (t : Term) : Term :=
  ⟨t.negated, t.left.unlined, t.comparison.map fun (c, right) => (c, right.unlined), 0⟩

/-- The condition without its lines. -/
def Condition.unlined (c : Condition) : Condition :=
  ⟨c.first.unlined, c.rest.map fun (connective, t) => (connective, t.unlined)⟩

/-! ### Statements -/

/-- The declared name without the lines of its initial assignment. -/
def Declarator.unlined (d : Declarator) : Declarator :=
  ⟨d.target, d.initial.map Expr.unlined⟩

mutual

/-- The statement without its lines. -/
def Stmt.unlined : Stmt → Stmt
  | .expr e => .expr e.unlined
  | .declare vars => .declare (vars.map Declarator.unlined)
  | .procedure ⟨ordinal, name, returns, parameters, locals, body⟩ =>
    .procedure ⟨ordinal, name, returns, parameters, locals, Stmt.unlinedAll body⟩
  | .classDef number vars => .classDef number (vars.map Declarator.unlined)
  | .print template arguments _ => .print template (arguments.map Expr.unlined) 0
  | .loop initial test step body =>
    .loop (initial.map Expr.unlined) (test.map Condition.unlined) (step.map Expr.unlined)
      (Stmt.unlinedAll body)
  | .branch test yes none => .branch test.unlined (Stmt.unlinedAll yes) none
  | .branch test yes (some no) =>
    .branch test.unlined (Stmt.unlinedAll yes) (some (Stmt.unlinedAll no))
  | .giveBack value _ => .giveBack (value.map Expr.unlined) 0
  | .foreign code _ => .foreign code 0

/-- Statements without their lines. -/
def Stmt.unlinedAll : List Stmt → List Stmt
  | [] => []
  | s :: rest => s.unlined :: Stmt.unlinedAll rest

end

/-- The procedure without the lines of its body. -/
def ProcedureOf.unlined (p : Procedure) : Procedure :=
  { p with body := p.body.map Stmt.unlined }

/-- Statements in a row lose their lines one by one. -/
@[simp] theorem Stmt.unlinedAll_eq_map (ss : List Stmt) :
    Stmt.unlinedAll ss = ss.map Stmt.unlined := by
  induction ss with
  | nil => rfl
  | cons s ss ih => rw [Stmt.unlinedAll, ih, List.map_cons]

/-- A procedure that is an item of a program loses its lines as a procedure does. -/
theorem Stmt.unlined_procedure (p : Procedure) :
    (Stmt.procedure p).unlined = .procedure p.unlined := by
  obtain ⟨ordinal, name, returns, parameters, locals, body⟩ := p
  rw [Stmt.unlined, Stmt.unlinedAll_eq_map]
  rfl

/-- A branch loses its lines in its test and in both of its bodies. -/
theorem Stmt.unlined_branch (test : Condition) (yes : List Stmt) (no : Option (List Stmt)) :
    (Stmt.branch test yes no).unlined =
      .branch test.unlined (yes.map Stmt.unlined) (no.map (List.map Stmt.unlined)) := by
  cases no with
  | none => rw [Stmt.unlined, Stmt.unlinedAll_eq_map, Option.map_none]
  | some no => rw [Stmt.unlined, Stmt.unlinedAll_eq_map, Stmt.unlinedAll_eq_map, Option.map_some]

/-! ### Failures and machines -/

/-- The failure without its line. -/
def ParseFailure.unlined : ParseFailure → ParseFailure
  | .error ⟨cause, text, _⟩ => .error ⟨cause, text, 0⟩
  | .table fault => .table fault

/-- The fault without its line. -/
def Fault.unlined : Fault → Fault
  | .noBody name _ => .noBody name 0
  | .emptySlot place slot => .emptySlot place slot
  | .notObject place => .notObject place
  | .divisionByZero _ => .divisionByZero 0
  | .unsupported operation _ => .unsupported operation 0
  | .noExecutor _ => .noExecutor 0
  | .foreign _ reason => .foreign 0 reason

/-- The stop without its line. -/
def Stop.unlined : Stop → Stop
  | .fault f => .fault f.unlined
  | .outOfFuel => .outOfFuel

/-- The machine without the lines of its procedures. -/
def Machine.unlined (m : Machine) : Machine :=
  { m with procedures := m.procedures.map (Option.map ProcedureOf.unlined) }

/-! ### Computations that do not look -/

/-- What is seen of the failures and the states of a computation. -/
structure View (ε σ : Type) where
  failure : ε → ε
  state : σ → σ

/-- A computation as it is seen: `y` does on the state that is seen what `x` does on the state that
is there, and the answer of `y` is what `f` shows of the answer of `x`. -/
def Commutes {ε σ α β : Type} (view : View ε σ) (f : α → β) (x : EStateM ε σ α)
    (y : EStateM ε σ β) : Prop :=
  ∀ s, y (view.state s) =
    match x s with
    | .ok a s' => .ok (f a) (view.state s')
    | .error e s' => .error (view.failure e) (view.state s')

namespace Commutes

variable {ε σ α α' β β' : Type} {view : View ε σ} {f : α → α'} {g : β → β'}
  {x : EStateM ε σ α} {x' : EStateM ε σ α'}

/-- An answer is seen as what `f` shows of it. -/
theorem pure {a : α} {a' : α'} (h : a' = f a) :
    Commutes view f (pure a : EStateM ε σ α) (pure a' : EStateM ε σ α') :=
  fun _ => h ▸ rfl

/-- A failure is seen without what the view hides of it. -/
theorem throw {e e' : ε} (h : e' = view.failure e) :
    Commutes view f (throw e : EStateM ε σ α) (throw e' : EStateM ε σ α') :=
  fun _ => h ▸ rfl

/-- One computation behind another: the second one may use of the answer of the first what is shown
of it, and no more. -/
theorem bind {k : α → EStateM ε σ β} {k' : α' → EStateM ε σ β'} (hx : Commutes view f x x')
    (hk : ∀ a, Commutes view g (k a) (k' (f a))) : Commutes view g (x >>= k) (x' >>= k') := by
  intro s
  rw [bind_apply, bind_apply, hx s]
  cases x s with
  | ok a s' => exact hk a s'
  | error e s' => rfl

/-- A choice that both sides make alike. -/
theorem ite {p : Prop} [Decidable p] {y : EStateM ε σ α} {y' : EStateM ε σ α'}
    (hx : Commutes view f x x') (hy : Commutes view f y y') :
    Commutes view f (if p then x else y) (if p then x' else y') := by
  split
  · exact hx
  · exact hy

end Commutes

end Litany
