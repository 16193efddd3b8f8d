import Litany.Syntax.Expr

/-!
# Statements

Bodies of loops and branches are lists of statements; a statement is never an expression.
-/

namespace Litany

/-- A declared name with its initial assignment. -/
structure Declarator where
  target : Place
  initial : Option Expr

/-- A procedure: what a call binds and allocates, and the statements it runs. -/
structure ProcedureOf (σ : Type) where
  ordinal : Nat
  name : String
  returns : Scalar
  parameters : List Scalar
  locals : List CellType
  body : List σ

/-- A statement. -/
inductive Stmt where
  | expr (e : Expr)
  | declare (vars : List Declarator)
  | procedure (p : ProcedureOf Stmt)
  /-- A class, with the objects declared behind its closing brace. -/
  | classDef (number : Nat) (vars : List Declarator)
  | print (template : String) (arguments : List Expr) (line : Nat)
  | loop (initial : Option Expr) (test : Option Condition) (step : Option Expr) (body : List Stmt)
  | branch (test : Condition) (yes : List Stmt) (no : Option (List Stmt))
  | giveBack (value : Option Expr) (line : Nat)
  | foreign (body : String) (line : Nat)

/-- A procedure of the language. -/
abbrev Procedure := ProcedureOf Stmt

end Litany
