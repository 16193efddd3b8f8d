import Litany.Names

/-!
# Expressions and conditions

Names are resolved before an expression is built: a place carries its slot, a call the ordinal of
its procedure and one argument for every parameter.

Arithmetic has no precedence: a chain of operations leans to the left. An assignment keeps its
chain as steps, because the target is written after each of them: `a += 2 * 3` adds two to `a`,
then multiplies `a` by three.
-/

namespace Litany

/-- A storage location: a variable, or a field reached from it. -/
structure Place where
  root : String
  /-- The names of the fields behind the root, none for the variable itself. -/
  path : List String
  slot : Slot
  /-- What the location can hold. -/
  type : CellType

namespace Place

/-- The location as it is written. -/
def name (p : Place) : String :=
  ".".intercalate (p.root :: p.path)

/-- The key of the field cell inside the root's object. -/
def key (p : Place) : String :=
  ".".intercalate p.path

end Place

/-- One step of an assignment. The first step of a plain assignment has no operation. -/
structure Step (α : Type) where
  op : Option Arithmetic
  operand : α
  line : Nat

/-- An expression. -/
inductive Expr where
  | literal (v : Value)
  | read (place : Place)
  | call (ordinal : Nat) (name : String) (arguments : List Expr) (line : Nat)
  | negate (operand : Expr) (line : Nat)
  | group (inner : Expr)
  | binary (left : Expr) (op : Arithmetic) (right : Expr) (line : Nat)
  | assign (target : Place) (steps : List (Step Expr))
  /-- Add or subtract one; the value is that before or after the change. -/
  | bump (target : Place) (up : Bool) (after : Bool) (line : Nat)

/-- One operand of a condition: a chain, or two chains compared, perhaps negated. -/
structure Term where
  negated : Bool
  left : Expr
  comparison : Option (Comparison × Expr)
  line : Nat

/-- Terms joined by connectives, in the order they are written. -/
structure Condition where
  first : Term
  rest : List (Connective × Term)

/-! ### Written forms -/

/-- The spelling of an operation in an assignment. -/
def assignSymbol : Option Arithmetic → String
  | some op => op.symbol ++ "="
  | none => "="

/-- The spelling of an operation in a later step. -/
def stepSymbol : Option Arithmetic → String
  | some op => op.symbol
  | none => "="

mutual

/-- An expression in parenthesised form, the operator in front. -/
def Expr.render : Expr → String
  | .literal (.text s) => "\"" ++ s ++ "\""
  | .literal v => v.display
  | .read place => place.name
  | .call _ name arguments _ => "(call " ++ name ++ Expr.renderAll arguments ++ ")"
  | .negate operand _ => "(- " ++ operand.render ++ ")"
  | .group inner => "(group " ++ inner.render ++ ")"
  | .binary left op right _ => "(" ++ op.symbol ++ " " ++ left.render ++ " " ++ right.render ++ ")"
  | .assign target [] => target.name
  | .assign target (⟨op, operand, _⟩ :: rest) =>
    Expr.renderSteps ("(" ++ assignSymbol op ++ " " ++ target.name ++ " " ++ operand.render ++ ")")
      rest
  | .bump target up after _ =>
    let symbol := if up then "++" else "--"
    if after then "(" ++ symbol ++ " " ++ target.name ++ ")"
    else "(" ++ target.name ++ " " ++ symbol ++ ")"

/-- Arguments, each behind a space. -/
def Expr.renderAll : List Expr → String
  | [] => ""
  | e :: rest => " " ++ e.render ++ Expr.renderAll rest

/-- The later steps of an assignment around the written form of the earlier ones. -/
def Expr.renderSteps (written : String) : List (Step Expr) → String
  | [] => written
  | ⟨op, operand, _⟩ :: rest =>
    Expr.renderSteps ("(" ++ stepSymbol op ++ " " ++ written ++ " " ++ operand.render ++ ")") rest

end

/-- A term in parenthesised form. -/
def Term.render (t : Term) : String :=
  let inner :=
    match t.comparison with
    | some (c, right) => "(" ++ c.symbol ++ " " ++ t.left.render ++ " " ++ right.render ++ ")"
    | none => t.left.render
  if t.negated then "(! " ++ inner ++ ")" else inner

/-- A condition, its terms in parenthesised form. -/
def Condition.render (c : Condition) : String :=
  c.rest.foldl (fun written (connective, term) =>
    written ++ " " ++ connective.symbol ++ " " ++ term.render) c.first.render

end Litany
