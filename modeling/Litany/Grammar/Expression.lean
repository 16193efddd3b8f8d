import Litany.Grammar.Cursor

/-!
# The grammar of expressions

```
condition → term ( ( "&&" | "||" ) term )*
term      → "!"* chain ( COMPARISON chain )?
chain     → operand ( ( "+" | "-" | "*" | "/" ) operand )*
operand   → NUMBER | STRING | "TRUE" | "FALSE" | "-" operand | "(" chain ")" | call
          | ( "++" | "--" ) place | place ( "++" | "--" )?
call      → PROCEDURE ( "(" ( chain? ( "," chain? )* )? ")" )?
place     → NAME ( "." NAME )*
```

A name that belongs to a procedure begins a call; any other name has to be a variable. The
functions take the parser of the nested operands as an argument, and `operand` ties the knot at a
given depth of nesting.
-/

namespace Litany

namespace Grammar

open Parse

/-! ### Places -/

/-- A field behind a dot. -/
def segment : Parse (Option String) :=
  behind .dot do return (← ident).lexeme

/-- A variable, or a field reached from it, and the line it begins on. -/
def place (scope : Scope) : Parse (Place × Nat) := do
  let t ← ident
  let names ← names
  match names.resolve scope t.lexeme with
  | none => throw (t.blame .undeclared)
  | some slot =>
    match names.slotType? scope slot with
    | none => throw (.table (.untypedSlot slot t.lexeme))
    | some (type, _) =>
      let path ← many segment
      match names.fieldType? type path with
      | some type => return (⟨t.lexeme, path, slot, type⟩, t.line)
      | none => throw (.error ⟨.unknownField, (Place.mk t.lexeme path slot type).name, t.line⟩)

/-- Refuse to write to a constant or to a whole object. -/
def assignable (scope : Scope) (target : Place) (line : Nat) : Parse Unit := do
  let names ← names
  if (names.slotType? scope target.slot).any (·.2) then
    throw (.error ⟨.assignToConstant, target.name, line⟩)
  match target.type with
  | .scalar _ => return ()
  | .object _ => throw (.error ⟨.unknownField, target.name, line⟩)

/-! ### Chains -/

/-- An operation and its right operand. -/
structure Link where
  op : Arithmetic
  operand : Expr
  line : Nat

/-- Apply a link to what stands in front of it. -/
def Link.extend (left : Expr) (l : Link) : Expr :=
  .binary left l.op l.operand l.line

/-- A link as a later step of an assignment. -/
def Link.step (l : Link) : Step Expr :=
  ⟨some l.op, l.operand, l.line⟩

/-- The next link of a chain, if an operation is next. -/
def link (operand : Parse Expr) : Parse (Option Link) := do
  match ← take? Kind.arithmetic? with
  | none => return none
  | some (op, t) => return some ⟨op, ← operand, t.line⟩

/-- Operands joined from left to right. -/
def chain (operand : Parse Expr) : Parse Expr := do
  let first ← operand
  return (← many (link operand)).foldl Link.extend first

/-- The steps of an assignment, behind its mark on the given line. -/
def assignment (operand : Parse Expr) (target : Place) (op : Option Arithmetic) (line : Nat) :
    Parse Expr := do
  let first ← operand
  let links ← many (link operand)
  return .assign target (⟨op, first, line⟩ :: links.map Link.step)

/-! ### Calls -/

/-- One position of a call, empty or filled. -/
def position (operand : Parse Expr) : Parse (Option Expr) := do
  if (← sees .comma) || (← sees .rightParen) then return none
  else return some (← chain operand)

/-- The positions of a call, behind the name of its procedure. -/
def positions (operand : Parse Expr) : Parse (List (Option Expr)) := do
  if ← accept .leftParen then
    if ← accept .rightParen then return []
    else
      let first ← position operand
      let rest ← many (behind .comma (position operand))
      expect .rightParen
      return first :: rest
  else return []

/-- One argument for every parameter: the filled position, or else the default. -/
def arrange : List Parameter → List (Option Expr) → Except SyntaxCause (List Expr)
  | [], _ => .ok []
  | _ :: rest, some e :: given => do return e :: (← arrange rest given)
  | p :: rest, given =>
    match p.default with
    | some v => do return .literal v :: (← arrange rest given.tail)
    | none => .error (.missingArgument p.name)

/-- The arguments of a call with the given positions. -/
def arguments (parameters : List Parameter) (given : List (Option Expr)) :
    Except SyntaxCause (List Expr) :=
  if parameters.length < given.length then .error (.arity parameters.length given.length)
  else arrange parameters given

/-- A call of the procedure with the given ordinal, whose name is next. -/
def call (operand : Parse Expr) (ordinal : Nat) : Parse Expr := do
  let t ← ident
  let given ← positions operand
  match (← names).procedures[ordinal]? with
  | none => throw (.table (.unknownProcedure ordinal))
  | some p =>
    match arguments p.parameters given with
    | .ok arguments => return .call ordinal t.lexeme arguments t.line
    | .error cause => throw (t.blame cause)

/-! ### Operands -/

/-- A place that is read, or changed by one behind its name. -/
def placeOperand (scope : Scope) : Parse Expr := do
  let (target, line) ← place scope
  match ← take? Kind.bump? with
  | none => return .read target
  | some (up, t) =>
    assignable scope target line
    return .bump target up false t.line

/-- A place that is changed by one before it is read. -/
def bumped (scope : Scope) (up : Bool) (line : Nat) : Parse Expr := do
  let (target, start) ← place scope
  assignable scope target start
  return .bump target up true line

/-- An operand that begins with the given token, the next one. -/
def operandFrom (scope : Scope) (operand : Parse Expr) (t : Token) : Parse Expr :=
  match t.kind with
  | .int v => do
    let _ ← advance
    return .literal (.int v)
  | .float v => do
    let _ ← advance
    return .literal (.float v)
  | .quoted raw => do
    let _ ← advance
    return .literal (.text raw)
  | .keyword .yes => do
    let _ ← advance
    return .literal (.int 1)
  | .keyword .no => do
    let _ ← advance
    return .literal (.int 0)
  | .mark .minus => do
    let _ ← advance
    return .negate (← operand) t.line
  | .mark .leftParen => do
    let _ ← advance
    let inner ← chain operand
    expect .rightParen
    return .group inner
  | .mark .plusPlus => do
    let _ ← advance
    bumped scope true t.line
  | .mark .minusMinus => do
    let _ ← advance
    bumped scope false t.line
  | .ident name => do
    match (← names).procedure? name with
    | some ordinal => call operand ordinal
    | none => placeOperand scope
  | _ => unexpected

/-- An operand, nested no deeper than `n`. -/
def operand (scope : Scope) : Nat → Parse Expr
  | 0 => unexpected
  | n + 1 => do
    match ← peek with
    | none => unexpected
    | some t => operandFrom scope (operand scope n) t

/-! ### Conditions -/

/-- A chain, or two chains compared, behind any number of negations. -/
def term (operand : Parse Expr) : Parse Term := do
  let line := (← peek).elim (← get).endLine (·.line)
  let bangs ← many (take? (Kind.mark? .bang))
  let left ← chain operand
  let comparison ←
    match ← take? Kind.comparison? with
    | none => pure none
    | some (c, _) => do pure (some (c, ← chain operand))
  return ⟨bangs.length % 2 == 1, left, comparison, line⟩

/-- The next term of a condition, if a connective is next. -/
def laterTerm (operand : Parse Expr) : Parse (Option (Connective × Term)) := do
  match ← take? Kind.connective? with
  | none => return none
  | some (c, _) => return some (c, ← term operand)

/-- Terms joined by connectives. -/
def condition (operand : Parse Expr) : Parse Condition := do
  let first ← term operand
  return ⟨first, ← many (laterTerm operand)⟩

end Grammar

end Litany
