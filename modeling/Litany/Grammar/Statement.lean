import Litany.Grammar.Expression

/-!
# The grammar of statements

```
statement  → varDecl | print | for | if | return | FOREIGN | exprStmt
varDecl    → ( TYPE | CLASS ) NAME ( "=" chain )? ( "," NAME ( "=" chain )? )* ";"
print      → STRING ( "," chain )* ";"
for        → "for" "(" stmtExpr? ";" condition? ";" stmtExpr? ")" body
if         → "if" "(" condition ")" body ( "else" body )?
return     → "return" chain? ";"
exprStmt   → stmtExpr ";"
stmtExpr   → place ASSIGN chain | chain
body       → "{" statement* "}" | statement
```

Objects are declared without an initial value. A name is declared before its initial value is
read, so that value may mention it.
-/

namespace Litany

namespace Grammar

open Parse

/-! ### Parts of statements -/

/-- An assignment, or a chain. A place that no assignment follows is read again as the beginning
of a chain. -/
def statementExpr (scope : Scope) (operand : Parse Expr) : Parse Expr := do
  match (← peek).bind fun t => Kind.ident? t.kind with
  | none => chain operand
  | some name =>
    if ((← names).procedure? name).isSome then chain operand
    else
      let start ← get
      let (target, line) ← place scope
      match ← take? Kind.assignment? with
      | some (op, t) =>
        assignable scope target line
        assignment operand target op t.line
      | none =>
        set start
        chain operand

/-- A declared name with its initial value, where the type has one. -/
def declarator (scope : Scope) (operand : Parse Expr) (type : CellType) : Parse Declarator := do
  let t ← ident
  let slot ← enter t fun names => names.declare scope ⟨t.lexeme, type, false⟩
  let target : Place := ⟨t.lexeme, [], slot, type⟩
  match type with
  | .object _ => return ⟨target, none⟩
  | .scalar _ =>
    match ← take? (Kind.mark? .equal) with
    | none => return ⟨target, none⟩
    | some (_, mark) => return ⟨target, some (← assignment operand target none mark.line)⟩

/-- Declared names of one type, up to a semicolon. -/
def declarators (scope : Scope) (operand : Parse Expr) (type : CellType) :
    Parse (List Declarator) := do
  let first ← declarator scope operand type
  let rest ← many (behind .comma (declarator scope operand type))
  expect .semicolon
  return first :: rest

/-- Whether a type is followed by a name and an opening parenthesis. -/
def procedureHead : Parse Bool :=
  fun s =>
    match s.rest with
    | _ :: name :: paren :: _ =>
      .ok ((Kind.ident? name.kind).isSome && (Kind.mark? .leftParen paren.kind).isSome) s
    | _ => .ok false s

/-- Statements between braces. -/
def block (statement : Parse Stmt) : Parse (List Stmt) := do
  expect .leftBrace
  let body ← many (unlessAt .rightBrace statement)
  expect .rightBrace
  return body

/-- Statements between braces, or a single one. -/
def body (statement : Parse Stmt) : Parse (List Stmt) := do
  if ← sees .leftBrace then block statement else return [← statement]

/-! ### Statements by their first token -/

/-- A declaration, behind its type. -/
def declaration (scope : Scope) (operand : Parse Expr) (type : CellType) : Parse Stmt := do
  return .declare (← declarators scope operand type)

/-- A template and its arguments, behind the template. -/
def print (operand : Parse Expr) (template : String) (line : Nat) : Parse Stmt := do
  let arguments ← many (behind .comma (chain operand))
  expect .semicolon
  return .print template arguments line

/-- A loop, behind its keyword. -/
def loop (scope : Scope) (operand : Parse Expr) (statement : Parse Stmt) : Parse Stmt := do
  expect .leftParen
  let initial ← unlessAt .semicolon (statementExpr scope operand)
  expect .semicolon
  let test ← unlessAt .semicolon (condition operand)
  expect .semicolon
  let step ← unlessAt .rightParen (statementExpr scope operand)
  expect .rightParen
  return .loop initial test step (← body statement)

/-- A branch, behind its keyword. -/
def branch (operand : Parse Expr) (statement : Parse Stmt) : Parse Stmt := do
  expect .leftParen
  let test ← condition operand
  expect .rightParen
  let yes ← body statement
  match ← take? (Kind.keyword? .otherwise) with
  | none => return .branch test yes none
  | some _ => return .branch test yes (some (← body statement))

/-- A return, behind its keyword. -/
def giveBack (operand : Parse Expr) (line : Nat) : Parse Stmt := do
  let value ← unlessAt .semicolon (chain operand)
  expect .semicolon
  return .giveBack value line

/-- An expression up to a semicolon. -/
def exprStmt (scope : Scope) (operand : Parse Expr) : Parse Stmt := do
  let e ← statementExpr scope operand
  expect .semicolon
  return .expr e

/-- A statement, nested no deeper than `n`. -/
def statement (scope : Scope) : Nat → Parse Stmt
  | 0 => unexpected
  | n + 1 => do
    match ← peek with
    | none => unexpected
    | some t =>
      match t.kind with
      | .scalar type => do
        if ← procedureHead then
          let _ ← advance
          refuse .nestedProcedure
        else
          let _ ← advance
          declaration scope (operand scope (n + 1)) (.scalar type)
      | .ident name => do
        match (← names).class? name with
        | some number => do
          let _ ← advance
          declaration scope (operand scope (n + 1)) (.object number)
        | none => exprStmt scope (operand scope (n + 1))
      | .quoted template => do
        let _ ← advance
        print (operand scope (n + 1)) template t.line
      | .keyword .loop => do
        let _ ← advance
        loop scope (operand scope (n + 1)) (statement scope n)
      | .keyword .branch => do
        let _ ← advance
        branch (operand scope (n + 1)) (statement scope n)
      | .keyword .giveBack => do
        if scope = .top then refuse .returnOutside
        else
          let _ ← advance
          giveBack (operand scope (n + 1)) t.line
      | .foreign code => do
        let _ ← advance
        return .foreign code t.line
      | .keyword .classDef => unexpected
      | .define => unexpected
      | _ => exprStmt scope (operand scope (n + 1))

end Grammar

end Litany
