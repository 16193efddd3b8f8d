import Litany.Grammar.Statement

/-!
# The grammar of programs

```
program    → declaration*
declaration → procedure | class | define | statement
procedure  → TYPE NAME "(" parameters? ")" block
parameters → parameter ( "," parameter )*
parameter  → TYPE NAME ( "=" literal )?
class      → "class" NAME "{" ( fieldType NAME ( "," NAME )* ";" )* "}" declarators? ";"
define     → "#define" NAME literal ";"?
literal    → "-"? NUMBER | STRING | "TRUE" | "FALSE"
```

A procedure is declared before its body is read, so it may call itself. Procedures, classes and
constants stand at top level only.
-/

namespace Litany

namespace Grammar

open Parse

/-- A literal value, a number perhaps with a minus sign. -/
def literal : Parse Value := do
  let negative ← accept .minus
  let t ← advance
  match t.kind, negative with
  | .int n, false => return .int n
  | .int n, true => return .int (-n)
  | .float x, false => return .float x
  | .float x, true => return .float (-x)
  | .quoted raw, false => return .text raw
  | .keyword .yes, false => return .int 1
  | .keyword .no, false => return .int 0
  | _, _ => throw (t.blame .unexpectedToken)

/-! ### Procedures -/

/-- A parameter whose name is none of the earlier ones. -/
def parameter (earlier : List Parameter) : Parse Parameter := do
  let (type, _) ← take Kind.scalar?
  let t ← ident
  if earlier.any fun p => p.name == t.lexeme then
    throw (t.blame .redeclared)
  match ← take? (Kind.mark? .equal) with
  | none => return ⟨t.lexeme, type, none⟩
  | some _ => return ⟨t.lexeme, type, some (← literal)⟩

/-- The earlier parameters and one more, if a comma is next. -/
def laterParameter (earlier : List Parameter) : Parse (Option (List Parameter)) := do
  match ← behind .comma (parameter earlier) with
  | none => return none
  | some p => return some (earlier ++ [p])

/-- The parameters of a procedure, behind its opening parenthesis. -/
def parameters : Parse (List Parameter) := do
  if ← accept .rightParen then return []
  else
    let first ← parameter []
    let all ← fold laterParameter [first]
    expect .rightParen
    return all

/-- A procedure whose type is next, with bodies nested no deeper than `n`. -/
def procedure (n : Nat) : Parse Stmt := do
  let (returns, _) ← take Kind.scalar?
  let t ← ident
  expect .leftParen
  let parameters ← parameters
  let ordinal ← enter t fun names => names.declareProcedure ⟨t.lexeme, returns, parameters, []⟩
  let body ← block (statement (.procedure ordinal) n)
  match (← names).procedures[ordinal]? with
  | none => throw (.table (.lostProcedure ordinal))
  | some p =>
    return .procedure ⟨ordinal, t.lexeme, returns, parameters.map (·.type),
      p.locals.map (·.type), body⟩

/-! ### Classes -/

/-- The type of a field: a scalar, or a class declared before. -/
def fieldType : Parse CellType := do
  let t ← advance
  match t.kind with
  | .scalar type => return .scalar type
  | .ident name =>
    match (← names).class? name with
    | some number => return .object number
    | none => throw (t.blame .undeclared)
  | _ => throw (t.blame .unexpectedToken)

/-- The earlier fields and one more, whose name is none of theirs. -/
def field (type : CellType) (earlier : List Field) : Parse (List Field) := do
  let t ← ident
  if earlier.any fun f => f.name == t.lexeme then
    throw (t.blame .redeclared)
  return earlier ++ [⟨t.lexeme, type⟩]

/-- The earlier fields and those of one more type, up to a semicolon. -/
def fieldGroup (earlier : List Field) : Parse (List Field) := do
  let type ← fieldType
  let fields ← fold (fun earlier => behind .comma (field type earlier)) (← field type earlier)
  expect .semicolon
  return fields

/-- The objects declared behind the closing brace of a class, up to a semicolon. -/
def classObjects (n number : Nat) : Parse (List Declarator) := do
  match (← peek).bind fun t => Kind.ident? t.kind with
  | some _ => declarators .top (operand .top n) (.object number)
  | none =>
    expect .semicolon
    return []

/-- A class, behind its keyword, and the objects declared with it. -/
def classDef (n : Nat) : Parse Stmt := do
  let t ← ident
  expect .leftBrace
  let fields ← fold (fun earlier => unlessAt .rightBrace (fieldGroup earlier)) []
  expect .rightBrace
  let number ← enter t fun names => names.declareClass ⟨t.lexeme, fields⟩
  return .classDef number (← classObjects n number)

/-! ### Constants -/

/-- The type of a constant with the given value. -/
def constantType : Value → Scalar
  | .float _ => .f64
  | _ => .i64

/-- A constant, behind its directive: a global that its literal is assigned to. -/
def define : Parse Stmt := do
  let t ← ident
  let value ← literal
  let _ ← accept .semicolon
  let type := CellType.scalar (constantType value)
  let slot ← enter t fun names => names.declare .top ⟨t.lexeme, type, true⟩
  let target : Place := ⟨t.lexeme, [], slot, type⟩
  return .declare [⟨target, some (.assign target [⟨none, .literal value, t.line⟩])⟩]

/-! ### Programs -/

/-- A procedure, a class, a constant or a statement, nested no deeper than `n`. -/
def topLevel (n : Nat) : Parse Stmt := do
  match ← peek with
  | none => unexpected
  | some t =>
    match t.kind with
    | .scalar _ => if ← procedureHead then procedure n else statement .top n
    | .keyword .classDef => do
      let _ ← advance
      classDef n
    | .define => do
      let _ ← advance
      define
    | _ => statement .top n

/-- The next item of a program, if a token is left. -/
def item (n : Nat) : Parse (Option Stmt) := do
  match ← peek with
  | none => return none
  | some _ => return some (← topLevel n)

/-- Statements up to the end of the text. -/
def program : Parse (List Stmt) := do
  many (item (← get).rest.length)

/-- The statements of a program, and the names declared when parsing ended. The names of a program
that does not parse are those declared before its fault. -/
def parse (names : Names) (stream : Stream) : Except ParseFailure (List Stmt) × Names :=
  match program.run ⟨stream.tokens, stream.endLine, names⟩ with
  | .ok statements s => (.ok statements, s.names)
  | .error failure s => (.error failure, s.names)

end Grammar

end Litany
