import Litany.Grammar.Program

/-!
# Derivations of the grammar

A derivation is a tree whose nodes are the productions of the grammar and whose leaves are tokens.
Its `yield` is the list of its leaves from left to right; its `reading` is the program it stands
for, computed under the tables as they are in front of its first token. A derivation without a
reading breaks a side condition: a name that is not declared, a second declaration, a write to a
constant, a position of a call that is neither filled nor has a default.

The shape of a tree is the context-free part of the grammar and nothing else: no rule looks at the
token behind it. Four alternatives that the productions leave open are decided in `reading`, from
the tables or by a rule: a name is a procedure or a variable, a class or the beginning of an
expression; a statement that begins with a quoted literal prints; empty parentheses hold no
position; and an `else` belongs to the nearest branch that is still open. An `else if` is the case
of an `else` whose body is a single branch.
-/

namespace Litany

/-! ### Classes of tokens -/

namespace Kind

/-- The kinds that stand for a value of their own. -/
def literal? : Kind → Option Value
  | int n => some (.int n)
  | float x => some (.float x)
  | quoted raw => some (.text raw)
  | keyword .yes => some (.int 1)
  | keyword .no => some (.int 0)
  | _ => none

/-- Numbers. -/
def number? : Kind → Option Value
  | int n => some (.int n)
  | float x => some (.float x)
  | _ => none

/-- Quoted literals. -/
def quoted? : Kind → Option String
  | quoted raw => some raw
  | _ => none

/-- Blocks of foreign code. -/
def foreign? : Kind → Option String
  | foreign body => some body
  | _ => none

/-- The directive of a constant. -/
def define? : Kind → Option Unit
  | define => some ()
  | _ => none

end Kind

namespace Grammar

/-- A token whose kind is in the domain of `f`, with its meaning under `f`. -/
structure Leaf {α : Type} (f : Kind → Option α) where
  token : Token
  value : α
  fits : f token.kind = some value

/-- A punctuation mark. -/
abbrev Punct (m : Mark) := Leaf (Kind.mark? m)

/-- A reserved word. -/
abbrev Word (k : Keyword) := Leaf (Kind.keyword? k)

/-- A name. -/
abbrev Name := Leaf Kind.ident?

/-- The text of a name. -/
abbrev Leaf.lexeme {α : Type} {f : Kind → Option α} (l : Leaf f) : String :=
  l.token.lexeme

/-- Two leaves of one class are equal when their tokens are. -/
theorem Leaf.ext_token {α : Type} {f : Kind → Option α} {l l' : Leaf f}
    (h : l.token = l'.token) : l = l' := by
  obtain ⟨t, v, fits⟩ := l
  obtain ⟨t', v', fits'⟩ := l'
  obtain rfl : t = t' := h
  obtain rfl : v = v' := Option.some.inj (fits.symm.trans fits')
  rfl

/-- The leaves of items that stand behind a leaf each. -/
def yieldBehind {α β : Type} {f : Kind → Option β} (yield : α → List Token) :
    List (Leaf f × α) → List Token
  | [] => []
  | (leaf, a) :: rest => leaf.token :: yield a ++ yieldBehind yield rest

theorem mem_yieldBehind {α β : Type} {f : Kind → Option β} {yield : α → List Token}
    {items : List (Leaf f × α)} {t : Token} :
    t ∈ yieldBehind yield items ↔ ∃ item ∈ items, t = item.1.token ∨ t ∈ yield item.2 := by
  induction items with
  | nil => simp [yieldBehind]
  | cons item items ih =>
    obtain ⟨leaf, a⟩ := item
    simp [yieldBehind, ih, or_assoc]

/-! ### Places -/

/-- `place → NAME ( "." NAME )*`. -/
structure PlaceTree where
  root : Name
  fields : List (Punct .dot × Name)

namespace PlaceTree

/-- The tokens of a place. -/
def yield (t : PlaceTree) : List Token :=
  t.root.token :: yieldBehind (fun name : Name => [name.token]) t.fields

/-- The names behind the dots. -/
def path (t : PlaceTree) : List String :=
  t.fields.map fun field => field.2.lexeme

/-- The location that a place names: its root is declared, and its path follows fields. -/
def reading (names : Names) (scope : Scope) (t : PlaceTree) : Option Place := do
  let slot ← names.resolve scope t.root.lexeme
  let (rootType, _) ← names.slotType? scope slot
  let type ← names.fieldType? rootType t.path
  return ⟨t.root.lexeme, t.path, slot, type⟩

end PlaceTree

/-- Whether a location may be written: it is no constant, and no whole object. -/
def writable (names : Names) (scope : Scope) (p : Place) : Bool :=
  !(names.slotType? scope p.slot).any (·.2) &&
    match p.type with
    | .scalar _ => true
    | .object _ => false

/-! ### Operands and chains -/

/-- The phrases of an expression. -/
inductive ExprSort where
  | operand
  | chain
  | links
  | position
  | positions

/-- The derivations of expressions. `links` are the later operands of a chain with their
operations, `positions` the later positions of a call with their commas. -/
inductive ExprTree : ExprSort → Type where
  /-- `operand → NUMBER | STRING | "TRUE" | "FALSE"` -/
  | literal (value : Leaf Kind.literal?) : ExprTree .operand
  /-- `operand → "-" operand` -/
  | negate (minus : Punct .minus) (inner : ExprTree .operand) : ExprTree .operand
  /-- `operand → "(" chain ")"` -/
  | group (opening : Punct .leftParen) (inner : ExprTree .chain) (closing : Punct .rightParen) :
      ExprTree .operand
  /-- `call → PROCEDURE` -/
  | bareCall (name : Name) : ExprTree .operand
  /-- `call → PROCEDURE "(" ")"` -/
  | emptyCall (name : Name) (opening : Punct .leftParen) (closing : Punct .rightParen) :
      ExprTree .operand
  /-- `call → PROCEDURE "(" chain? ( "," chain? )* ")"` -/
  | call (name : Name) (opening : Punct .leftParen) (first : ExprTree .position)
      (rest : ExprTree .positions) (closing : Punct .rightParen) : ExprTree .operand
  /-- `operand → ( "++" | "--" ) place` -/
  | bumpBefore (mark : Leaf Kind.bump?) (place : PlaceTree) : ExprTree .operand
  /-- `operand → place` -/
  | read (place : PlaceTree) : ExprTree .operand
  /-- `operand → place ( "++" | "--" )` -/
  | bumpAfter (place : PlaceTree) (mark : Leaf Kind.bump?) : ExprTree .operand
  /-- `chain → operand ( ( "+" | "-" | "*" | "/" ) operand )*` -/
  | chain (first : ExprTree .operand) (rest : ExprTree .links) : ExprTree .chain
  | noLink : ExprTree .links
  | link (op : Leaf Kind.arithmetic?) (operand : ExprTree .operand) (rest : ExprTree .links) :
      ExprTree .links
  | vacant : ExprTree .position
  | filled (value : ExprTree .chain) : ExprTree .position
  | noPosition : ExprTree .positions
  | position (comma : Punct .comma) (first : ExprTree .position) (rest : ExprTree .positions) :
      ExprTree .positions

/-- What a phrase of an expression stands for. -/
abbrev ExprReading : ExprSort → Type
  | .operand => Expr
  | .chain => Expr
  | .links => List Link
  | .position => Option Expr
  | .positions => List (Option Expr)

/-- The arguments of a call, by position: what is written there, or else the default of the
parameter. There are none when too many positions are written or one is neither filled nor has a
default. -/
def supplied (parameters : List Parameter) (given : List (Option Expr)) : Option (List Expr) :=
  if given.length ≤ parameters.length then
    parameters.zipIdx.mapM fun (p, i) => given[i]?.join <|> p.default.map .literal
  else none

namespace ExprTree

/-- The tokens of a phrase. -/
def yield {k : ExprSort} : ExprTree k → List Token
  | literal value => [value.token]
  | negate minus inner => minus.token :: inner.yield
  | group opening inner closing => opening.token :: inner.yield ++ [closing.token]
  | bareCall name => [name.token]
  | emptyCall name opening closing => [name.token, opening.token, closing.token]
  | call name opening first rest closing =>
    name.token :: opening.token :: first.yield ++ rest.yield ++ [closing.token]
  | bumpBefore mark place => mark.token :: place.yield
  | read place => place.yield
  | bumpAfter place mark => place.yield ++ [mark.token]
  | chain first rest => first.yield ++ rest.yield
  | noLink => []
  | link op operand rest => op.token :: operand.yield ++ rest.yield
  | vacant => []
  | filled value => value.yield
  | noPosition => []
  | position comma first rest => comma.token :: first.yield ++ rest.yield

/-- The call of a procedure with the given positions. -/
def callReading (names : Names) (name : Name) (given : List (Option Expr)) : Option Expr := do
  let ordinal ← names.procedure? name.value
  let p ← names.procedures[ordinal]?
  let arguments ← supplied p.parameters given
  return .call ordinal name.lexeme arguments name.token.line

/-- The location of an operand that is no call. -/
def variableReading (names : Names) (scope : Scope) (place : PlaceTree) : Option Place :=
  if (names.procedure? place.root.value).isSome then none else place.reading names scope

/-- What a phrase stands for, under the tables in front of it. -/
def reading (names : Names) (scope : Scope) : {k : ExprSort} → ExprTree k → Option (ExprReading k)
  | _, literal value => some (Expr.literal value.value)
  | _, negate minus inner => do
    let e ← inner.reading names scope
    return Expr.negate e minus.token.line
  | _, group _ inner _ => do
    let e ← inner.reading names scope
    return Expr.group e
  | _, bareCall name => callReading names name []
  | _, emptyCall name _ _ => callReading names name []
  | _, call name _ first rest _ => do
    let first ← first.reading names scope
    let rest ← rest.reading names scope
    match first, rest with
    | none, [] => none
    | first, rest => callReading names name (first :: rest)
  | _, bumpBefore mark place => do
    let target ← place.reading names scope
    if writable names scope target then return Expr.bump target mark.value true mark.token.line
    else none
  | _, read place => do
    let target ← variableReading names scope place
    return Expr.read target
  | _, bumpAfter place mark => do
    let target ← variableReading names scope place
    if writable names scope target then return Expr.bump target mark.value false mark.token.line
    else none
  | _, chain first rest => do
    let e ← first.reading names scope
    let links ← rest.reading names scope
    return List.foldl Link.extend e links
  | _, noLink => some ([] : List Link)
  | _, link op operand rest => do
    let e ← operand.reading names scope
    let links ← rest.reading names scope
    return (⟨op.value, e, op.token.line⟩ :: links : List Link)
  | _, vacant => some (none : Option Expr)
  | _, filled value => do
    let e ← value.reading names scope
    return some e
  | _, noPosition => some ([] : List (Option Expr))
  | _, position _ first rest => do
    let first ← first.reading names scope
    let rest ← rest.reading names scope
    return (first :: rest : List (Option Expr))

/-- The assignment of a chain to a target, behind a mark on the given line. The chain is kept as
steps, the mark being the operation of the first. -/
def assigned (names : Names) (scope : Scope) (target : Place) (op : Option Arithmetic)
    (line : Nat) : ExprTree .chain → Option Expr
  | chain first rest => do
    let e ← first.reading names scope
    let links ← rest.reading names scope
    return .assign target (⟨op, e, line⟩ :: List.map Link.step links)

/-- A chain that can be assigned can be read. -/
theorem reading_of_assigned {names : Names} {scope : Scope} {t : ExprTree .chain} {target : Place}
    {op : Option Arithmetic} {line : Nat} {e : Expr}
    (h : t.assigned names scope target op line = some e) :
    ∃ v, t.reading names scope = some v := by
  cases t with
  | chain first links =>
    obtain ⟨v, hv, h⟩ := Option.bind_eq_some_iff.mp h
    obtain ⟨ls, hls, -⟩ := Option.bind_eq_some_iff.mp h
    exact ⟨List.foldl Link.extend v ls, by simp [reading, hv, hls]⟩

end ExprTree

/-! ### Conditions -/

/-- `term → "!"* chain ( COMPARISON chain )?`. -/
structure TermTree where
  bangs : List (Punct .bang)
  left : ExprTree .chain
  comparison : Option (Leaf Kind.comparison? × ExprTree .chain)

/-- `condition → term ( ( "&&" | "||" ) term )*`. -/
structure ConditionTree where
  first : TermTree
  rest : List (Leaf Kind.connective? × TermTree)

/-- The line of the first of some tokens. -/
def firstLine (tokens : List Token) : Nat :=
  (tokens.head?.map (·.line)).getD 0

namespace TermTree

/-- The tokens of a term. -/
def yield (t : TermTree) : List Token :=
  t.bangs.map (·.token) ++ t.left.yield ++
    match t.comparison with
    | none => []
    | some (mark, right) => mark.token :: right.yield

/-- The right side of a comparison. -/
def comparisonReading (names : Names) (scope : Scope) :
    Option (Leaf Kind.comparison? × ExprTree .chain) → Option (Option (Comparison × Expr))
  | none => some none
  | some (mark, right) => do
    let e ← right.reading names scope
    return some (mark.value, e)

/-- The term that is read; an odd number of negations negates it. -/
def reading (names : Names) (scope : Scope) (t : TermTree) : Option Term := do
  let left ← t.left.reading names scope
  let comparison ← comparisonReading names scope t.comparison
  return ⟨t.bangs.length % 2 == 1, left, comparison, firstLine t.yield⟩

end TermTree

namespace ConditionTree

/-- The tokens of a condition. -/
def yield (t : ConditionTree) : List Token :=
  t.first.yield ++ yieldBehind TermTree.yield t.rest

/-- A later term of a condition, with its connective. -/
def laterReading (names : Names) (scope : Scope) (t : Leaf Kind.connective? × TermTree) :
    Option (Connective × Term) := do
  let term ← t.2.reading names scope
  return (t.1.value, term)

/-- The condition that is read: its terms in a row, not grouped. -/
def reading (names : Names) (scope : Scope) (t : ConditionTree) : Option Condition := do
  let first ← t.first.reading names scope
  let rest ← t.rest.mapM (laterReading names scope)
  return ⟨first, rest⟩

end ConditionTree

/-! ### Parts of statements -/

/-- `stmtExpr → place ASSIGN chain | chain`. -/
inductive StmtExprTree where
  | assign (target : PlaceTree) (mark : Leaf Kind.assignment?) (value : ExprTree .chain)
  | plain (value : ExprTree .chain)

namespace StmtExprTree

/-- The tokens of an assignment or a chain. -/
def yield : StmtExprTree → List Token
  | assign target mark value => target.yield ++ mark.token :: value.yield
  | plain value => value.yield

/-- The expression that is read. The target of an assignment may be written. -/
def reading (names : Names) (scope : Scope) : StmtExprTree → Option Expr
  | assign target mark value => do
    let place ← ExprTree.variableReading names scope target
    if writable names scope place then
      value.assigned names scope place mark.value mark.token.line
    else none
  | plain value => value.reading names scope

end StmtExprTree

/-- `declarator → NAME ( "=" chain )?`. -/
structure DeclaratorTree where
  name : Name
  initial : Option (Punct .equal × ExprTree .chain)

namespace DeclaratorTree

/-- The tokens of a declarator. -/
def yield (t : DeclaratorTree) : List Token :=
  t.name.token ::
    match t.initial with
    | none => []
    | some (mark, value) => mark.token :: value.yield

/-- The initial assignment. Its chain is read when the name is declared already, and an object
has none. -/
def initialReading (names : Names) (scope : Scope) (target : Place) :
    Option (Punct .equal × ExprTree .chain) → Option (Option Expr)
  | none => some none
  | some (mark, value) =>
    match target.type with
    | .object _ => none
    | .scalar _ => do
      let e ← value.assigned names scope target none mark.token.line
      return some e

/-- The declared name, and the tables behind it. -/
def reading (scope : Scope) (type : CellType) (t : DeclaratorTree) (names : Names) :
    Option (Declarator × Names) := do
  let (slot, names) ← names.declare scope ⟨t.name.lexeme, type, false⟩
  let target : Place := ⟨t.name.lexeme, [], slot, type⟩
  let initial ← initialReading names scope target t.initial
  return (⟨target, initial⟩, names)

end DeclaratorTree

/-- Read items one after the other, each under the tables that the one before leaves. -/
def readAll {α β : Type} (read : α → Names → Option (β × Names)) :
    List α → Names → Option (List β × Names)
  | [], names => some ([], names)
  | a :: rest, names => do
    let (b, names) ← read a names
    let (later, names) ← readAll read rest names
    return (b :: later, names)

/-- `declarators → declarator ( "," declarator )* ";"`. -/
structure DeclaratorsTree where
  first : DeclaratorTree
  rest : List (Punct .comma × DeclaratorTree)
  semicolon : Punct .semicolon

namespace DeclaratorsTree

/-- The tokens of declarators. -/
def yield (t : DeclaratorsTree) : List Token :=
  t.first.yield ++ yieldBehind DeclaratorTree.yield t.rest ++ [t.semicolon.token]

/-- The declared names of one type, and the tables behind them. -/
def reading (scope : Scope) (type : CellType) (t : DeclaratorsTree) (names : Names) :
    Option (List Declarator × Names) :=
  readAll (DeclaratorTree.reading scope type) (t.first :: t.rest.map (·.2)) names

end DeclaratorsTree

/-- `type → TYPE | CLASS`. -/
inductive TypeTree where
  | scalar (type : Leaf Kind.scalar?)
  | object (name : Name)

namespace TypeTree

/-- The token of a type. -/
def token : TypeTree → Token
  | scalar type => type.token
  | object name => name.token

/-- The type that is named; a class has to be declared. -/
def reading (names : Names) : TypeTree → Option CellType
  | scalar type => some (.scalar type.value)
  | object name => (names.class? name.value).map .object

end TypeTree

/-! ### Statements -/

/-- The phrases of statements. -/
inductive StmtSort where
  | statement
  | body
  | statements

/-- The derivations of statements. -/
inductive StmtTree : StmtSort → Type where
  /-- `varDecl → type declarators` -/
  | declare (type : TypeTree) (vars : DeclaratorsTree) : StmtTree .statement
  /-- `print → STRING ( "," chain )* ";"` -/
  | print (template : Leaf Kind.quoted?) (arguments : List (Punct .comma × ExprTree .chain))
      (semicolon : Punct .semicolon) : StmtTree .statement
  /-- `for → "for" "(" stmtExpr? ";" condition? ";" stmtExpr? ")" body` -/
  | loop (word : Word .loop) (opening : Punct .leftParen) (initial : Option StmtExprTree)
      (first : Punct .semicolon) (test : Option ConditionTree) (second : Punct .semicolon)
      (step : Option StmtExprTree) (closing : Punct .rightParen) (body : StmtTree .body) :
      StmtTree .statement
  /-- `if → "if" "(" condition ")" body` -/
  | branch (word : Word .branch) (opening : Punct .leftParen) (test : ConditionTree)
      (closing : Punct .rightParen) (yes : StmtTree .body) : StmtTree .statement
  /-- `if → "if" "(" condition ")" body "else" body` -/
  | branchElse (word : Word .branch) (opening : Punct .leftParen) (test : ConditionTree)
      (closing : Punct .rightParen) (yes : StmtTree .body) (otherwise : Word .otherwise)
      (no : StmtTree .body) : StmtTree .statement
  /-- `return → "return" chain? ";"` -/
  | giveBack (word : Word .giveBack) (value : Option (ExprTree .chain))
      (semicolon : Punct .semicolon) : StmtTree .statement
  /-- `statement → FOREIGN` -/
  | foreign (code : Leaf Kind.foreign?) : StmtTree .statement
  /-- `exprStmt → stmtExpr ";"` -/
  | expr (e : StmtExprTree) (semicolon : Punct .semicolon) : StmtTree .statement
  /-- `body → statement` -/
  | single (statement : StmtTree .statement) : StmtTree .body
  /-- `body → "{" statement* "}"` -/
  | block (opening : Punct .leftBrace) (body : StmtTree .statements)
      (closing : Punct .rightBrace) : StmtTree .body
  | noStatement : StmtTree .statements
  | statement (first : StmtTree .statement) (rest : StmtTree .statements) : StmtTree .statements

/-- What a phrase of statements stands for. -/
abbrev StmtReading : StmtSort → Type
  | .statement => Stmt
  | .body => List Stmt
  | .statements => List Stmt

/-- Whether an expression statement may begin with a token of the given kind. A quoted literal
begins a print, and the name of a class a declaration. -/
def opensExpression (names : Names) : Kind → Bool
  | .quoted _ => false
  | .ident name => (names.class? name).isNone
  | _ => true

/-- Read an optional part. -/
def readOption {α β : Type} (read : α → Option β) : Option α → Option (Option β)
  | none => some none
  | some a => (read a).map some

namespace StmtTree

/-- The tokens of an optional part. -/
def yieldOption {α : Type} (yield : α → List Token) : Option α → List Token
  | none => []
  | some a => yield a

/-- The tokens of a phrase. -/
def yield {k : StmtSort} : StmtTree k → List Token
  | declare type vars => type.token :: vars.yield
  | print template arguments semicolon =>
    template.token :: yieldBehind ExprTree.yield arguments ++ [semicolon.token]
  | loop word opening initial first test second step closing body =>
    word.token :: opening.token :: yieldOption StmtExprTree.yield initial ++
      first.token :: yieldOption ConditionTree.yield test ++
      second.token :: yieldOption StmtExprTree.yield step ++ closing.token :: body.yield
  | branch word opening test closing yes =>
    word.token :: opening.token :: test.yield ++ closing.token :: yes.yield
  | branchElse word opening test closing yes otherwise no =>
    word.token :: opening.token :: test.yield ++ closing.token :: yes.yield ++
      otherwise.token :: no.yield
  | giveBack word value semicolon =>
    word.token :: yieldOption ExprTree.yield value ++ [semicolon.token]
  | foreign code => [code.token]
  | expr e semicolon => e.yield ++ [semicolon.token]
  | single s => s.yield
  | block opening body closing => opening.token :: body.yield ++ [closing.token]
  | noStatement => []
  | statement first rest => first.yield ++ rest.yield

/-- Whether a phrase ends in a branch that an `else` could still continue. -/
def dangles {k : StmtSort} : StmtTree k → Bool
  | branch _ _ _ _ _ => true
  | branchElse _ _ _ _ _ _ no => no.dangles
  | loop _ _ _ _ _ _ _ _ body => body.dangles
  | single s => s.dangles
  | _ => false

/-- What a phrase stands for under the tables in front of it, and the tables behind it. -/
def reading (scope : Scope) : {k : StmtSort} → StmtTree k → Names → Option (StmtReading k × Names)
  | _, declare type vars, names => do
    let type ← type.reading names
    let (vars, names) ← vars.reading scope type names
    return (Stmt.declare vars, names)
  | _, print template arguments _, names => do
    let arguments ← arguments.mapM fun a => a.2.reading names scope
    return (Stmt.print template.value arguments template.token.line, names)
  | _, loop _ _ initial _ test _ step _ body, names => do
    let initial ← readOption (StmtExprTree.reading names scope) initial
    let test ← readOption (ConditionTree.reading names scope) test
    let step ← readOption (StmtExprTree.reading names scope) step
    let (body, names) ← body.reading scope names
    return (Stmt.loop initial test step body, names)
  | _, branch _ _ test _ yes, names => do
    let test ← test.reading names scope
    let (yes, names) ← yes.reading scope names
    return (Stmt.branch test yes none, names)
  | _, branchElse _ _ test _ yes _ no, names => do
    if yes.dangles then none
    else
      let test ← test.reading names scope
      let (yes, names) ← yes.reading scope names
      let (no, names) ← no.reading scope names
      return (Stmt.branch test yes (some no), names)
  | _, giveBack word value _, names => do
    if scope = .top then none
    else
      let value ← readOption (ExprTree.reading names scope) value
      return (Stmt.giveBack value word.token.line, names)
  | _, foreign code, names => some (Stmt.foreign code.value code.token.line, names)
  | _, expr e _, names => do
    if e.yield.head?.any fun t => opensExpression names t.kind then
      let e ← e.reading names scope
      return (Stmt.expr e, names)
    else none
  | _, single s, names => do
    let (s, names) ← s.reading scope names
    return ([s], names)
  | _, block _ body _, names => body.reading scope names
  | _, noStatement, names => some (([] : List Stmt), names)
  | _, statement first rest, names => do
    let (s, names) ← first.reading scope names
    let (later, names) ← rest.reading scope names
    return ((s :: later : List Stmt), names)

end StmtTree

/-! ### Programs -/

/-- `literal → "-"? NUMBER | STRING | "TRUE" | "FALSE"`. -/
inductive LiteralTree where
  | plain (value : Leaf Kind.literal?)
  | negated (minus : Punct .minus) (number : Leaf Kind.number?)

namespace LiteralTree

/-- The tokens of a literal. -/
def yield : LiteralTree → List Token
  | plain value => [value.token]
  | negated minus number => [minus.token, number.token]

/-- The value of a literal. -/
def reading : LiteralTree → Option Value
  | plain value => some value.value
  | negated _ number => number.value.negate?

end LiteralTree

/-- `parameter → TYPE NAME ( "=" literal )?`. -/
structure ParameterTree where
  type : Leaf Kind.scalar?
  name : Name
  default : Option (Punct .equal × LiteralTree)

namespace ParameterTree

/-- The tokens of a parameter. -/
def yield (t : ParameterTree) : List Token :=
  t.type.token :: t.name.token ::
    match t.default with
    | none => []
    | some (mark, value) => mark.token :: value.yield

/-- The parameter that is read. -/
def reading (t : ParameterTree) : Option Parameter := do
  let default ← readOption (fun d : Punct .equal × LiteralTree => d.2.reading) t.default
  return ⟨t.name.lexeme, t.type.value, default⟩

/-- The tokens of the parameters of a procedure. -/
def yieldAll : Option (ParameterTree × List (Punct .comma × ParameterTree)) → List Token
  | none => []
  | some (first, rest) => first.yield ++ yieldBehind yield rest

/-- The parameters of a procedure, their names all different. -/
def readingAll : Option (ParameterTree × List (Punct .comma × ParameterTree)) →
    Option (List Parameter)
  | none => some []
  | some (first, rest) => do
    let parameters ← (first :: rest.map (·.2)).mapM reading
    if (parameters.map (·.name)).Nodup then return parameters else none

end ParameterTree

/-- `fieldGroup → type NAME ( "," NAME )* ";"`. -/
structure FieldGroupTree where
  type : TypeTree
  first : Name
  rest : List (Punct .comma × Name)
  semicolon : Punct .semicolon

namespace FieldGroupTree

/-- The tokens of fields of one type. -/
def yield (t : FieldGroupTree) : List Token :=
  t.type.token :: t.first.token :: yieldBehind (fun name : Name => [name.token]) t.rest ++
    [t.semicolon.token]

/-- The fields of one type. -/
def reading (names : Names) (t : FieldGroupTree) : Option (List Field) := do
  let type ← t.type.reading names
  return (t.first :: t.rest.map (·.2)).map fun name => ⟨name.lexeme, type⟩

/-- The fields of a class, their names all different. -/
def readingAll (names : Names) (groups : List FieldGroupTree) : Option (List Field) := do
  let fields ← groups.mapM (reading names)
  if (fields.flatten.map (·.name)).Nodup then return fields.flatten else none

end FieldGroupTree

/-- What may stand at top level. -/
inductive ItemTree where
  /-- `procedure → TYPE NAME "(" parameters? ")" "{" statement* "}"` -/
  | procedure (type : Leaf Kind.scalar?) (name : Name) (opening : Punct .leftParen)
      (parameters : Option (ParameterTree × List (Punct .comma × ParameterTree)))
      (closing : Punct .rightParen) (begins : Punct .leftBrace) (body : StmtTree .statements)
      (ends : Punct .rightBrace)
  /-- `class → "class" NAME "{" fieldGroup* "}" ";"` -/
  | classDef (word : Word .classDef) (name : Name) (opening : Punct .leftBrace)
      (groups : List FieldGroupTree) (closing : Punct .rightBrace) (semicolon : Punct .semicolon)
  /-- `class → "class" NAME "{" fieldGroup* "}" declarators` -/
  | classDefWith (word : Word .classDef) (name : Name) (opening : Punct .leftBrace)
      (groups : List FieldGroupTree) (closing : Punct .rightBrace) (vars : DeclaratorsTree)
  /-- `define → "#define" NAME literal ";"?` -/
  | define (directive : Leaf Kind.define?) (name : Name) (value : LiteralTree)
      (semicolon : Option (Punct .semicolon))
  /-- `declaration → statement` -/
  | statement (s : StmtTree .statement)

namespace ItemTree

/-- The tokens of an item. -/
def yield : ItemTree → List Token
  | procedure type name opening parameters closing begins body ends =>
    type.token :: name.token :: opening.token :: ParameterTree.yieldAll parameters ++
      closing.token :: begins.token :: body.yield ++ [ends.token]
  | classDef word name opening groups closing semicolon =>
    word.token :: name.token :: opening.token :: groups.flatMap FieldGroupTree.yield ++
      [closing.token, semicolon.token]
  | classDefWith word name opening groups closing vars =>
    word.token :: name.token :: opening.token :: groups.flatMap FieldGroupTree.yield ++
      closing.token :: vars.yield
  | define directive name value semicolon =>
    directive.token :: name.token :: value.yield ++
      StmtTree.yieldOption (fun mark : Punct .semicolon => [mark.token]) semicolon
  | statement s => s.yield

/-- What an item stands for under the tables in front of it, and the tables behind it. The name of
a procedure is declared before its body is read. -/
def reading : ItemTree → Names → Option (Stmt × Names)
  | procedure type name _ parameters _ _ body _, names => do
    let parameters ← ParameterTree.readingAll parameters
    let (ordinal, names) ←
      names.declareProcedure ⟨name.lexeme, type.value, parameters, []⟩
    let (body, names) ← body.reading (.procedure ordinal) names
    let p ← names.procedures[ordinal]?
    return (.procedure ⟨ordinal, name.lexeme, type.value, parameters.map (·.type),
      p.locals.map (·.type), body⟩, names)
  | classDef _ name _ groups _ _, names => do
    let fields ← FieldGroupTree.readingAll names groups
    let (number, names) ← names.declareClass ⟨name.lexeme, fields⟩
    return (.classDef number [], names)
  | classDefWith _ name _ groups _ vars, names => do
    let fields ← FieldGroupTree.readingAll names groups
    let (number, names) ← names.declareClass ⟨name.lexeme, fields⟩
    let (vars, names) ← vars.reading .top (.object number) names
    return (.classDef number vars, names)
  | define _ name value _, names => do
    let value ← value.reading
    let type := CellType.scalar (constantType value)
    let (slot, names) ← names.declare .top ⟨name.lexeme, type, true⟩
    let target : Place := ⟨name.lexeme, [], slot, type⟩
    return (.declare [⟨target, some (.assign target [⟨none, .literal value, name.token.line⟩])⟩],
      names)
  | statement s, names => s.reading .top names

end ItemTree

/-- A derivation of a list of tokens under the given tables: `program → declaration*`, with what
it stands for. -/
structure Derivation (names : Names) (tokens : List Token) where
  items : List ItemTree
  statements : List Stmt
  /-- The tables behind the last token. -/
  later : Names
  yields : items.flatMap ItemTree.yield = tokens
  reads : readAll ItemTree.reading items names = some (statements, later)

end Grammar

end Litany
