import Litany.Syntax.Stmt
import Litany.Token.Stream

/-!
# Reading tokens one by one

A parse step looks at the tokens that are left and at the names declared so far, and moves both on.
Names declared by a step stay when a later one fails.

Repetition is bounded by the number of tokens left, and nesting by a depth given in advance. Every
item of a repetition and every nested construct takes at least one token, so neither bound is met
before the tokens run out.
-/

namespace Litany

/-- Why the tokens do not make a program. -/
inductive SyntaxCause where
  | unexpectedToken
  | unexpectedEnd
  | undeclared
  | redeclared
  | arity (expected found : Nat)
  | missingArgument (name : String)
  | unknownField
  | assignToConstant
  | returnOutside
  | nestedProcedure
deriving DecidableEq, Repr

/-- A fault in a program, with the token or dotted path at fault and its line. -/
structure SyntaxError where
  cause : SyntaxCause
  text : String
  line : Nat
deriving DecidableEq, Repr

/-- A disagreement between the tables and a name that was just found in them. -/
inductive TableFault where
  | untypedSlot (slot : Slot) (name : String)
  | unknownProcedure (ordinal : Nat)
  | lostProcedure (ordinal : Nat)
deriving DecidableEq, Repr

/-- Why parsing stopped. -/
inductive ParseFailure where
  | error (e : SyntaxError)
  | table (fault : TableFault)
deriving DecidableEq, Repr

/-- The tokens not yet read, the line of the end of the text, and the names declared so far. -/
structure Cursor where
  rest : List Token
  endLine : Nat
  names : Names

/-- A step of parsing. -/
abbrev Parse := EStateM ParseFailure Cursor

/-- The failure that blames a token. -/
def Token.blame (t : Token) (cause : SyntaxCause) : ParseFailure :=
  .error ⟨cause, t.lexeme, t.line⟩

namespace Parse

/-! ### Single tokens -/

/-- The next token, left in place. -/
def peek : Parse (Option Token) :=
  fun s => .ok s.rest.head? s

/-- The names declared so far. -/
def names : Parse Names :=
  fun s => .ok s.names s

/-- Blame the next token, or the end of the text. -/
def refuse {α : Type} (cause : SyntaxCause) : Parse α :=
  fun s =>
    match s.rest with
    | [] => .error (.error ⟨.unexpectedEnd, "", s.endLine⟩) s
    | t :: _ => .error (t.blame cause) s

/-- Blame the next token for not being what the grammar asks for. -/
def unexpected {α : Type} : Parse α :=
  refuse .unexpectedToken

/-- Take the next token, whatever it is. -/
def advance : Parse Token :=
  fun s =>
    match s.rest with
    | [] => unexpected s
    | t :: rest => .ok t { s with rest }

/-- Take the next token if its kind is in the domain of `f`. -/
def take? {α : Type} (f : Kind → Option α) : Parse (Option (α × Token)) :=
  fun s =>
    match s.rest with
    | [] => .ok none s
    | t :: rest =>
      match f t.kind with
      | none => .ok none s
      | some a => .ok (some (a, t)) { s with rest }

/-- Take the next token, which has to be in the domain of `f`. -/
def take {α : Type} (f : Kind → Option α) : Parse (α × Token) := do
  match ← take? f with
  | some found => return found
  | none => unexpected

end Parse

namespace Kind

/-- The given mark only. -/
def mark? (m : Mark) : Kind → Option Unit
  | mark n => if n = m then some () else none
  | _ => none

/-- The given reserved word only. -/
def keyword? (k : Keyword) : Kind → Option Unit
  | keyword l => if l = k then some () else none
  | _ => none

/-- Names. -/
def ident? : Kind → Option String
  | ident name => some name
  | _ => none

/-- Types. -/
def scalar? : Kind → Option Scalar
  | scalar t => some t
  | _ => none

/-- The marks that continue a chain of arithmetic. -/
def arithmetic? : Kind → Option Arithmetic
  | mark .plus => some .add
  | mark .minus => some .subtract
  | mark .star => some .multiply
  | mark .slash => some .divide
  | _ => none

/-- The marks of assignment, with the operation folded into them. -/
def assignment? : Kind → Option (Option Arithmetic)
  | mark .equal => some none
  | mark .plusEqual => some (some .add)
  | mark .minusEqual => some (some .subtract)
  | mark .starEqual => some (some .multiply)
  | mark .slashEqual => some (some .divide)
  | _ => none

/-- The marks of comparison. -/
def comparison? : Kind → Option Comparison
  | mark .less => some .less
  | mark .lessEqual => some .lessEqual
  | mark .greater => some .greater
  | mark .greaterEqual => some .greaterEqual
  | mark .equalEqual => some .equal
  | mark .bangEqual => some .notEqual
  | _ => none

/-- The marks between the terms of a condition. -/
def connective? : Kind → Option Connective
  | mark .andAnd => some .and
  | mark .orOr => some .or
  | _ => none

/-- The two marks that change a place by one, true for the one that adds. -/
def bump? : Kind → Option Bool
  | mark .plusPlus => some true
  | mark .minusMinus => some false
  | _ => none

end Kind

namespace Parse

/-- Take a mark. -/
def expect (m : Mark) : Parse Unit := do
  let _ ← take (Kind.mark? m)

/-- Take a mark if it is next. -/
def accept (m : Mark) : Parse Bool := do
  return (← take? (Kind.mark? m)).isSome

/-- Whether a mark is next. -/
def sees (m : Mark) : Parse Bool := do
  return ((← peek).bind fun t => Kind.mark? m t.kind).isSome

/-- Take a name. -/
def ident : Parse Token := do
  return (← take Kind.ident?).2

/-! ### Repetition -/

/-- Apply a step until it answers nothing, at most `n` times. -/
def iterate {σ : Type} (step : σ → Parse (Option σ)) : Nat → σ → Parse σ
  | 0, a => return a
  | n + 1, a => do
    match ← step a with
    | none => return a
    | some b => iterate step n b

/-- Apply a step until it answers nothing. -/
def fold {σ : Type} (step : σ → Parse (Option σ)) (a : σ) : Parse σ := do
  iterate step ((← get).rest.length + 1) a

/-- Read items until there is none, at most `n`. -/
def upTo {α : Type} (item : Parse (Option α)) : Nat → Parse (List α)
  | 0 => return []
  | n + 1 => do
    match ← item with
    | none => return []
    | some a => return a :: (← upTo item n)

/-- Read items until there is none. -/
def many {α : Type} (item : Parse (Option α)) : Parse (List α) := do
  upTo item ((← get).rest.length + 1)

/-- Read an item behind a mark, or nothing if another token is next. -/
def behind {α : Type} (m : Mark) (item : Parse α) : Parse (Option α) := do
  if ← accept m then return some (← item) else return none

/-- Read an item unless a mark is next. -/
def unlessAt {α : Type} (m : Mark) (item : Parse α) : Parse (Option α) := do
  if ← sees m then return none else return some (← item)

/-! ### Declarations -/

/-- Enter a new name into the tables, or blame its token when it is taken. -/
def enter {α : Type} (t : Token) (declare : Names → Option (α × Names)) : Parse α :=
  fun s =>
    match declare s.names with
    | none => .error (t.blame .redeclared) s
    | some (a, names) => .ok a { s with names }

end Parse

end Litany
