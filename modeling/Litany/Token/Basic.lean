import Litany.Scalar

/-!
# Tokens

The words of the language. A token remembers the text it was read from and the line that text
begins on, counted from one.
-/

namespace Litany

/-- A punctuation mark. -/
inductive Mark where
  | leftParen
  | rightParen
  | leftBrace
  | rightBrace
  | comma
  | dot
  | semicolon
  | minus
  | plus
  | slash
  | star
  | plusPlus
  | minusMinus
  | plusEqual
  | minusEqual
  | starEqual
  | slashEqual
  | bang
  | bangEqual
  | equal
  | equalEqual
  | greater
  | greaterEqual
  | less
  | lessEqual
  | andAnd
  | orOr
deriving DecidableEq, Repr

namespace Mark

/-- The mark that two characters make together. -/
def ofPair? : Char → Char → Option Mark
  | '+', '+' => some plusPlus
  | '+', '=' => some plusEqual
  | '-', '-' => some minusMinus
  | '-', '=' => some minusEqual
  | '*', '=' => some starEqual
  | '/', '=' => some slashEqual
  | '!', '=' => some bangEqual
  | '=', '=' => some equalEqual
  | '<', '=' => some lessEqual
  | '>', '=' => some greaterEqual
  | '&', '&' => some andAnd
  | '|', '|' => some orOr
  | _, _ => none

/-- The mark that one character makes alone. -/
def ofChar? : Char → Option Mark
  | '(' => some leftParen
  | ')' => some rightParen
  | '{' => some leftBrace
  | '}' => some rightBrace
  | ',' => some comma
  | '.' => some dot
  | ';' => some semicolon
  | '+' => some plus
  | '-' => some minus
  | '*' => some star
  | '/' => some slash
  | '!' => some bang
  | '=' => some equal
  | '<' => some less
  | '>' => some greater
  | _ => none

end Mark

/-- A reserved word other than the names of the scalar types. -/
inductive Keyword where
  | loop
  | branch
  | otherwise
  | giveBack
  | classDef
  | yes
  | no
deriving DecidableEq, Repr

namespace Keyword

/-- The spelling of a reserved word. -/
def name : Keyword → String
  | loop => "for"
  | branch => "if"
  | otherwise => "else"
  | giveBack => "return"
  | classDef => "class"
  | yes => "TRUE"
  | no => "FALSE"

/-- Every reserved word. -/
def all : List Keyword :=
  [loop, branch, otherwise, giveBack, classDef, yes, no]

/-- The reserved word with the given spelling. -/
def ofName? (word : String) : Option Keyword :=
  all.find? fun k => k.name == word

/-- Every reserved word is read from its own spelling. -/
theorem ofName?_name (k : Keyword) : ofName? k.name = some k := by
  cases k <;> decide

end Keyword

/-- What a token is. -/
inductive Kind where
  | mark (m : Mark)
  | keyword (k : Keyword)
  | scalar (t : Scalar)
  | ident (name : String)
  /-- A quoted literal, its escapes as written. -/
  | quoted (raw : String)
  | int (n : Int64)
  | float (x : Float)
  /-- The directive that begins a constant. -/
  | define
  /-- The body of a block of foreign code. -/
  | foreign (body : String)
deriving DecidableEq

/-- The kind of a word: a type, a reserved word or a name. -/
def Kind.ofWord (word : String) : Kind :=
  match Scalar.ofName? word with
  | some t => .scalar t
  | none =>
    match Keyword.ofName? word with
    | some k => .keyword k
    | none => .ident word

/-- A token with its spelling and the line it begins on. -/
structure Token where
  kind : Kind
  lexeme : String
  line : Nat
deriving DecidableEq

end Litany
