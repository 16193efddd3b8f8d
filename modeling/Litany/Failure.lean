import Litany.Grammar.Cursor
import Litany.Machine.Store

/-!
# Messages

Every failure of a program, from its text to its run, and the words for it. A message names the
text at fault and its line; for a fault in the text or the grammar, a reason says what is wrong
with it.
-/

namespace Litany

/-- The words for a fault in a text. -/
def LexicalCause.reason : LexicalCause → String
  | unterminatedComment => "Unterminated block comment"
  | unexpectedCharacter c => "Unexpected character '" ++ String.singleton c ++ "'"
  | unterminatedString => "Unterminated string literal"
  | unterminatedForeign => "Unterminated foreign code block"
  | invalidNumber => "Invalid number literal"
  | malformedInclude => "Expected a quoted path after #include"
  | includeLimit => "Too many nested includes"

/-- The words for a fault in a program. -/
def SyntaxCause.reason : SyntaxCause → String
  | unexpectedToken => "Unexpected token"
  | unexpectedEnd => "Unexpected end of input"
  | undeclared => "Used before declaration"
  | redeclared => "Already declared"
  | arity expected found =>
    "Expected " ++ Nat.repr expected ++ " arguments, found " ++ Nat.repr found
  | missingArgument name => "Missing argument '" ++ name ++ "'"
  | unknownField => "Unknown field"
  | assignToConstant => "Cannot assign to a constant"
  | returnOutside => "Return outside of a procedure"
  | nestedProcedure => "Procedures can only be defined at top level"

/-- The words for a disagreement of the tables. -/
def TableFault.text : TableFault → String
  | untypedSlot slot name => "slot " ++ slot.text ++ " of '" ++ name ++ "' has no type"
  | unknownProcedure ordinal => "unknown procedure ordinal " ++ Nat.repr ordinal
  | lostProcedure ordinal =>
    "prototype " ++ Nat.repr ordinal ++ " vanished while parsing its body"

/-- The message about a disagreement inside the interpreter. -/
def internalMessage (text : String) : String :=
  "CompilerInternalError: " ++ text

/-- The message about a fault of a running program. -/
def Fault.message : Fault → String
  | noBody name line =>
    internalMessage
      ("procedure '" ++ name ++ "' called in line " ++ Nat.repr line ++ " has no body")
  | emptySlot place slot =>
    internalMessage ("'" ++ place ++ "' resolved to " ++ slot.text ++ " which holds no value")
  | notObject place => internalMessage ("'" ++ place ++ "' is not a class instance")
  | divisionByZero line => "Runtime failure: division by zero in line " ++ Nat.repr line
  | unsupported operation line =>
    "Runtime failure: invalid operation " ++ operation.text ++ " in line " ++ Nat.repr line
  | noExecutor line =>
    "Runtime failure: no foreign code executor for block in line " ++ Nat.repr line
  | foreign line reason =>
    "Runtime failure: foreign code in line " ++ Nat.repr line ++ " failed: " ++ reason

/-- Why a program gave no output. -/
inductive Failure where
  | scan (f : ScanFailure)
  | parse (f : ParseFailure)
  | stop (s : Stop)

/-- The message about a token or a piece of text in the wrong place. -/
def misplaced (stage text : String) (line : Nat) : String :=
  stage ++ " failure: '" ++ text ++ "' unexpected token in line " ++ Nat.repr line

namespace Failure

/-- The message about a failure. -/
def message : Failure → String
  | scan (.lexical e) => misplaced "Lexer" e.text e.line
  | scan (.unavailable path line reason) =>
    "Include failure: '" ++ path ++ "' could not be fetched in line " ++ Nat.repr line ++ ": " ++
      reason
  | parse (.error e) => misplaced "Parser" e.text e.line
  | parse (.table f) => internalMessage f.text
  | stop (.fault f) => f.message
  | stop .outOfFuel => "Runtime failure: out of fuel"

/-- What is wrong with the text that a message names. -/
def reason : Failure → Option String
  | scan (.lexical e) => some e.cause.reason
  | parse (.error e) => some e.cause.reason
  | _ => none

/-- The message with its reason. -/
def report (f : Failure) : String :=
  match f.reason with
  | some reason => f.message ++ " (" ++ reason ++ ")"
  | none => f.message

end Failure

end Litany
