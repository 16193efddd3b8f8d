import Litany.Token.Lexeme

/-!
# Tokens of a whole text

`segment` reads tokens up to the end of a text, to the first fault, or to the first request to
include another text. `Stream.ofText` goes on behind an include with the included text in front
of what is left, as if it had been pasted there, and counts lines from one again. At most
`includeBudget` texts are included, so reading ends however texts include each other.

The line of a lexeme is one more than the number of line ends in front of it.
-/

namespace Litany

/-- A fault in a text, with the characters read when it showed and the line they begin on. -/
structure LexicalError where
  cause : LexicalCause
  text : String
  line : Nat
deriving DecidableEq, Repr

/-- How the reading of a segment ends. -/
inductive Segment.End where
  | finished (line : Nat)
  | includes (path : String) (lexeme : String) (line : Nat) (rest : List Char)
  | fault (error : LexicalError)

/-- The tokens of a text up to its end, a fault or an include. -/
structure Segment where
  tokens : List Token
  ending : Segment.End

/-- Read tokens, the first character being on the given line. -/
def segment (line : Nat) : List Char → Segment
  | [] => ⟨[], .finished line⟩
  | c :: cs =>
    let text := String.ofList (cut c cs).taken
    let next := line + (cut c cs).taken.count '\n'
    match (cut c cs).lexeme with
    | .layout => segment next (cut c cs).rest
    | .token kind =>
      let later := segment next (cut c cs).rest
      ⟨⟨kind, text, line⟩ :: later.tokens, later.ending⟩
    | .includes path => ⟨[], .includes path text line (cut c cs).rest⟩
    | .fault cause => ⟨[], .fault ⟨cause, text, line⟩⟩
termination_by cs => cs.length
decreasing_by all_goals exact Cut.length_rest_lt c cs

/-- All tokens of a text, and the line that the text ends on. -/
structure Stream where
  tokens : List Token
  endLine : Nat
deriving DecidableEq

/-- Why a text has no tokens. -/
inductive ScanFailure where
  | lexical (error : LexicalError)
  | unavailable (path : String) (line : Nat) (reason : String)
deriving DecidableEq, Repr

/-- A source of included texts. Its answer to a path may depend on the paths asked for before. -/
abbrev Fetcher := List String → String → Except String String

/-- The outcome of reading a text, and all paths asked for so far. -/
structure Scan where
  outcome : Except ScanFailure Stream
  fetched : List String

/-- Put tokens in front of those of a later part. -/
def Scan.after (scan : Scan) (tokens : List Token) : Scan :=
  { scan with outcome := scan.outcome.map fun s => { s with tokens := tokens ++ s.tokens } }

namespace Stream

/-- No more texts than this are included in one reading. -/
def includeBudget : Nat := 64

/-- Why no text can be included without a fetcher. -/
def noFetcher : String := "no include fetcher installed"

/-- Read a text that may still include `budget` others. -/
def ofChars (fetch : Option Fetcher) (budget : Nat) (fetched : List String) (cs : List Char) :
    Scan :=
  let s := segment 1 cs
  match s.ending with
  | .finished line => ⟨.ok ⟨s.tokens, line⟩, fetched⟩
  | .fault error => ⟨.error (.lexical error), fetched⟩
  | .includes path lexeme line rest =>
    match budget, fetch with
    | 0, _ => ⟨.error (.lexical ⟨.includeLimit, lexeme, line⟩), fetched⟩
    | _ + 1, none => ⟨.error (.unavailable path line noFetcher), fetched⟩
    | budget + 1, some answer =>
      match answer fetched path with
      | .error reason => ⟨.error (.unavailable path line reason), fetched ++ [path]⟩
      | .ok text =>
        (ofChars fetch budget (fetched ++ [path]) (text.toList ++ rest)).after s.tokens
termination_by structural budget

/-- Read a text and the texts it includes. -/
def ofText (fetch : Option Fetcher) (fetched : List String) (text : String) : Scan :=
  ofChars fetch includeBudget fetched text.toList

end Stream

end Litany
