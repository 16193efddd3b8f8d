import Litany.Decimal.Digits
import Litany.Token.Basic

/-!
# The first lexeme of a text

`cut` splits a text behind its first lexeme: a blank, a comment, a token, a request to include
another text, or something that is none of these. It looks at most two characters past the
lexeme. The two parts of a cut make up the text, and the first is never empty
(`Cut.taken_append_rest`, `Cut.taken_ne_nil`), so cutting again and again comes to an end.

Foreign code, `js { … };`, is taken as it stands: only its braces are counted.
-/

namespace Litany

/-- Why a text has no first lexeme. -/
inductive LexicalCause where
  | unterminatedComment
  | unexpectedCharacter (c : Char)
  | unterminatedString
  | unterminatedForeign
  | invalidNumber
  | malformedInclude
  | includeLimit
deriving DecidableEq, Repr

/-- What a lexeme turned out to be. -/
inductive Lexeme where
  | layout
  | token (kind : Kind)
  | includes (path : String)
  | fault (cause : LexicalCause)

/-- A text split behind its first lexeme. -/
structure Cut where
  taken : List Char
  rest : List Char
  lexeme : Lexeme

namespace Cut

/-! ### Classes of characters -/

/-- The characters between tokens. -/
def isGap (c : Char) : Bool :=
  c == ' ' || c == '\t' || c == '\r' || c == '\n'

/-- The characters that begin a name. -/
def isWordStart (c : Char) : Bool :=
  c.isAlpha || c == '_'

/-- The characters that continue a name. -/
def isWordRest (c : Char) : Bool :=
  c.isAlphanum || c == '_'

/-- The two quotes. -/
def isQuote (c : Char) : Bool :=
  c == '"' || c == '\''

/-! ### Lexemes that run up to a closing mark -/

/-- Split behind the first `*/`. -/
def closeComment : List Char → Option (List Char × List Char)
  | '*' :: '/' :: rest => some (['*', '/'], rest)
  | c :: rest => (closeComment rest).map fun (taken, rest) => (c :: taken, rest)
  | [] => none

/-- The raw contents of a literal up to its closing quote, and the text behind that quote. A
backslash keeps the next character from closing the literal. -/
def closeQuote (quote : Char) : List Char → Option (List Char × List Char)
  | [] => none
  | '\\' :: c :: rest => (closeQuote quote rest).map fun (raw, rest) => ('\\' :: c :: raw, rest)
  | c :: rest =>
    if c = quote then some ([], rest)
    else (closeQuote quote rest).map fun (raw, rest) => (c :: raw, rest)

/-- The text up to the brace that closes one more than `depth` open braces, and the text behind
that brace. -/
def closeBrace : Nat → List Char → Option (List Char × List Char)
  | _, [] => none
  | depth, '{' :: rest => (closeBrace (depth + 1) rest).map fun (body, rest) => ('{' :: body, rest)
  | 0, '}' :: rest => some ([], rest)
  | depth + 1, '}' :: rest => (closeBrace depth rest).map fun (body, rest) => ('}' :: body, rest)
  | depth, c :: rest => (closeBrace depth rest).map fun (body, rest) => (c :: body, rest)

/-! ### Lexemes by their first character -/

/-- A comment up to the end of its line, behind `//`. -/
def lineComment (cs : List Char) : Cut :=
  ⟨'/' :: '/' :: cs.takeWhile (· != '\n'), cs.dropWhile (· != '\n'), .layout⟩

/-- A comment up to `*/`, behind `/*`. -/
def blockComment (cs : List Char) : Cut :=
  match closeComment cs with
  | some (taken, rest) => ⟨'/' :: '*' :: taken, rest, .layout⟩
  | none => ⟨'/' :: '*' :: cs, [], .fault .unterminatedComment⟩

/-- A quoted literal, behind its opening quote. -/
def literal (quote : Char) (cs : List Char) : Cut :=
  match closeQuote quote cs with
  | some (raw, rest) => ⟨quote :: raw ++ [quote], rest, .token (.quoted (String.ofList raw))⟩
  | none => ⟨quote :: cs, [], .fault .unterminatedString⟩

/-- An integer literal of the given digits, if it fits 64 bits with a sign. -/
def integer (digits : List Char) : Lexeme :=
  let n := Decimal.value digits
  if n < Nat.pow 2 63 then .token (.int (Int64.ofNat n)) else .fault .invalidNumber

/-- The float nearest to the number with the given digits before and after the point. -/
def fraction (whole places : List Char) : Float :=
  Float.ofScientific (Decimal.value (whole ++ places)) true places.length

/-- A number. A point belongs to it only when a digit follows. -/
def number (c : Char) (cs : List Char) : Cut :=
  let whole := c :: cs.takeWhile Char.isDigit
  match cs.dropWhile Char.isDigit with
  | '.' :: d :: rest =>
    if d.isDigit then
      let places := d :: rest.takeWhile Char.isDigit
      ⟨whole ++ '.' :: places, rest.dropWhile Char.isDigit, .token (.float (fraction whole places))⟩
    else ⟨whole, '.' :: d :: rest, integer whole⟩
  | rest => ⟨whole, rest, integer whole⟩

/-- A block of foreign code, behind the word that begins it. -/
def foreign (word cs : List Char) : Cut :=
  let gap := cs.takeWhile isGap
  match cs.dropWhile isGap with
  | [] => ⟨word ++ gap, [], .fault .unterminatedForeign⟩
  | c :: inside =>
    if c = '{' then
      match closeBrace 0 inside with
      | none => ⟨word ++ gap ++ c :: inside, [], .fault .unterminatedForeign⟩
      | some (body, behind) =>
        let block := word ++ gap ++ c :: body ++ '}' :: behind.takeWhile isGap
        match behind.dropWhile isGap with
        | ';' :: rest => ⟨block ++ [';'], rest, .token (.foreign (String.ofList body))⟩
        | rest => ⟨block, rest, .fault .unterminatedForeign⟩
    else ⟨word ++ gap ++ [c], inside, .fault (.unexpectedCharacter c)⟩

/-- A name, a reserved word, or a block of foreign code. -/
def word (c : Char) (cs : List Char) : Cut :=
  let taken := c :: cs.takeWhile isWordRest
  let rest := cs.dropWhile isWordRest
  if taken = ['j', 's'] then foreign taken rest
  else ⟨taken, rest, .token (Kind.ofWord (String.ofList taken))⟩

/-- The quoted path of an include, behind its directive. The path ends on its line. -/
def includePath (directive cs : List Char) : Cut :=
  let isSpace := fun c => c == ' ' || c == '\t'
  let gap := cs.takeWhile isSpace
  match cs.dropWhile isSpace with
  | [] => ⟨directive ++ gap, [], .fault .malformedInclude⟩
  | quote :: cs =>
    let opened := directive ++ gap ++ [quote]
    if isQuote quote then
      let inPath := fun c => c != quote && c != '\n'
      let path := cs.takeWhile inPath
      match cs.dropWhile inPath with
      | [] => ⟨opened ++ path, [], .fault .malformedInclude⟩
      | c :: rest =>
        ⟨opened ++ path ++ [c], rest,
          if c = quote then .includes (String.ofList path) else .fault .malformedInclude⟩
    else ⟨opened, cs, .fault .malformedInclude⟩

/-- A directive, behind its hash sign. -/
def directive (cs : List Char) : Cut :=
  let name := cs.takeWhile Char.isAlpha
  let rest := cs.dropWhile Char.isAlpha
  if name = "define".toList then ⟨'#' :: name, rest, .token .define⟩
  else if name = "include".toList then includePath ('#' :: name) rest
  else ⟨'#' :: name, rest, .fault (.unexpectedCharacter '#')⟩

/-- The mark that a character makes alone. -/
def single (c : Char) (cs : List Char) : Cut :=
  ⟨[c], cs,
    match Mark.ofChar? c with
    | some m => .token (.mark m)
    | none => .fault (.unexpectedCharacter c)⟩

/-- A punctuation mark, the longer one where two are possible. -/
def mark (c : Char) (cs : List Char) : Cut :=
  match cs with
  | [] => single c []
  | d :: rest =>
    match Mark.ofPair? c d with
    | some m => ⟨[c, d], rest, .token (.mark m)⟩
    | none => single c (d :: rest)

/-- A comment or a mark, behind a slash. -/
def slash (cs : List Char) : Cut :=
  match cs with
  | '/' :: rest => lineComment rest
  | '*' :: rest => blockComment rest
  | _ => mark '/' cs

end Cut

/-- Split a text that begins with `c` behind its first lexeme. -/
def cut (c : Char) (cs : List Char) : Cut :=
  if Cut.isGap c then ⟨[c], cs, .layout⟩
  else if Cut.isQuote c then Cut.literal c cs
  else if c = '#' then Cut.directive cs
  else if c.isDigit then Cut.number c cs
  else if Cut.isWordStart c then Cut.word c cs
  else if c = '/' then Cut.slash cs
  else Cut.mark c cs

/-! ### Nothing is lost -/

namespace Cut

/-- A comment and what is behind it make up the text. -/
theorem closeComment_append {cs taken rest : List Char}
    (h : closeComment cs = some (taken, rest)) : taken ++ rest = cs := by
  fun_induction closeComment cs generalizing taken rest with
  | case1 r =>
    obtain ⟨rfl, rfl⟩ := Prod.mk.inj (Option.some.inj h)
    rfl
  | case2 c r _ ih =>
    obtain ⟨⟨taken', rest'⟩, found, same⟩ := Option.map_eq_some_iff.1 h
    obtain ⟨rfl, rfl⟩ := Prod.mk.inj same
    simp [ih found]
  | case3 => simp at h

/-- A literal, its closing quote and what is behind make up the text. -/
theorem closeQuote_append {quote : Char} {cs raw rest : List Char}
    (h : closeQuote quote cs = some (raw, rest)) : raw ++ quote :: rest = cs := by
  fun_induction closeQuote quote cs generalizing raw rest with
  | case1 => simp at h
  | case2 c r ih =>
    obtain ⟨⟨raw', rest'⟩, found, same⟩ := Option.map_eq_some_iff.1 h
    obtain ⟨rfl, rfl⟩ := Prod.mk.inj same
    simp [ih found]
  | case3 r =>
    obtain ⟨rfl, rfl⟩ := Prod.mk.inj (Option.some.inj h)
    rfl
  | case4 c r _ _ ih =>
    obtain ⟨⟨raw', rest'⟩, found, same⟩ := Option.map_eq_some_iff.1 h
    obtain ⟨rfl, rfl⟩ := Prod.mk.inj same
    simp [ih found]

/-- A block, its closing brace and what is behind make up the text. -/
theorem closeBrace_append {depth : Nat} {cs body rest : List Char}
    (h : closeBrace depth cs = some (body, rest)) : body ++ '}' :: rest = cs := by
  fun_induction closeBrace depth cs generalizing body rest with
  | case1 => simp at h
  | case3 r =>
    obtain ⟨rfl, rfl⟩ := Prod.mk.inj (Option.some.inj h)
    rfl
  | case2 _ _ ih | case4 _ _ ih | case5 _ _ _ _ _ _ ih =>
    obtain ⟨⟨body', rest'⟩, found, same⟩ := Option.map_eq_some_iff.1 h
    obtain ⟨rfl, rfl⟩ := Prod.mk.inj same
    simp [ih found]

private theorem lineComment_append (cs : List Char) :
    (lineComment cs).taken ++ (lineComment cs).rest = '/' :: '/' :: cs := by
  simp [lineComment]

/-- A comment between its two ends and what is behind it make up the text. -/
private theorem blockComment_append (cs : List Char) :
    (blockComment cs).taken ++ (blockComment cs).rest = '/' :: '*' :: cs := by
  rw [blockComment]
  split
  · rename_i h
    simp [closeComment_append h]
  · simp

/-- A literal and what is behind it make up the text, also where it is not closed. -/
private theorem literal_append (quote : Char) (cs : List Char) :
    (literal quote cs).taken ++ (literal quote cs).rest = quote :: cs := by
  rw [literal]
  split
  · rename_i h
    simp [closeQuote_append h]
  · simp

/-- A number and what is behind it make up the text, with a fraction or without. -/
private theorem number_append (c : Char) (cs : List Char) :
    (number c cs).taken ++ (number c cs).rest = c :: cs := by
  have whole := List.takeWhile_append_dropWhile (p := Char.isDigit) (l := cs)
  rw [number]
  split
  · rename_i h
    split
    · simp [← h, whole]
    · simp [← h, whole]
  · simp [whole]

/-- Foreign code and what is behind it make up the text, also where the code breaks off. -/
private theorem foreign_append (word cs : List Char) :
    (foreign word cs).taken ++ (foreign word cs).rest = word ++ cs := by
  have gap := List.takeWhile_append_dropWhile (p := isGap) (l := cs)
  rw [foreign]
  split
  · rename_i h
    simpa [h] using gap
  · rename_i c inside h
    rw [h] at gap
    split
    · split
      · simp [gap]
      · rename_i hc _ body behind found
        have tail := List.takeWhile_append_dropWhile (p := isGap) (l := behind)
        have block := closeBrace_append found
        split
        · rename_i rest hrest
          rw [hrest] at tail
          simp [tail, block, gap]
        · simp [tail, block, gap]
    · simp [gap]

/-- A word and what is behind it make up the text. -/
private theorem word_append (c : Char) (cs : List Char) :
    (word c cs).taken ++ (word c cs).rest = c :: cs := by
  rw [word]
  split
  · simp [foreign_append]
  · simp

/-- A request and what is behind it make up the text, also where the path breaks off. -/
private theorem includePath_append (directive cs : List Char) :
    (includePath directive cs).taken ++ (includePath directive cs).rest = directive ++ cs := by
  have gap := List.takeWhile_append_dropWhile (p := fun c => c == ' ' || c == '\t') (l := cs)
  rw [includePath]
  split
  · rename_i h
    simpa [h] using gap
  · rename_i quote cs' h
    rw [h] at gap
    split
    · have path := List.takeWhile_append_dropWhile (p := fun c => c != quote && c != '\n')
        (l := cs')
      dsimp only
      split
      · rename_i h'
        rw [h', List.append_nil] at path
        simp [path, gap]
      · rename_i h'
        rw [h'] at path
        simp [path, gap]
    · simp [gap]

/-- A directive and what is behind it make up the text. -/
private theorem directive_append (cs : List Char) :
    (directive cs).taken ++ (directive cs).rest = '#' :: cs := by
  rw [directive]
  split
  · simp
  · split
    · simp [includePath_append]
    · simp

/-- A mark and what is behind it make up the text, whether it has one character or two. -/
private theorem mark_append (c : Char) (cs : List Char) :
    (mark c cs).taken ++ (mark c cs).rest = c :: cs := by
  cases cs with
  | nil => simp [mark, single]
  | cons d rest =>
    simp only [mark]
    split
    · simp
    · simp [single]

private theorem slash_append (cs : List Char) :
    (slash cs).taken ++ (slash cs).rest = '/' :: cs := by
  unfold slash
  split
  · exact lineComment_append _
  · exact blockComment_append _
  · exact mark_append '/' cs

/-- Foreign code takes at least its word. -/
private theorem foreign_taken_ne_nil {word : List Char} (h : word ≠ []) (cs : List Char) :
    (foreign word cs).taken ≠ [] := by
  rw [foreign]
  split
  · simp [h]
  · split
    · split
      · simp
      · dsimp only
        split <;> simp
    · simp

/-- A request takes at least its directive. -/
private theorem includePath_taken_ne_nil {directive : List Char} (h : directive ≠ [])
    (cs : List Char) : (includePath directive cs).taken ≠ [] := by
  rw [includePath]
  split
  · simp [h]
  · dsimp only
    split
    · split <;> simp
    · simp

/-- A mark takes at least one character. -/
private theorem mark_taken_ne_nil (c : Char) (cs : List Char) : (mark c cs).taken ≠ [] := by
  cases cs with
  | nil => simp [mark, single]
  | cons d rest =>
    simp only [mark]
    split <;> simp [single]

/-- The two parts of a cut make up the text. -/
theorem taken_append_rest (c : Char) (cs : List Char) :
    (cut c cs).taken ++ (cut c cs).rest = c :: cs := by
  rw [cut]
  split
  · rfl
  split
  · exact literal_append c cs
  split
  · rename_i h
    rw [h]
    exact directive_append cs
  split
  · exact number_append c cs
  split
  · exact word_append c cs
  split
  · rename_i h
    rw [h]
    exact slash_append cs
  · exact mark_append c cs

/-- A cut takes at least one character. -/
private theorem taken_ne_nil (c : Char) (cs : List Char) : (cut c cs).taken ≠ [] := by
  rw [cut]
  split
  · simp
  split
  · rw [literal]
    split <;> simp
  split
  · rw [directive]
    split
    · simp
    · split
      · exact includePath_taken_ne_nil (List.cons_ne_nil _ _) _
      · simp
  split
  · rw [number]
    split
    · split <;> simp
    · simp
  split
  · rw [word]
    split
    · exact foreign_taken_ne_nil (List.cons_ne_nil _ _) _
    · simp
  split
  · unfold slash
    split
    · simp [lineComment]
    · rw [blockComment]
      split <;> simp
    · exact mark_taken_ne_nil _ _
  · exact mark_taken_ne_nil _ _

/-- What is left is shorter than the text. -/
theorem length_rest_lt (c : Char) (cs : List Char) :
    (cut c cs).rest.length < (c :: cs).length := by
  have sum := congrArg List.length (taken_append_rest c cs)
  have positive := List.length_pos_iff.2 (taken_ne_nil c cs)
  rw [List.length_append] at sum
  omega

end Cut

end Litany
