/-!
# Backslash escapes

Quoted literals keep their escapes as written; `decode` resolves them when a text is printed.
A backslash stands for itself when no known letter follows it, so decoding is total and every
text without a backslash is its own decoding.
-/

namespace Litany

namespace Text

/-- The character that a backslash followed by the given letter stands for. -/
def escaped? : Char → Option Char
  | 'n' => some '\n'
  | 't' => some '\t'
  | 'r' => some '\r'
  | '0' => some (Char.ofNat 0)
  | '\\' => some '\\'
  | '"' => some '"'
  | '\'' => some '\''
  | _ => none

/-- Replace every known escape by its character. An unknown escape, and a backslash at the very
end, stay as they are. -/
def decode : List Char → List Char
  | '\\' :: c :: rest =>
    match escaped? c with
    | some d => d :: decode rest
    | none => '\\' :: c :: decode rest
  | c :: rest => c :: decode rest
  | [] => []

/-- The printed form of a text whose escapes are still raw. -/
def unescape (text : String) : String :=
  String.ofList (decode text.toList)

/-! ### Decoding, one character at a time -/

@[simp]
theorem decode_nil : decode [] = [] := by
  simp [decode]

/-- A character other than a backslash decodes to itself. -/
theorem decode_cons_of_ne {c : Char} (h : c ≠ '\\') (rest : List Char) :
    decode (c :: rest) = c :: decode rest := by
  rw [decode]
  simp [h]

/-- A known escape decodes to the character it names. -/
theorem decode_escape {c d : Char} (h : escaped? c = some d) (rest : List Char) :
    decode ('\\' :: c :: rest) = d :: decode rest := by
  rw [decode, h]

end Text

end Litany
