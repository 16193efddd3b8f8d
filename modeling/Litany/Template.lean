import Litany.Decimal.Places
import Litany.Value

/-!
# Print templates

A template is text with placeholders such as `%d` or `%-08.3f`. `pieces` takes it apart once;
`fill` then puts the arguments into the placeholders, in order. A placeholder without an argument
is printed as it is written, and arguments without a placeholder are printed behind the text, so
every argument is used exactly once. What an argument prints is never searched for placeholders.
-/

namespace Litany

namespace Template

/-- No width and no number of places is larger than this. -/
def limit : Nat := 4096

/-- How a placeholder wants its argument: the side to fill, what to fill with, the least number of
characters, and the digits after the point. -/
structure Spec where
  left : Bool
  zero : Bool
  width : Nat
  places : Option Nat
deriving DecidableEq, Repr

/-- What a placeholder makes of its argument. -/
inductive Conversion where
  | decimal
  | unsigned
  | hexLower
  | hexUpper
  | character
  | fixed
  | display
deriving DecidableEq, Repr

/-- The conversion that a letter names. -/
def Conversion.ofChar? : Char → Option Conversion
  | 'd' | 'i' => some .decimal
  | 'u' => some .unsigned
  | 'x' => some .hexLower
  | 'X' => some .hexUpper
  | 'c' => some .character
  | 'f' => some .fixed
  | 's' => some .display
  | _ => none

/-- A part of a template. A placeholder keeps its own spelling. -/
inductive Piece where
  | char (c : Char)
  | percent
  | verbatim (raw : List Char)
  | hole (raw : List Char) (spec : Spec) (conversion : Conversion)
deriving DecidableEq, Repr

/-! ### Taking a template apart -/

/-- Whether a character is one of the two flags. -/
def isFlag (c : Char) : Bool :=
  c == '-' || c == '0'

/-- The number that a possibly empty run of digits writes, cut off at the limit. -/
def capped (digits : List Char) : Nat :=
  min limit (Decimal.value digits)

/-- The spelling of a specification, its meaning, and the text behind it. -/
structure Opening where
  raw : List Char
  spec : Spec
  rest : List Char

/-- Read the flags, the width and the places behind a percent sign. -/
def opening (cs : List Char) : Opening :=
  let flags := cs.takeWhile isFlag
  let behindFlags := cs.dropWhile isFlag
  let width := behindFlags.takeWhile Char.isDigit
  let behindWidth := behindFlags.dropWhile Char.isDigit
  let left := flags.contains '-'
  let zero := flags.contains '0'
  match behindWidth with
  | '.' :: behindPoint =>
    let places := behindPoint.takeWhile Char.isDigit
    ⟨flags ++ width ++ '.' :: places, ⟨left, zero, capped width, some (capped places)⟩,
      behindPoint.dropWhile Char.isDigit⟩
  | _ => ⟨flags ++ width, ⟨left, zero, capped width, none⟩, behindWidth⟩

/-- Nothing of the text is lost. -/
theorem raw_append_rest_opening (cs : List Char) :
    (opening cs).raw ++ (opening cs).rest = cs := by
  have flags := List.takeWhile_append_dropWhile (p := isFlag) (l := cs)
  have width := List.takeWhile_append_dropWhile (p := Char.isDigit) (l := cs.dropWhile isFlag)
  rw [opening]
  split
  · rename_i behindPoint h
    have places := List.takeWhile_append_dropWhile (p := Char.isDigit) (l := behindPoint)
    simp only [List.append_assoc, List.cons_append, places, ← h, width, flags]
  · simp only [List.append_assoc, width, flags]

private theorem length_rest_opening_le (cs : List Char) : (opening cs).rest.length ≤ cs.length := by
  have h := congrArg List.length (raw_append_rest_opening cs)
  rw [List.length_append] at h
  omega

/-- The piece that a percent sign, a specification and a closing character make. -/
def closing (o : Opening) (c : Char) : Piece :=
  if c = '%' then .percent
  else
    let raw := '%' :: o.raw ++ [c]
    match Conversion.ofChar? c with
    | some conversion => .hole raw o.spec conversion
    | none => .verbatim raw

/-- The parts of a template. A specification that the end of the text cuts off stands for
itself. -/
def pieces : List Char → List Piece
  | [] => []
  | c :: cs =>
    if c = '%' then
      match (opening cs).rest, length_rest_opening_le cs with
      | [], _ => [.verbatim ('%' :: cs)]
      | d :: rest, shorter =>
        have : rest.length < cs.length := shorter
        closing (opening cs) d :: pieces rest
    else .char c :: pieces cs
termination_by cs => cs.length

/-! ### Filling in -/

/-- The unsigned reading of the sixty-four bits of an integer. -/
def bits (n : Int64) : Nat :=
  n.toUInt64.toNat

/-- The character with the code point in the low thirty-two bits, if there is one. -/
def character (n : Int64) : List Char :=
  let code := bits n % 4294967296
  if code.isValidChar then [Char.ofNat code] else []

/-- The characters of an argument before it is brought to its width. A text stands for itself
under every conversion, and so does an object. -/
def convert (conversion : Conversion) (spec : Spec) (v : Value) : List Char :=
  match v.int?, v.float? with
  | some n, some x =>
    match conversion with
    | .decimal => (Decimal.signed n.toInt).toList
    | .unsigned => Nat.toDigits 10 (bits n)
    | .hexLower => Nat.toDigits 16 (bits n)
    | .hexUpper => (Nat.toDigits 16 (bits n)).map Char.toUpper
    | .character => character n
    | .fixed => (Decimal.fixed (spec.places.getD 6) x).toList
    | .display => v.display.toList
  | _, _ => v.display.toList

/-- Bring a text to the width of a placeholder. Zeros go between a minus sign and the digits. -/
def pad (spec : Spec) (cs : List Char) : List Char :=
  let gap := spec.width - cs.length
  if gap = 0 then cs
  else if spec.left then cs ++ List.replicate gap ' '
  else if spec.zero then
    match cs with
    | '-' :: digits => '-' :: List.replicate gap '0' ++ digits
    | _ => List.replicate gap '0' ++ cs
  else List.replicate gap ' ' ++ cs

/-- Put the arguments into the placeholders. -/
def fill : List Piece → List Value → List Char
  | [], arguments => arguments.flatMap fun v => v.display.toList
  | .char c :: rest, arguments => c :: fill rest arguments
  | .percent :: rest, arguments => '%' :: fill rest arguments
  | .verbatim raw :: rest, arguments => raw ++ fill rest arguments
  | .hole raw _ _ :: rest, [] => raw ++ fill rest []
  | .hole _ spec conversion :: rest, v :: arguments =>
    pad spec (convert conversion spec v) ++ fill rest arguments

/-- The text of a template with its arguments filled in. -/
def format (template : String) (arguments : List Value) : String :=
  String.ofList (fill (pieces template.toList) arguments)

end Template

end Litany
