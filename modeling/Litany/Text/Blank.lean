/-!
# White space

The twenty-five code points with the Unicode property `White_Space` (stable since version 6.3),
as closed ranges, and the trimming of a line by that property.
-/

namespace Litany

namespace Text

/-- The `White_Space` code points as closed ranges, ascending and apart. -/
def blankRanges : List (Nat × Nat) :=
  [(0x09, 0x0D), (0x20, 0x20), (0x85, 0x85), (0xA0, 0xA0), (0x1680, 0x1680), (0x2000, 0x200A),
    (0x2028, 0x2029), (0x202F, 0x202F), (0x205F, 0x205F), (0x3000, 0x3000)]

/-- Whether a character is white space. -/
def isBlank (c : Char) : Bool :=
  blankRanges.any fun range => range.1 ≤ c.toNat && c.toNat ≤ range.2

-- A letter is no white space, nor is the zero-width space.
example : isBlank 'a' = false ∧ isBlank (Char.ofNat 0x200B) = false := by
  decide

/-- The text without the white space at its two ends. -/
def trim (text : String) : String :=
  String.ofList (((text.toList.dropWhile isBlank).reverse.dropWhile isBlank).reverse)

end Text

end Litany
