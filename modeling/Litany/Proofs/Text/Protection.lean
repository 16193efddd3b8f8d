import Litany.Proofs.Token.Anatomy
import Litany.Template
import Litany.Text.Escape

/-!
# Texts that stand for themselves

A text passes three readers before it is printed: a literal ends at the first quote that no
backslash protects, a template treats percent signs as the beginning of placeholders, and escapes
are resolved in what comes out. `Text.escape` writes a text so that the first and the last reader
let it through, and `Template.literal` so that the one between them does. They do not get in each
other's way: no percent sign is written for an escape, and no backslash or quote for a percent sign.
-/

namespace Litany

open Cut (Inside isQuote)

/-! ### Escapes -/

namespace Text

/-- Put a backslash in front of every backslash and of every quote of the given kind. -/
def encode (quote : Char) : List Char → List Char
  | [] => []
  | c :: cs => if c = '\\' ∨ c = quote then '\\' :: c :: encode quote cs else c :: encode quote cs

/-- The text as it is written inside a literal. -/
def escape (quote : Char) (text : String) : String :=
  String.ofList (encode quote text.toList)

variable {quote : Char}

/-- Both quotes may be escaped, and the escape stands for the quote. -/
private theorem escaped?_of_isQuote (hquote : isQuote quote = true) :
    escaped? quote = some quote := by
  simp only [isQuote, Bool.or_eq_true, beq_iff_eq] at hquote
  rcases hquote with rfl | rfl <;> rfl

/-- Resolving the escapes gives the text back. -/
theorem decode_encode (hquote : isQuote quote = true) (cs : List Char) :
    decode (encode quote cs) = cs := by
  induction cs with
  | nil => rw [encode, decode_nil]
  | cons c cs ih =>
    rw [encode]
    split
    · rename_i hprotected
      have hescaped : escaped? c = some c := by
        rcases hprotected with rfl | rfl
        · rfl
        · exact escaped?_of_isQuote hquote
      rw [decode_escape hescaped, ih]
    · rename_i hplain
      have hbackslash : c ≠ '\\' := fun h => hplain (Or.inl h)
      rw [decode_cons_of_ne hbackslash, ih]

theorem unescape_escape (hquote : isQuote quote = true) (text : String) :
    unescape (escape quote text) = text := by
  rw [unescape, escape, String.toList_ofList, decode_encode hquote, String.ofList_toList]

/-- An escaped text does not end its literal, not even with a backslash at its end. -/
theorem inside_encode (quote : Char) (cs : List Char) : Inside quote (encode quote cs) := by
  induction cs with
  | nil => exact .nil
  | cons c cs ih =>
    rw [encode]
    split
    · exact .escaped c ih
    · rename_i hplain
      have hquote : c ≠ quote := fun h => hplain (Or.inr h)
      have hbackslash : c ≠ '\\' := fun h => hplain (Or.inl h)
      exact .plain hquote hbackslash ih

end Text

/-! ### Percent signs -/

namespace Template

/-- Write every percent sign twice. -/
def double : List Char → List Char
  | [] => []
  | c :: cs => if c = '%' then '%' :: '%' :: double cs else c :: double cs

/-- The template that prints the given text. -/
def literal (text : String) : String :=
  String.ofList (double text.toList)

/-- Two percent signs are no placeholder. -/
private theorem pieces_percent (cs : List Char) :
    pieces ('%' :: '%' :: cs) = .percent :: pieces cs := by
  have hopening : (opening ('%' :: cs)).rest = '%' :: cs := by
    have hflag : isFlag '%' = false := by decide
    have hdigit : Char.isDigit '%' = false := by decide
    simp [opening, hflag, hdigit]
  rw [pieces, if_pos rfl]
  split
  · rename_i hrest _
    rw [hopening] at hrest
    cases hrest
  · rename_i d rest hrest _
    rw [hopening] at hrest
    cases hrest
    rfl

private theorem pieces_cons_of_ne {c : Char} (h : c ≠ '%') (cs : List Char) :
    pieces (c :: cs) = .char c :: pieces cs := by
  rw [pieces, if_neg h]

/-- A text with doubled percent signs is printed as it is, in front of all arguments. -/
private theorem fill_double (cs : List Char) (arguments : List Value) :
    fill (pieces (double cs)) arguments =
      cs ++ arguments.flatMap fun v => v.display.toList := by
  induction cs with
  | nil => rw [double, pieces, fill, List.nil_append]
  | cons c cs ih =>
    rw [double]
    split
    · rename_i hpercent
      rw [pieces_percent, fill, ih, hpercent, List.cons_append]
    · rename_i hplain
      rw [pieces_cons_of_ne hplain, fill, ih, List.cons_append]

/-- A template without placeholders prints what it was made from. -/
theorem format_literal (text : String) : format (literal text) [] = text := by
  rw [format, literal, String.toList_ofList, fill_double, List.flatMap_nil, List.append_nil,
    String.ofList_toList]

/-- A text without a placeholder for it is printed behind the empty template. -/
theorem format_empty (text : String) : format "" [.text text] = text := by
  simp [format, pieces, fill, Value.display]

/-- A text is printed as it is under a placeholder for any value. -/
theorem format_display (text : String) : format "%s" [.text text] = text := by
  have hpieces : pieces "%s".toList = [.hole ['%', 's'] ⟨false, false, 0, none⟩ .display] := by
    decide +kernel
  have hgap (cs : List Char) : pad ⟨false, false, 0, none⟩ cs = cs := by
    unfold pad
    exact if_pos (Nat.zero_sub cs.length)
  rw [format, hpieces, fill, hgap]
  simp [convert, fill, Value.int?, Value.display]

/-- Doubled percent signs neither end a literal nor take a backslash from what it protects. -/
theorem inside_double {quote : Char} (hquote : isQuote quote = true) {raw : List Char}
    (h : Inside quote raw) : Inside quote (double raw) := by
  have hpercent : '%' ≠ quote := by
    rintro rfl
    cases hquote
  induction h with
  | nil => exact .nil
  | escaped c hraw ih =>
    rw [double, if_neg (by decide), double]
    split
    · exact .escaped '%' (.plain hpercent (by decide) ih)
    · exact .escaped c ih
  | plain hne hbackslash hraw ih =>
    rw [double]
    split
    · exact .plain hpercent (by decide) (.plain hpercent (by decide) ih)
    · exact .plain hne hbackslash ih

end Template

end Litany
