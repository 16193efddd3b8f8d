import Litany.Token.Stream
import Mathlib.Data.List.TakeWhile

/-!
# The spelling of names

A name is read from the characters it stands for, so the token of a name carries the same text
twice: as what it is and as what it was read from. A dot ends a name, so there is none in it.
Included texts are no exception. The main statement is `Stream.spelled_ofText`: it holds of every
token of a text.
-/

namespace Litany

/-- A token is spelled if, being a name, it is written as that name, without a dot. -/
def Token.Spelled (t : Token) : Prop :=
  ∀ name, t.kind = .ident name → t.lexeme = name ∧ '.' ∉ name.toList

/-! ### The first lexeme -/

namespace Cut

/-- A cut is spelled if, taking a name, it takes the characters of that name and no dot. -/
def Spelled (k : Cut) : Prop :=
  ∀ name, k.lexeme = .token (.ident name) → String.ofList k.taken = name ∧ '.' ∉ k.taken

/-- A cut that takes no name is spelled. -/
private theorem spelled_of_ne {k : Cut} (hk : ∀ name, k.lexeme ≠ .token (.ident name)) :
    k.Spelled :=
  fun name h => absurd h (hk name)

/-- No literal is a name. -/
private theorem spelled_literal (quote : Char) (cs : List Char) : (literal quote cs).Spelled := by
  refine spelled_of_ne fun name => ?_
  rw [literal]
  split <;> simp

/-- No request is a name. -/
private theorem spelled_includePath (directive cs : List Char) :
    (includePath directive cs).Spelled := by
  refine spelled_of_ne fun name => ?_
  rw [includePath]
  split
  · simp
  · dsimp only
    split
    · split
      · simp
      · dsimp only
        split <;> simp
    · simp

private theorem spelled_directive (cs : List Char) : (directive cs).Spelled := by
  rw [directive]
  split
  · exact spelled_of_ne fun name => by simp
  · split
    · exact spelled_includePath _ _
    · exact spelled_of_ne fun name => by simp

/-- No number is a name. -/
private theorem integer_ne_ident (digits : List Char) (name : String) :
    integer digits ≠ .token (.ident name) := by
  rw [integer]
  split <;> simp

private theorem spelled_number (c : Char) (cs : List Char) : (number c cs).Spelled := by
  refine spelled_of_ne fun name => ?_
  rw [number]
  split
  · split
    · simp
    · exact integer_ne_ident _ name
  · exact integer_ne_ident _ name

/-- No foreign code is a name. -/
private theorem spelled_foreign (word cs : List Char) : (foreign word cs).Spelled := by
  refine spelled_of_ne fun name => ?_
  rw [foreign]
  split
  · simp
  · split
    · split
      · simp
      · dsimp only
        split <;> simp
    · simp

/-- Only a word may be a name, and then it is the name. -/
private theorem eq_of_ofWord {word name : String} (h : Kind.ofWord word = .ident name) :
    word = name := by
  unfold Kind.ofWord at h
  split at h
  · cases h
  · split at h
    · cases h
    · exact Kind.ident.inj h

/-- A dot belongs to no word. -/
private theorem dot_not_mem_word {c : Char} (hc : isWordStart c = true) (cs : List Char) :
    '.' ∉ c :: cs.takeWhile isWordRest := by
  rw [List.mem_cons, not_or]
  constructor
  · rintro rfl
    exact absurd hc (by decide)
  · intro hdot
    exact absurd (List.mem_takeWhile_imp hdot) (by decide)

/-- A word that is a name is spelled as it is written. -/
private theorem spelled_word {c : Char} (hc : isWordStart c = true) (cs : List Char) :
    (word c cs).Spelled := by
  rw [word]
  split
  · exact spelled_foreign _ _
  · intro name h
    exact ⟨eq_of_ofWord (Lexeme.token.inj h), dot_not_mem_word hc cs⟩

/-- No mark is a name. -/
private theorem spelled_mark (c : Char) (cs : List Char) : (mark c cs).Spelled := by
  have hsingle : ∀ rest name, (single c rest).lexeme ≠ .token (.ident name) := by
    intro rest name
    simp only [single]
    split <;> simp
  refine spelled_of_ne fun name => ?_
  unfold mark
  split
  · exact hsingle [] name
  · split
    · simp
    · exact hsingle _ name

private theorem spelled_slash (cs : List Char) : (slash cs).Spelled := by
  unfold slash
  split
  · exact spelled_of_ne fun name => by simp [lineComment]
  · refine spelled_of_ne fun name => ?_
    rw [blockComment]
    split <;> simp
  · exact spelled_mark _ _

/-- The first lexeme of a text, if it is a name, has the characters of that name. -/
private theorem spelled_cut (c : Char) (cs : List Char) : (cut c cs).Spelled := by
  rw [cut]
  split
  · exact spelled_of_ne fun name => by simp
  split
  · exact spelled_literal c cs
  split
  · exact spelled_directive cs
  split
  · exact spelled_number c cs
  split
  · rename_i hc
    exact spelled_word hc cs
  split
  · exact spelled_slash cs
  · exact spelled_mark c cs

end Cut

/-! ### Whole texts -/

/-- Every token of a segment is spelled. -/
private theorem spelled_segment (line : Nat) (cs : List Char) :
    ∀ t ∈ (segment line cs).tokens, t.Spelled := by
  fun_induction segment line cs with
  | case1 => simp
  | case2 line c cs _ _ ih => exact ih
  | case3 line c cs text _ kind hlexeme _ ih =>
    intro t ht
    rcases List.mem_cons.mp ht with rfl | ht
    · intro name hname
      have hkind : kind = .ident name := hname
      obtain ⟨rfl, hdot⟩ := Cut.spelled_cut c cs name (by rw [hlexeme, hkind])
      exact ⟨rfl, by rw [String.toList_ofList]; exact hdot⟩
    · exact ih t ht
  | case4 => simp
  | case5 => simp

/-- A reading that goes on behind some tokens ends well only if its later part does. -/
theorem Scan.after_eq_ok {scan : Scan} {tokens : List Token} {stream : Stream}
    (h : (scan.after tokens).outcome = .ok stream) :
    ∃ later, scan.outcome = .ok later ∧
      stream = { later with tokens := tokens ++ later.tokens } := by
  obtain ⟨outcome, fetched⟩ := scan
  cases outcome with
  | error failure => cases h
  | ok later =>
    cases h
    exact ⟨later, rfl, rfl⟩

namespace Stream

/-- What holds of every token of a segment holds of every token of a text and of the texts it
includes. -/
theorem forall_mem_ofChars {P : Token → Prop} (hP : ∀ cs, ∀ t ∈ (segment 1 cs).tokens, P t)
    {fetch : Option Fetcher} {budget : Nat} {fetched : List String} {cs : List Char}
    {stream : Stream} (h : (ofChars fetch budget fetched cs).outcome = .ok stream) :
    ∀ t ∈ stream.tokens, P t := by
  fun_induction ofChars fetch budget fetched cs generalizing stream with
  | case1 budget fetched cs line _ =>
    cases h
    exact hP cs
  | case2 | case3 | case4 | case5 => cases h
  | case6 fetched cs =>
    rename_i ih
    obtain ⟨later, hlater, rfl⟩ := Scan.after_eq_ok h
    intro t ht
    rcases List.mem_append.mp ht with ht | ht
    · exact hP cs t ht
    · exact ih hlater t ht

/-- Every token of a text is spelled. -/
theorem spelled_ofText {fetch : Option Fetcher} {fetched : List String} {text : String}
    {stream : Stream} (h : (ofText fetch fetched text).outcome = .ok stream) :
    ∀ t ∈ stream.tokens, t.Spelled :=
  forall_mem_ofChars (spelled_segment 1) h

end Stream

end Litany
