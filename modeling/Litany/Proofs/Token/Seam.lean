import Litany.Proofs.Lines.Erasure
import Litany.Proofs.Token.Spelling

/-!
# Texts joined at a line end

No lexeme reaches over a line end into a text that could have ended there: a line end closes a
name, a number, a mark and a comment of one line, and what may hold line ends has a closing mark
of its own. So the tokens of two texts joined by a line end are those of the first followed by
those of the second, and the texts they include are asked for in the same order. Only the lines
of the later tokens change. The main statement is `Stream.ofText_seam`.
-/

namespace Litany

/-! ### The first lexeme -/

namespace Cut

/-- The same cut of a longer text. -/
def followedBy (k : Cut) (tail : List Char) : Cut :=
  { k with rest := k.rest ++ tail }

/-- A cut that does not change when a text goes on, unless it is a fault: then anything may
become of it. -/
def Continues (tail : List Char) (k k' : Cut) : Prop :=
  (∃ cause, k.lexeme = .fault cause) ∨ k' = k.followedBy tail

section Classes

variable {p : Char → Bool} {cs ys : List Char}

/-- A line end stops every class that it does not belong to. -/
theorem takeWhile_seam (hp : p '\n' = false) :
    (cs ++ '\n' :: ys).takeWhile p = cs.takeWhile p := by
  induction cs with
  | nil => simp [hp]
  | cons c cs ih => simp only [List.cons_append, List.takeWhile_cons, ih]

/-- A run that line ends do not belong to stops at the seam. -/
theorem dropWhile_seam (hp : p '\n' = false) :
    (cs ++ '\n' :: ys).dropWhile p = cs.dropWhile p ++ '\n' :: ys := by
  induction cs with
  | nil => simp [hp]
  | cons c cs ih =>
    simp only [List.cons_append, List.dropWhile_cons, ih]
    split <;> rfl

/-- A class that stops inside a text stops there however the text goes on. -/
theorem takeWhile_append_of_dropWhile {c : Char} {rest : List Char}
    (h : cs.dropWhile p = c :: rest) : (cs ++ ys).takeWhile p = cs.takeWhile p := by
  induction cs with
  | nil => cases h
  | cons d cs ih =>
    simp only [List.cons_append, List.takeWhile_cons, List.dropWhile_cons] at h ⊢
    split
    · rename_i hd
      rw [if_pos hd] at h
      rw [ih h]
    · rfl

/-- A run that stops in front of a character stops there whatever is behind. -/
theorem dropWhile_append_of_dropWhile {c : Char} {rest : List Char}
    (h : cs.dropWhile p = c :: rest) : (cs ++ ys).dropWhile p = c :: rest ++ ys := by
  rw [List.dropWhile_append, h]
  rfl

end Classes

section Closing

variable {cs taken rest : List Char} (tail : List Char)

/-- A comment that is closed is closed there whatever is behind. -/
private theorem closeComment_tail (h : closeComment cs = some (taken, rest)) :
    closeComment (cs ++ tail) = some (taken, rest ++ tail) := by
  fun_induction closeComment cs generalizing taken rest with
  | case1 r =>
    obtain ⟨rfl, rfl⟩ := Prod.mk.inj (Option.some.inj h)
    rfl
  | case2 c r hpair ih =>
    obtain ⟨⟨taken', rest'⟩, found, same⟩ := Option.map_eq_some_iff.1 h
    obtain ⟨rfl, rfl⟩ := Prod.mk.inj same
    -- the comment is closed further on, so there is a second character
    cases r with
    | nil => cases found
    | cons d r =>
      rw [List.cons_append, List.cons_append, closeComment, ← List.cons_append, ih found]
      · rfl
      · rintro s rfl ⟨⟩
        exact hpair r rfl rfl
  | case3 => cases h

/-- A literal that is closed is closed there whatever is behind. -/
private theorem closeQuote_tail {quote : Char} (hquote : quote ≠ '\\')
    (h : closeQuote quote cs = some (taken, rest)) :
    closeQuote quote (cs ++ tail) = some (taken, rest ++ tail) := by
  fun_induction closeQuote quote cs generalizing taken rest with
  | case1 => cases h
  | case2 c r ih =>
    obtain ⟨⟨taken', rest'⟩, found, same⟩ := Option.map_eq_some_iff.1 h
    obtain ⟨rfl, rfl⟩ := Prod.mk.inj same
    simp only [List.cons_append, closeQuote, ih found, Option.map_some]
  | case3 r =>
    obtain ⟨rfl, rfl⟩ := Prod.mk.inj (Option.some.inj h)
    rw [List.cons_append, closeQuote, if_pos rfl]
    intro d r' hslash
    exact absurd hslash hquote
  | case4 c r hslash hc ih =>
    obtain ⟨⟨taken', rest'⟩, found, same⟩ := Option.map_eq_some_iff.1 h
    obtain ⟨rfl, rfl⟩ := Prod.mk.inj same
    -- a backslash at the end would escape what follows, but the quote is closed further on
    cases r with
    | nil => cases found
    | cons d r =>
      rw [List.cons_append, closeQuote, if_neg hc, ih found]
      · rfl
      · rintro d' r' rfl hr
        exact hslash d r rfl rfl

/-- A block that is closed is closed there whatever is behind. -/
theorem closeBrace_tail {depth : Nat} (h : closeBrace depth cs = some (taken, rest)) :
    closeBrace depth (cs ++ tail) = some (taken, rest ++ tail) := by
  fun_induction closeBrace depth cs generalizing taken rest with
  | case1 => cases h
  | case3 r =>
    obtain ⟨rfl, rfl⟩ := Prod.mk.inj (Option.some.inj h)
    rfl
  | case2 _ _ ih | case4 _ _ ih =>
    obtain ⟨⟨taken', rest'⟩, found, same⟩ := Option.map_eq_some_iff.1 h
    obtain ⟨rfl, rfl⟩ := Prod.mk.inj same
    simp only [List.cons_append, closeBrace, ih found, Option.map_some]
  | case5 depth c r hopening hzero hclosing ih =>
    obtain ⟨⟨taken', rest'⟩, found, same⟩ := Option.map_eq_some_iff.1 h
    obtain ⟨rfl, rfl⟩ := Prod.mk.inj same
    rw [List.cons_append, closeBrace, ih found]
    · rfl
    · exact hopening
    · exact hzero
    · exact hclosing

end Closing

section Lexemes

variable (ys : List Char)

/-- A literal goes on across the seam only if it was not closed in front of it. -/
private theorem continues_literal {quote : Char} (hquote : quote ≠ '\\') (cs : List Char) :
    Continues ('\n' :: ys) (literal quote cs) (literal quote (cs ++ '\n' :: ys)) := by
  unfold literal
  cases hclose : closeQuote quote cs with
  | none => exact Or.inl ⟨_, rfl⟩
  | some found =>
    rw [closeQuote_tail _ hquote hclose]
    exact Or.inr rfl

/-- A request does not go on across the seam. -/
private theorem continues_includePath (directive cs : List Char) :
    Continues ('\n' :: ys) (includePath directive cs)
      (includePath directive (cs ++ '\n' :: ys)) := by
  unfold includePath
  dsimp only
  rw [takeWhile_seam (by decide), dropWhile_seam (by decide)]
  cases hgap : cs.dropWhile fun c => c == ' ' || c == '\t' with
  | nil => exact Or.inl ⟨_, rfl⟩
  | cons quote inside =>
    simp only [List.cons_append]
    split
    · have hstop : (fun c => c != quote && c != '\n') '\n' = false := by simp
      rw [takeWhile_seam hstop, dropWhile_seam hstop]
      cases inside.dropWhile fun c => c != quote && c != '\n' with
      | nil => exact Or.inl ⟨_, rfl⟩
      | cons c rest => exact Or.inr rfl
    · exact Or.inl ⟨_, rfl⟩

/-- A directive does not go on across the seam. -/
private theorem continues_directive (cs : List Char) :
    Continues ('\n' :: ys) (directive cs) (directive (cs ++ '\n' :: ys)) := by
  unfold directive
  rw [takeWhile_seam (by decide), dropWhile_seam (by decide)]
  dsimp only
  split
  · exact Or.inr rfl
  · split
    · exact continues_includePath ys _ _
    · exact Or.inl ⟨_, rfl⟩

/-- A point at the end of a text is no part of a number, nor is one at the end of a line. -/
theorem number_seam (c : Char) (cs : List Char) :
    number c (cs ++ '\n' :: ys) = (number c cs).followedBy ('\n' :: ys) := by
  unfold number
  rw [takeWhile_seam (by decide), dropWhile_seam (by decide)]
  -- behind the digits: nothing, one character, or two, which is as far as a number looks ahead
  rcases cs.dropWhile Char.isDigit with - | ⟨point, - | ⟨d, rest⟩⟩
  · rfl
  · by_cases hpoint : point = '.'
    · subst hpoint
      rfl
    · simp [hpoint, followedBy]
  · by_cases hpoint : point = '.'
    · subst hpoint
      simp only [List.cons_append]
      split
      · rw [takeWhile_seam (by decide), dropWhile_seam (by decide)]
        rfl
      · rfl
    · simp [hpoint, followedBy]

/-- Foreign code goes on across the seam only if it was not closed in front of it. -/
private theorem continues_foreign (word cs : List Char) :
    Continues ('\n' :: ys) (foreign word cs) (foreign word (cs ++ '\n' :: ys)) := by
  unfold foreign
  cases hgap : cs.dropWhile isGap with
  | nil => exact Or.inl ⟨_, rfl⟩
  | cons c inside =>
    rw [takeWhile_append_of_dropWhile hgap, dropWhile_append_of_dropWhile hgap]
    simp only [List.cons_append]
    split
    · cases hclose : closeBrace 0 inside with
      | none => exact Or.inl ⟨_, rfl⟩
      | some found =>
        obtain ⟨body, behind⟩ := found
        rw [closeBrace_tail _ hclose]
        dsimp only
        cases hbehind : behind.dropWhile isGap with
        | nil => exact Or.inl ⟨_, rfl⟩
        | cons d rest =>
          rw [takeWhile_append_of_dropWhile hbehind, dropWhile_append_of_dropWhile hbehind]
          by_cases hd : d = ';'
          · subst hd
            exact Or.inr rfl
          · simp only [List.cons_append]
            left
            split
            · rename_i heq
              cases heq
              exact absurd rfl hd
            · exact ⟨_, rfl⟩
    · exact Or.inl ⟨_, rfl⟩

/-- A word ends at the seam, unless it begins foreign code. -/
private theorem continues_word (c : Char) (cs : List Char) :
    Continues ('\n' :: ys) (word c cs) (word c (cs ++ '\n' :: ys)) := by
  unfold word
  rw [takeWhile_seam (by decide), dropWhile_seam (by decide)]
  dsimp only
  split
  · exact continues_foreign ys _ _
  · exact Or.inr rfl

/-- No mark ends in a line end. -/
private theorem ofPair?_newline (c : Char) : Mark.ofPair? c '\n' = none := by
  simp [Mark.ofPair?]

/-- A mark does not go on across the seam. -/
theorem mark_seam (c : Char) (cs : List Char) :
    mark c (cs ++ '\n' :: ys) = (mark c cs).followedBy ('\n' :: ys) := by
  cases cs with
  | nil =>
    simp only [List.nil_append, mark, ofPair?_newline]
    rfl
  | cons d rest =>
    simp only [List.cons_append, mark]
    split <;> rfl

/-- A comment goes on across the seam only if it was not closed in front of it. -/
private theorem continues_slash (cs : List Char) :
    Continues ('\n' :: ys) (slash cs) (slash (cs ++ '\n' :: ys)) := by
  unfold slash
  split
  · rename_i rest
    right
    simp only [List.cons_append, lineComment, followedBy]
    rw [takeWhile_seam (by decide), dropWhile_seam (by decide)]
  · rename_i rest
    simp only [List.cons_append, blockComment]
    cases hclose : closeComment rest with
    | none => exact Or.inl ⟨_, rfl⟩
    | some found =>
      rw [closeComment_tail _ hclose]
      exact Or.inr rfl
  · rename_i hline hblock
    right
    rw [← mark_seam]
    cases cs with
    | nil => rfl
    | cons d rest =>
      rw [List.cons_append]
      split
      · rename_i heq
        cases heq
        exact absurd rfl (hline rest)
      · rename_i heq
        cases heq
        exact absurd rfl (hblock rest)
      · rfl

/-- The first lexeme of a text is the same when a line end and more text follow. -/
theorem continues_cut (c : Char) (cs : List Char) :
    Continues ('\n' :: ys) (cut c cs) (cut c (cs ++ '\n' :: ys)) := by
  unfold cut
  split
  · exact Or.inr rfl
  split
  · rename_i hquote
    refine continues_literal ys ?_ cs
    rintro rfl
    revert hquote
    decide
  split
  · exact continues_directive ys cs
  split
  · exact Or.inr (number_seam ys c cs)
  split
  · exact continues_word ys c cs
  split
  · exact continues_slash ys cs
  · exact Or.inr (mark_seam ys c cs)

end Lexemes

end Cut

/-! ### Segments -/

/-- The ending without its line. -/
def Segment.End.unlined : Segment.End → Segment.End
  | .finished _ => .finished 0
  | .includes path lexeme _ rest => .includes path lexeme 0 rest
  | .fault error => .fault { error with line := 0 }

/-- The segment without its lines. -/
def Segment.unlined (s : Segment) : Segment :=
  ⟨s.tokens.map Token.unlined, s.ending.unlined⟩

/-- What a text reads as does not depend on the line it begins on, lines apart. -/
private theorem segment_unlined (line line' : Nat) (cs : List Char) :
    (segment line cs).unlined = (segment line' cs).unlined := by
  fun_induction segment line cs generalizing line' with
  | case1 =>
    rw [segment]
    rfl
  | case2 line c cs _ hlexeme ih =>
    rw [segment]
    simp only [hlexeme]
    exact ih _
  | case3 line c cs text next kind hlexeme later ih =>
    have hlater := Segment.mk.inj (ih (line' + (cut c cs).taken.count '\n'))
    rw [segment]
    simp only [hlexeme]
    simp only [Segment.unlined, List.map_cons, Segment.mk.injEq, List.cons.injEq]
    exact ⟨⟨rfl, hlater.1⟩, hlater.2⟩
  | case4 line c cs _ path hlexeme =>
    rw [segment]
    simp only [hlexeme]
    rfl
  | case5 line c cs _ cause hlexeme =>
    rw [segment]
    simp only [hlexeme]
    rfl

/-- A segment read on behind its text, with a line end in between. -/
def Segment.joined (s : Segment) (ys : List Char) : Segment :=
  match s.ending with
  | .finished line => ⟨s.tokens ++ (segment (line + 1) ys).tokens, (segment (line + 1) ys).ending⟩
  | .includes path lexeme line rest => ⟨s.tokens, .includes path lexeme line (rest ++ '\n' :: ys)⟩
  | .fault error => ⟨s.tokens, .fault error⟩

/-- A line end is no token, and the next line begins behind it. -/
private theorem segment_newline (line : Nat) (ys : List Char) :
    segment line ('\n' :: ys) = segment (line + 1) ys := by
  have hcut : cut '\n' ys = ⟨['\n'], ys, .layout⟩ := rfl
  rw [segment, hcut]
  rfl

/-- Without a fault, a text reads the same when a line end and more text follow. -/
theorem segment_seam {line : Nat} {cs : List Char} (ys : List Char)
    (h : ∀ error, (segment line cs).ending ≠ .fault error) :
    segment line (cs ++ '\n' :: ys) = (segment line cs).joined ys := by
  fun_induction segment line cs with
  | case1 line =>
    rw [List.nil_append, segment_newline]
    rfl
  | case2 line c cs _ hlexeme ih =>
    have hcut := (Cut.continues_cut ys c cs).resolve_left (by simp [hlexeme])
    rw [List.cons_append, segment, hcut]
    simp only [Cut.followedBy, hlexeme]
    exact ih h
  | case3 line c cs text next kind hlexeme later ih =>
    have hcut := (Cut.continues_cut ys c cs).resolve_left (by simp [hlexeme])
    rw [List.cons_append, segment, hcut]
    simp only [Cut.followedBy, hlexeme]
    rw [ih h]
    unfold Segment.joined
    cases later.ending <;> rfl
  | case4 line c cs _ path hlexeme =>
    have hcut := (Cut.continues_cut ys c cs).resolve_left (by simp [hlexeme])
    rw [List.cons_append, segment, hcut]
    simp only [Cut.followedBy, hlexeme]
    rfl
  | case5 => exact absurd rfl (h _)

/-! ### Whole texts -/

/-- A reading that goes on behind some tokens ends well only if its later part does. -/
private theorem Scan.eq_of_after_eq {scan : Scan} {tokens : List Token} {stream : Stream}
    {fetched : List String} (h : scan.after tokens = ⟨.ok stream, fetched⟩) :
    ∃ later, scan = ⟨.ok later, fetched⟩ ∧
      stream = { later with tokens := tokens ++ later.tokens } := by
  obtain ⟨later, hlater, hstream⟩ := Scan.after_eq_ok (congrArg Scan.outcome h)
  have hfetched : scan.fetched = fetched := congrArg Scan.fetched h
  exact ⟨later, by rw [← hlater, ← hfetched], hstream⟩

namespace Stream

/-- The reading of a text, without regard to the budget: to its end, or to its first request to
include another text and on from there. The lists are the paths asked for before and behind. -/
inductive Reads (fetch : Option Fetcher) :
    List String → List Char → Stream → List String → Prop where
  | finished {fetched : List String} {cs : List Char} {line : Nat}
      (hending : (segment 1 cs).ending = .finished line) :
      Reads fetch fetched cs ⟨(segment 1 cs).tokens, line⟩ fetched
  | includes {fetched fetched' : List String} {cs rest : List Char} {path lexeme text : String}
      {line : Nat} {answer : Fetcher} {later : Stream}
      (hending : (segment 1 cs).ending = .includes path lexeme line rest)
      (hfetch : fetch = some answer) (hanswer : answer fetched path = .ok text)
      (hlater : Reads fetch (fetched ++ [path]) (text.toList ++ rest) later fetched') :
      Reads fetch fetched cs { later with tokens := (segment 1 cs).tokens ++ later.tokens }
        fetched'

variable {fetch : Option Fetcher} {budget : Nat} {fetched fetched₁ fetched₂ : List String}
  {cs ys : List Char} {s s₁ s₂ : Stream}

/-- Every include adds a path. -/
theorem Reads.length_le (h : Reads fetch fetched cs s fetched₁) :
    fetched.length ≤ fetched₁.length := by
  induction h with
  | finished hending => exact Nat.le_refl _
  | includes hending hfetch hanswer hlater ih =>
    rw [List.length_append, List.length_singleton] at ih
    omega

/-- A text that is included leaves room for itself: the budget is not used up before it. -/
theorem Reads.exists_budget {path : String} (h : Reads fetch (fetched ++ [path]) cs s fetched₁)
    (hbudget : fetched₁.length ≤ fetched.length + budget) :
    ∃ left, budget = left + 1 ∧ (fetched ++ [path]).length + left = fetched.length + budget := by
  have hlonger := h.length_le
  rw [List.length_append, List.length_singleton] at hlonger
  refine ⟨budget - 1, by omega, ?_⟩
  rw [List.length_append, List.length_singleton]
  omega

/-- What is read with a budget is read without one, and asks for no more than the budget. -/
theorem reads_of_ofChars (h : ofChars fetch budget fetched cs = ⟨.ok s, fetched₁⟩) :
    Reads fetch fetched cs s fetched₁ ∧ fetched₁.length ≤ fetched.length + budget := by
  fun_induction ofChars fetch budget fetched cs generalizing s with
  | case1 budget fetched cs =>
    rename_i hending
    cases h
    exact ⟨.finished hending, Nat.le_add_right _ _⟩
  | case2 | case3 | case4 | case5 => cases h
  | case6 fetched cs _ path lexeme line rest hending budget answer hfetch text hanswer =>
    rename_i ih
    obtain ⟨later, hlater, rfl⟩ := Scan.eq_of_after_eq h
    obtain ⟨hreads, hlength⟩ := ih hlater
    refine ⟨.includes hending hfetch hanswer hreads, ?_⟩
    rw [List.length_append, List.length_singleton] at hlength
    omega

/-- What is read without a budget is read with one that covers its questions. -/
theorem Reads.ofChars (h : Reads fetch fetched cs s fetched₁)
    (hbudget : fetched₁.length ≤ fetched.length + budget) :
    ofChars fetch budget fetched cs = ⟨.ok s, fetched₁⟩ := by
  induction h generalizing budget with
  | finished hending =>
    unfold Stream.ofChars
    dsimp only
    rw [hending]
  | @includes fetched _ _ _ path _ _ _ _ _ hending hfetch hanswer hlater ih =>
    obtain ⟨left, rfl, hleft⟩ := hlater.exists_budget hbudget
    have hrest := ih (hleft ▸ hbudget)
    rw [hfetch] at hrest ⊢
    rw [Stream.ofChars, hending]
    simp only [hanswer, hrest]
    rfl

/-- A text whose first segment is that of `ys` behind some tokens, lines apart, is read as `ys`
behind these tokens. -/
private theorem Reads.of_segment {tokens later : List Token} {ending : Segment.End}
    (hsegment : segment 1 cs = ⟨tokens ++ later, ending⟩)
    (hlater : Segment.unlined ⟨later, ending⟩ = (segment 1 ys).unlined)
    (h : Reads fetch fetched ys s fetched₁) :
    ∃ s', Reads fetch fetched cs s' fetched₁ ∧
      s'.tokens.map Token.unlined = (tokens ++ s.tokens).map Token.unlined := by
  obtain ⟨htokens, hends⟩ := Segment.mk.inj hlater
  have hending := congrArg Segment.ending hsegment
  cases h with
  | finished hfinished =>
    rw [hfinished] at hends
    cases ending with
    | finished line' =>
      refine ⟨_, .finished hending, ?_⟩
      simp only [hsegment, List.map_append, htokens]
    | includes | fault => cases hends
  | includes hincludes hfetch hanswer hrest =>
    rw [hincludes] at hends
    cases ending with
    | includes path' lexeme' line' rest' =>
      cases hends
      refine ⟨_, .includes hending hfetch hanswer hrest, ?_⟩
      simp only [hsegment, List.map_append, htokens, List.append_assoc]
    | finished | fault => cases hends

/-- Two texts joined at a line end are read one after the other, lines apart. -/
theorem Reads.seam (h₁ : Reads fetch fetched cs s₁ fetched₁)
    (h₂ : Reads fetch fetched₁ ys s₂ fetched₂) :
    ∃ s, Reads fetch fetched (cs ++ '\n' :: ys) s fetched₂ ∧
      s.tokens.map Token.unlined = (s₁.tokens ++ s₂.tokens).map Token.unlined := by
  induction h₁ with
  | @finished fetched cs line hending =>
    have hfree : ∀ error, (segment 1 cs).ending ≠ .fault error := by simp [hending]
    have hsegment := segment_seam ys hfree
    rw [Segment.joined, hending] at hsegment
    exact h₂.of_segment hsegment (segment_unlined _ _ ys)
  | @includes fetched _ cs rest path lexeme text line answer later hending hfetch hanswer _ ih =>
    -- the included text stands in front of the rest, and the second text behind both
    obtain ⟨last, hlast, htokens⟩ := ih h₂
    have hfree : ∀ error, (segment 1 cs).ending ≠ .fault error := by simp [hending]
    have hsegment := segment_seam ys hfree
    rw [Segment.joined, hending] at hsegment
    rw [List.append_assoc] at hlast
    refine ⟨_, .includes (congrArg Segment.ending hsegment) hfetch hanswer hlast, ?_⟩
    simp only [hsegment, List.map_append, List.append_assoc] at htokens ⊢
    rw [htokens]

/-- The tokens of two texts joined by a line end are those of the first followed by those of the
second, lines apart, if the texts they include are together no more than a single reading may
include. -/
theorem ofText_seam {text₁ text₂ : String}
    (h₁ : ofText fetch fetched text₁ = ⟨.ok s₁, fetched₁⟩)
    (h₂ : ofText fetch fetched₁ text₂ = ⟨.ok s₂, fetched₂⟩)
    (hbudget : fetched₂.length ≤ fetched.length + includeBudget) :
    ∃ s, ofText fetch fetched (text₁ ++ "\n" ++ text₂) = ⟨.ok s, fetched₂⟩ ∧
      s.tokens.map Token.unlined = (s₁.tokens ++ s₂.tokens).map Token.unlined := by
  obtain ⟨s, hs, htokens⟩ := (reads_of_ofChars h₁).1.seam (reads_of_ofChars h₂).1
  have htext : (text₁ ++ "\n" ++ text₂).toList = text₁.toList ++ '\n' :: text₂.toList := by
    simp [String.toList_append]
  exact ⟨s, by rw [ofText, htext, hs.ofChars hbudget], htokens⟩

end Stream

end Litany
