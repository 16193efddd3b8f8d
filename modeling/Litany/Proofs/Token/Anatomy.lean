import Litany.Token.Lexeme
import Mathlib.Data.List.TakeWhile

/-!
# What lexemes look like

A description of the lexical structure that does not run it: what stands between tokens
(`Layout`), how each kind of token is written (`Spells`), how an include is asked for
(`Requests`), and how a text can fail to begin with any of these (`Breaks`). Each of them says
which characters are taken and what may follow them.

The main statement, `formed_cut`, is that the first lexeme of every text is of the described form.
The closing marks of comments, literals and blocks of foreign code are described on their own, and
the functions that look for them are shown to find what is described and nothing else.
-/

namespace Litany

namespace Cut

/-! ### Runs of a class of characters -/

/-- The text is empty, or begins with a character outside of the class. -/
def Stops (p : Char → Bool) (behind : List Char) : Prop :=
  ∀ d ∈ behind.head?, p d = false

section Classes

variable {p : Char → Bool}

/-- A run stops at the end of the text. -/
@[simp]
theorem stops_nil : Stops p [] := by
  simp [Stops]

/-- A run stops in front of a character that is not of its class. -/
@[simp]
theorem stops_cons {d : Char} {rest : List Char} : Stops p (d :: rest) ↔ p d = false := by
  simp [Stops]

/-- What is left of a text behind a run is where the run stops. -/
theorem stops_dropWhile (cs : List Char) : Stops p (cs.dropWhile p) := by
  intro d hd
  have hnot := List.head?_dropWhile_not p cs
  rw [Option.mem_def.1 hd] at hnot
  exact hnot

/-- What is taken of a text as a run is of its class. -/
theorem all_takeWhile (cs : List Char) : ∀ c ∈ cs.takeWhile p, p c = true :=
  fun _ hc => List.mem_takeWhile_imp hc

/-- A run of a class ends where the text behind it says so. -/
theorem takeWhile_run {run behind : List Char} (hrun : ∀ c ∈ run, p c = true)
    (hbehind : Stops p behind) : (run ++ behind).takeWhile p = run := by
  rw [List.takeWhile_append_of_pos hrun]
  cases behind with
  | nil => simp
  | cons d rest => simp [stops_cons.1 hbehind]

/-- A run is dropped up to where it stops. -/
theorem dropWhile_run {run behind : List Char} (hrun : ∀ c ∈ run, p c = true)
    (hbehind : Stops p behind) : (run ++ behind).dropWhile p = behind := by
  rw [List.dropWhile_append_of_pos hrun]
  cases behind with
  | nil => rfl
  | cons d rest => simp [stops_cons.1 hbehind]

end Classes

/-! ### Comments -/

/-- The characters between `/*` and the first `*/` behind it. -/
def Uncommented (body : List Char) : Prop :=
  ¬ ['*', '/'] <:+: body ++ ['*']

/-- One more character in front keeps a comment open unless it makes `*/` with the next. -/
theorem Uncommented.cons {c : Char} {body : List Char} (hbody : Uncommented body)
    (hpair : c = '*' → Stops (· == '/') body) : Uncommented (c :: body) := by
  rw [Uncommented, List.cons_append, List.infix_cons_iff, not_or, List.cons_prefix_cons]
  refine ⟨?_, hbody⟩
  rintro ⟨hstar, hslash⟩
  have hstop := hpair hstar.symm
  cases body with
  | nil => simp at hslash
  | cons d rest =>
    rw [List.cons_append, List.cons_prefix_cons] at hslash
    simp [← hslash.1] at hstop

/-- A comment that is closed is taken up to the first `*/`. -/
private theorem closeComment_eq_some {cs taken rest : List Char}
    (h : closeComment cs = some (taken, rest)) :
    ∃ body, Uncommented body ∧ taken = body ++ ['*', '/'] := by
  fun_induction closeComment cs generalizing taken rest with
  | case1 r =>
    obtain ⟨rfl, rfl⟩ := Prod.mk.inj (Option.some.inj h)
    exact ⟨[], by simp [Uncommented, List.infix_cons_iff], rfl⟩
  | case2 c r hpair ih =>
    obtain ⟨⟨taken', rest'⟩, found, same⟩ := Option.map_eq_some_iff.1 h
    obtain ⟨rfl, rfl⟩ := Prod.mk.inj same
    obtain ⟨body, hbody, rfl⟩ := ih found
    refine ⟨c :: body, hbody.cons fun hstar => ?_, rfl⟩
    -- a slash at this place would have closed the comment
    cases body with
    | nil => exact stops_nil
    | cons d body =>
      have htext := closeComment_append found
      have hslash : d ≠ '/' := by
        rintro rfl
        exact hpair _ hstar htext.symm
      simpa using hslash
  | case3 => cases h

/-- A comment that is not closed has no `*/`. -/
private theorem closeComment_eq_none {cs : List Char} (h : closeComment cs = none) :
    ¬ ['*', '/'] <:+: cs := by
  fun_induction closeComment cs with
  | case1 => cases h
  | case2 c r hpair ih =>
    rw [Option.map_eq_none_iff] at h
    rw [List.infix_cons_iff, not_or]
    refine ⟨?_, ih h⟩
    rintro ⟨tail, htail⟩
    obtain ⟨rfl, rfl⟩ := List.cons.inj htail
    exact hpair tail rfl rfl
  | case3 => simp

/-! ### Quoted literals -/

/-- The raw contents of a literal: a quote of its own kind stands in it only behind a backslash
that is not itself escaped. -/
inductive Inside (quote : Char) : List Char → Prop
  | nil : Inside quote []
  | escaped (c : Char) {raw : List Char} : Inside quote raw → Inside quote ('\\' :: c :: raw)
  | plain {c : Char} {raw : List Char} :
      c ≠ quote → c ≠ '\\' → Inside quote raw → Inside quote (c :: raw)

/-- No beginning of the text is the contents of a literal with its closing quote. -/
def Unclosed (quote : Char) (text : List Char) : Prop :=
  ∀ raw rest, Inside quote raw → text ≠ raw ++ quote :: rest

/-- A literal is closed by the first quote of its kind that is not escaped. -/
theorem closeQuote_eq_some_iff {quote : Char} (hquote : quote ≠ '\\')
    {cs raw rest : List Char} :
    closeQuote quote cs = some (raw, rest) ↔ cs = raw ++ quote :: rest ∧ Inside quote raw := by
  constructor
  · intro h
    refine ⟨(closeQuote_append h).symm, ?_⟩
    fun_induction closeQuote quote cs generalizing raw rest with
    | case1 => cases h
    | case2 c r ih =>
      obtain ⟨⟨raw', rest'⟩, found, same⟩ := Option.map_eq_some_iff.1 h
      obtain ⟨rfl, rfl⟩ := Prod.mk.inj same
      exact .escaped c (ih found)
    | case3 r =>
      obtain ⟨rfl, rfl⟩ := Prod.mk.inj (Option.some.inj h)
      exact .nil
    | case4 c r hslash hc ih =>
      obtain ⟨⟨raw', rest'⟩, found, same⟩ := Option.map_eq_some_iff.1 h
      obtain ⟨rfl, rfl⟩ := Prod.mk.inj same
      refine .plain hc ?_ (ih found)
      -- a lone backslash is the last character, and then no quote closes the literal
      intro hc'
      cases r with
      | nil => cases found
      | cons d r => exact hslash d r hc' rfl
  · rintro ⟨rfl, hraw⟩
    induction hraw with
    | nil =>
      rw [List.nil_append, closeQuote, if_pos rfl]
      intro d r hslash
      exact absurd hslash hquote
    | escaped c hraw ih =>
      simp only [List.cons_append, closeQuote, ih, Option.map_some]
    | plain hc hslash hraw ih =>
      rw [List.cons_append, closeQuote, if_neg hc, ih]
      · rfl
      · intro d r h
        exact absurd h hslash

/-- A literal that is not closed cannot be closed anywhere. -/
private theorem closeQuote_eq_none {quote : Char} (hquote : quote ≠ '\\') {cs : List Char}
    (h : closeQuote quote cs = none) : Unclosed quote cs := by
  intro raw rest hraw htext
  rw [(closeQuote_eq_some_iff hquote).2 ⟨htext, hraw⟩] at h
  cases h

/-! ### Blocks of foreign code -/

/-- The braces of a text match, `depth` more being closed than opened: no beginning closes more
than that, and the whole closes as many. -/
def Matched (depth : Nat) (body : List Char) : Prop :=
  (∀ front, front <+: body → front.count '}' ≤ depth + front.count '{') ∧
    body.count '}' = depth + body.count '{'

/-- No beginning of the text is a body with its closing brace. -/
def Unmatched (text : List Char) : Prop :=
  ∀ body rest, Matched 0 body → text ≠ body ++ '}' :: rest

section Braces

variable {depth : Nat} {body : List Char}

/-- At the end of a text all braces that were opened have been closed. -/
private theorem matched_nil_iff : Matched depth [] ↔ depth = 0 := by
  constructor
  · rintro ⟨-, htotal⟩
    simpa using htotal.symm
  · rintro rfl
    refine ⟨fun front hfront => ?_, by simp⟩
    rw [List.prefix_nil] at hfront
    simp [hfront]

/-- How the braces match behind a character, from how they match with it. -/
private theorem matched_cons_iff {c : Char} {after : Nat}
    (hcount : ∀ front : List Char, (c :: front).count '}' + after + front.count '{' =
      front.count '}' + depth + (c :: front).count '{') :
    Matched depth (c :: body) ↔ Matched after body := by
  constructor
  · rintro ⟨hfronts, htotal⟩
    constructor
    · intro front hfront
      have hstep := hfronts (c :: front) (List.cons_prefix_cons.2 ⟨rfl, hfront⟩)
      have := hcount front
      omega
    · have := hcount body
      omega
  · rintro ⟨hfronts, htotal⟩
    constructor
    · intro front hfront
      rcases List.prefix_cons_iff.1 hfront with rfl | ⟨rest, rfl, hrest⟩
      · simp
      · have hstep := hfronts rest hrest
        have := hcount rest
        omega
    · have := hcount body
      omega

/-- A brace that opens is one more to be closed. -/
private theorem matched_open_iff : Matched depth ('{' :: body) ↔ Matched (depth + 1) body :=
  matched_cons_iff fun front => by simp; omega

/-- A brace that closes is one less to be closed. -/
private theorem matched_close_iff : Matched (depth + 1) ('}' :: body) ↔ Matched depth body :=
  matched_cons_iff fun front => by simp; omega

/-- A character that is no brace changes nothing about braces. -/
private theorem matched_other_iff {c : Char} (hopen : c ≠ '{') (hclose : c ≠ '}') :
    Matched depth (c :: body) ↔ Matched depth body :=
  matched_cons_iff fun front => by simp [hopen, hclose]

/-- A brace that closes more than was opened matches nothing. -/
private theorem not_matched_close : ¬ Matched 0 ('}' :: body) := by
  rintro ⟨hfronts, -⟩
  have hfirst := hfronts ['}'] (by simp)
  simp at hfirst

end Braces

/-- A block is closed by the brace that matches the one it was opened with. -/
theorem closeBrace_eq_some_iff {depth : Nat} {cs body rest : List Char} :
    closeBrace depth cs = some (body, rest) ↔ cs = body ++ '}' :: rest ∧ Matched depth body := by
  constructor
  · intro h
    refine ⟨(closeBrace_append h).symm, ?_⟩
    fun_induction closeBrace depth cs generalizing body rest with
    | case1 => cases h
    | case2 depth r ih =>
      obtain ⟨⟨body', rest'⟩, found, same⟩ := Option.map_eq_some_iff.1 h
      obtain ⟨rfl, rfl⟩ := Prod.mk.inj same
      exact matched_open_iff.2 (ih found)
    | case3 r =>
      obtain ⟨rfl, rfl⟩ := Prod.mk.inj (Option.some.inj h)
      exact matched_nil_iff.2 rfl
    | case4 depth r ih =>
      obtain ⟨⟨body', rest'⟩, found, same⟩ := Option.map_eq_some_iff.1 h
      obtain ⟨rfl, rfl⟩ := Prod.mk.inj same
      exact matched_close_iff.2 (ih found)
    | case5 depth c r hopen hzero hclose ih =>
      obtain ⟨⟨body', rest'⟩, found, same⟩ := Option.map_eq_some_iff.1 h
      obtain ⟨rfl, rfl⟩ := Prod.mk.inj same
      refine (matched_other_iff hopen ?_).2 (ih found)
      intro hc
      cases depth with
      | zero => exact hzero rfl hc
      | succ depth => exact hclose depth rfl hc
  · rintro ⟨rfl, hbody⟩
    induction body generalizing depth with
    | nil =>
      obtain rfl := matched_nil_iff.1 hbody
      rfl
    | cons c body ih =>
      by_cases hopen : c = '{'
      · subst hopen
        simp only [List.cons_append, closeBrace, ih (matched_open_iff.1 hbody), Option.map_some]
      by_cases hclose : c = '}'
      · subst hclose
        cases depth with
        | zero => exact absurd hbody not_matched_close
        | succ depth =>
          simp only [List.cons_append, closeBrace, ih (matched_close_iff.1 hbody),
            Option.map_some]
      · rw [List.cons_append, closeBrace, ih ((matched_other_iff hopen hclose).1 hbody)]
        · rfl
        · exact hopen
        · exact fun _ h => hclose h
        · exact fun _ _ h => hclose h

/-- A block that is not closed cannot be closed anywhere. -/
private theorem closeBrace_eq_none {cs : List Char} (h : closeBrace 0 cs = none) :
    Unmatched cs := by
  intro body rest hbody htext
  rw [closeBrace_eq_some_iff.2 ⟨htext, hbody⟩] at h
  cases h

/-! ### The forms of a lexeme -/

/-- What stands between tokens: a blank, a comment up to the end of its line, or a comment up to
its first `*/`. -/
inductive Layout : List Char → List Char → Prop
  | blank {c : Char} {behind : List Char} : isGap c = true → Layout [c] behind
  | line {body behind : List Char} :
      (∀ c ∈ body, c ≠ '\n') → Stops (· != '\n') behind → Layout ('/' :: '/' :: body) behind
  | block {body behind : List Char} :
      Uncommented body → Layout ('/' :: '*' :: body ++ ['*', '/']) behind

/-- A character that begins a mark or nothing: no blank, literal, directive, number or word. -/
structure Plain (c : Char) : Prop where
  gap : isGap c = false
  quote : isQuote c = false
  hash : c ≠ '#'
  digit : c.isDigit = false
  word : isWordStart c = false

/-- The text does not go on as a fraction of the digits in front of it. -/
def NoFraction (behind : List Char) : Prop :=
  ∀ d rest, behind = '.' :: d :: rest → d.isDigit = false

/-- How the tokens are written. The third argument is the text behind the token: names, numbers,
directives and marks take as many characters as they can. -/
inductive Spells : Kind → List Char → List Char → Prop
  | quoted {quote : Char} {raw behind : List Char} :
      isQuote quote = true → Inside quote raw →
      Spells (.quoted (String.ofList raw)) (quote :: raw ++ [quote]) behind
  | define {behind : List Char} :
      Stops Char.isAlpha behind → Spells .define ('#' :: "define".toList) behind
  | int {c : Char} {digits behind : List Char} :
      (∀ d ∈ c :: digits, d.isDigit = true) → Decimal.value (c :: digits) < Nat.pow 2 63 →
      Stops Char.isDigit behind → NoFraction behind →
      Spells (.int (Int64.ofNat (Decimal.value (c :: digits)))) (c :: digits) behind
  | float {c p : Char} {digits places behind : List Char} :
      (∀ d ∈ c :: digits, d.isDigit = true) → (∀ d ∈ p :: places, d.isDigit = true) →
      Stops Char.isDigit behind →
      Spells (.float (fraction (c :: digits) (p :: places)))
        (c :: digits ++ '.' :: p :: places) behind
  | word {c : Char} {letters behind : List Char} :
      isWordStart c = true → (∀ d ∈ letters, isWordRest d = true) → c :: letters ≠ ['j', 's'] →
      Stops isWordRest behind →
      Spells (Kind.ofWord (String.ofList (c :: letters))) (c :: letters) behind
  | foreign {gap body gap' behind : List Char} :
      (∀ d ∈ gap, isGap d = true) → Matched 0 body → (∀ d ∈ gap', isGap d = true) →
      Spells (.foreign (String.ofList body))
        (['j', 's'] ++ gap ++ '{' :: body ++ '}' :: gap' ++ [';']) behind
  | pair {c d : Char} {m : Mark} {behind : List Char} :
      Mark.ofPair? c d = some m → Spells (.mark m) [c, d] behind
  | single {c : Char} {m : Mark} {behind : List Char} :
      Mark.ofChar? c = some m → Stops (fun d => (Mark.ofPair? c d).isSome) behind →
      (c = '/' → Stops (fun d => d == '/' || d == '*') behind) →
      Spells (.mark m) [c] behind

/-- How an include is asked for. The path stands in quotes on one line. -/
inductive Requests : String → List Char → Prop
  | quoted {gap path : List Char} {quote : Char} :
      (∀ d ∈ gap, (d == ' ' || d == '\t') = true) → isQuote quote = true →
      (∀ d ∈ path, (d != quote && d != '\n') = true) →
      Requests (String.ofList path)
        ('#' :: "include".toList ++ gap ++ [quote] ++ path ++ [quote])

/-- How a text can fail to begin with a lexeme: the characters read when this shows, and the text
behind them. -/
inductive Breaks : LexicalCause → List Char → List Char → Prop
  | comment {body : List Char} :
      ¬ ['*', '/'] <:+: body → Breaks .unterminatedComment ('/' :: '*' :: body) []
  | literal {quote : Char} {body : List Char} :
      isQuote quote = true → Unclosed quote body → Breaks .unterminatedString (quote :: body) []
  /-- The digits make a number beyond 64 bits with a sign. -/
  | number {c : Char} {digits behind : List Char} :
      (∀ d ∈ c :: digits, d.isDigit = true) → Nat.pow 2 63 ≤ Decimal.value (c :: digits) →
      Stops Char.isDigit behind → NoFraction behind → Breaks .invalidNumber (c :: digits) behind
  /-- No brace follows the word that begins foreign code, for the text ends. -/
  | unopened {gap : List Char} :
      (∀ d ∈ gap, isGap d = true) → Breaks .unterminatedForeign (['j', 's'] ++ gap) []
  /-- Something else than a brace follows the word that begins foreign code. -/
  | misopened {gap behind : List Char} {c : Char} :
      (∀ d ∈ gap, isGap d = true) → isGap c = false → c ≠ '{' → (gap = [] → isWordRest c = false) →
      Breaks (.unexpectedCharacter c) (['j', 's'] ++ gap ++ [c]) behind
  | unmatched {gap inside : List Char} :
      (∀ d ∈ gap, isGap d = true) → Unmatched inside →
      Breaks .unterminatedForeign (['j', 's'] ++ gap ++ '{' :: inside) []
  /-- No semicolon follows the closing brace of foreign code. -/
  | unfinished {gap body gap' behind : List Char} :
      (∀ d ∈ gap, isGap d = true) → Matched 0 body → (∀ d ∈ gap', isGap d = true) →
      Stops (fun d => isGap d || d == ';') behind →
      Breaks .unterminatedForeign (['j', 's'] ++ gap ++ '{' :: body ++ '}' :: gap') behind
  | directive {name behind : List Char} :
      (∀ d ∈ name, d.isAlpha = true) → name ≠ "define".toList → name ≠ "include".toList →
      Stops Char.isAlpha behind → Breaks (.unexpectedCharacter '#') ('#' :: name) behind
  /-- The text ends in front of the path of an include. -/
  | pathless {gap : List Char} :
      (∀ d ∈ gap, (d == ' ' || d == '\t') = true) →
      Breaks .malformedInclude ('#' :: "include".toList ++ gap) []
  /-- The path of an include does not begin with a quote. -/
  | unquoted {gap behind : List Char} {c : Char} :
      (∀ d ∈ gap, (d == ' ' || d == '\t') = true) → (c == ' ' || c == '\t') = false →
      isQuote c = false → (gap = [] → c.isAlpha = false) →
      Breaks .malformedInclude ('#' :: "include".toList ++ gap ++ [c]) behind
  /-- The text ends inside the path of an include. -/
  | openPath {gap path : List Char} {quote : Char} :
      (∀ d ∈ gap, (d == ' ' || d == '\t') = true) → isQuote quote = true →
      (∀ d ∈ path, (d != quote && d != '\n') = true) →
      Breaks .malformedInclude ('#' :: "include".toList ++ gap ++ [quote] ++ path) []
  /-- The line ends inside the path of an include. -/
  | brokenPath {gap path behind : List Char} {quote : Char} :
      (∀ d ∈ gap, (d == ' ' || d == '\t') = true) → isQuote quote = true →
      (∀ d ∈ path, (d != quote && d != '\n') = true) →
      Breaks .malformedInclude ('#' :: "include".toList ++ gap ++ [quote] ++ path ++ ['\n']) behind
  /-- No lexeme begins with the character. -/
  | character {c : Char} {behind : List Char} :
      Plain c → Mark.ofChar? c = none → Stops (fun d => (Mark.ofPair? c d).isSome) behind →
      Breaks (.unexpectedCharacter c) [c] behind

/-- A cut is of the form that its lexeme calls for. -/
def Formed (k : Cut) : Prop :=
  match k.lexeme with
  | .layout => Layout k.taken k.rest
  | .token kind => Spells kind k.taken k.rest
  | .includes path => Requests path k.taken
  | .fault cause => Breaks cause k.taken k.rest

/-- No quote escapes anything. -/
theorem isQuote_ne_backslash {quote : Char} (h : isQuote quote = true) : quote ≠ '\\' := by
  rintro rfl
  exact absurd h (by decide)

/-- What begins with a quote is a literal, or was never closed. -/
private theorem formed_literal {quote : Char} (hquote : isQuote quote = true) (cs : List Char) :
    (literal quote cs).Formed := by
  have hslash := isQuote_ne_backslash hquote
  rw [literal]
  split
  · rename_i raw rest h
    exact .quoted hquote ((closeQuote_eq_some_iff hslash).1 h).2
  · rename_i h
    exact .literal hquote (closeQuote_eq_none hslash h)

/-- Digits that no fraction follows are a number if they fit. -/
private theorem formed_integer {c : Char} {digits behind : List Char}
    (hdigits : ∀ d ∈ c :: digits, d.isDigit = true) (hstop : Stops Char.isDigit behind)
    (hfraction : NoFraction behind) :
    Formed ⟨c :: digits, behind, integer (c :: digits)⟩ := by
  rw [integer]
  split
  · rename_i hfits
    exact .int hdigits hfits hstop hfraction
  · rename_i hlarge
    exact .number hdigits (Nat.le_of_not_lt hlarge) hstop hfraction

/-- What begins with a digit is a number, or is too large to be one. -/
private theorem formed_number {c : Char} (hc : c.isDigit = true) (cs : List Char) :
    (number c cs).Formed := by
  have hdigits : ∀ d ∈ c :: cs.takeWhile Char.isDigit, d.isDigit = true :=
    List.forall_mem_cons.2 ⟨hc, all_takeWhile cs⟩
  have hstop := stops_dropWhile (p := Char.isDigit) cs
  rw [number]
  split
  · rename_i d rest hrest
    rw [hrest] at hstop
    split
    · rename_i hd
      exact .float hdigits (List.forall_mem_cons.2 ⟨hd, all_takeWhile rest⟩)
        (stops_dropWhile rest)
    · rename_i hd
      refine formed_integer hdigits hstop ?_
      rintro d' rest' heq
      cases heq
      simpa using hd
  · rename_i hrest
    refine formed_integer hdigits hstop ?_
    intro d rest heq
    exact absurd heq (hrest d rest)

/-- What begins with the word of foreign code is a block with its semicolon, or breaks off at what
is missing. -/
private theorem formed_foreign {cs : List Char} (hword : Stops isWordRest cs) :
    (foreign ['j', 's'] cs).Formed := by
  have hgap := all_takeWhile (p := isGap) cs
  have hstop := stops_dropWhile (p := isGap) cs
  rw [foreign]
  split
  · exact .unopened hgap
  · rename_i c inside hrest
    rw [hrest, stops_cons] at hstop
    split
    · rename_i hc
      subst hc
      split
      · rename_i hclose
        exact .unmatched hgap (closeBrace_eq_none hclose)
      · rename_i body behind hclose
        have hbody := (closeBrace_eq_some_iff.1 hclose).2
        have hgap' := all_takeWhile (p := isGap) behind
        have hstop' := stops_dropWhile (p := isGap) behind
        dsimp only
        split
        · exact .foreign hgap hbody hgap'
        · rename_i hsemicolon
          refine .unfinished hgap hbody hgap' ?_
          intro d hd
          have hnot : d ≠ ';' := by
            rintro rfl
            obtain ⟨rest, heq⟩ := List.head?_eq_some_iff.1 hd
            exact hsemicolon rest heq
          simp [hstop' d hd, hnot]
    · rename_i hc
      refine .misopened hgap hstop hc ?_
      intro hnone
      have hwhole := List.takeWhile_append_dropWhile (p := isGap) (l := cs)
      rw [hnone, hrest, List.nil_append] at hwhole
      rw [← hwhole, stops_cons] at hword
      exact hword

/-- What begins like a word is a name or a reserved word, or foreign code. -/
private theorem formed_word {c : Char} (hc : isWordStart c = true) (cs : List Char) :
    (word c cs).Formed := by
  have hstop := stops_dropWhile (p := isWordRest) cs
  rw [word]
  split
  · rename_i hjs
    rw [hjs]
    exact formed_foreign hstop
  · rename_i hjs
    exact .word hc (all_takeWhile cs) hjs hstop

/-- What stands behind the directive is a path between quotes, or is none. -/
private theorem formed_includePath {cs : List Char} (hname : Stops Char.isAlpha cs) :
    (includePath ('#' :: "include".toList) cs).Formed := by
  have hgap := all_takeWhile (p := fun c => c == ' ' || c == '\t') cs
  have hstop := stops_dropWhile (p := fun c => c == ' ' || c == '\t') cs
  rw [includePath]
  split
  · exact .pathless hgap
  · rename_i quote inside hrest
    rw [hrest, stops_cons] at hstop
    split
    · rename_i hquote
      have hpath := all_takeWhile (p := fun c => c != quote && c != '\n') inside
      have hend := stops_dropWhile (p := fun c => c != quote && c != '\n') inside
      dsimp only
      split
      · exact .openPath hgap hquote hpath
      · rename_i c rest hclose
        rw [hclose, stops_cons] at hend
        by_cases hc : c = quote
        · subst hc
          rw [if_pos rfl]
          exact .quoted hgap hquote hpath
        · -- the path stops at its quote or at the end of the line
          have hnewline : c = '\n' := by simpa [hc] using hend
          subst hnewline
          rw [if_neg hc]
          exact .brokenPath hgap hquote hpath
    · rename_i hquote
      refine .unquoted hgap hstop (by simpa using hquote) ?_
      intro hnone
      have hwhole := List.takeWhile_append_dropWhile (p := fun c => c == ' ' || c == '\t') (l := cs)
      rw [hnone, hrest, List.nil_append] at hwhole
      rw [← hwhole, stops_cons] at hname
      exact hname

/-- What begins with `#` is one of the two directives, or is unknown. -/
private theorem formed_directive (cs : List Char) : (directive cs).Formed := by
  have hstop := stops_dropWhile (p := Char.isAlpha) cs
  rw [directive]
  split
  · rename_i hname
    rw [hname]
    exact .define hstop
  · rename_i hdefine
    split
    · rename_i hname
      rw [hname]
      exact formed_includePath hstop
    · rename_i hinclude
      exact .directive (all_takeWhile cs) hdefine hinclude hstop

/-- A character that makes no pair with the next is a mark by itself, or begins nothing. -/
private theorem formed_single {c : Char} {behind : List Char} (hc : Plain c)
    (hpair : Stops (fun d => (Mark.ofPair? c d).isSome) behind)
    (hslash : c = '/' → Stops (fun d => d == '/' || d == '*') behind) :
    (single c behind).Formed := by
  rw [single]
  split
  · rename_i m hm
    exact .single hm hpair hslash
  · rename_i hm
    exact .character hc hm hpair

/-- A plain character makes a mark with the next one or by itself, or begins nothing. -/
private theorem formed_mark {c : Char} {cs : List Char} (hc : Plain c)
    (hslash : c = '/' → Stops (fun d => d == '/' || d == '*') cs) : (mark c cs).Formed := by
  unfold mark
  split
  · exact formed_single hc stops_nil hslash
  · rename_i d rest
    split
    · rename_i m hm
      exact .pair hm
    · rename_i hm
      exact formed_single hc (by simp [hm]) hslash

/-- A slash begins a comment or a mark. -/
private theorem formed_slash (cs : List Char) : (slash cs).Formed := by
  have hc : Plain '/' := by constructor <;> decide
  unfold slash
  split
  · rename_i rest
    refine .line ?_ (stops_dropWhile rest)
    intro d hd
    simpa using all_takeWhile rest d hd
  · rename_i rest
    rw [blockComment]
    split
    · rename_i taken behind hclose
      obtain ⟨body, hbody, rfl⟩ := closeComment_eq_some hclose
      exact .block hbody
    · rename_i hclose
      exact .comment (closeComment_eq_none hclose)
  · rename_i hline hblock
    refine formed_mark hc fun _ => ?_
    cases cs with
    | nil => exact stops_nil
    | cons d rest =>
      have hline' : d ≠ '/' := fun h => hline rest (by rw [h])
      have hblock' : d ≠ '*' := fun h => hblock rest (by rw [h])
      simp [hline', hblock']

end Cut

/-- The first lexeme of every text is of one of the forms. -/
theorem formed_cut (c : Char) (cs : List Char) : (cut c cs).Formed := by
  rw [cut]
  split
  · rename_i hgap
    exact Cut.Layout.blank hgap
  split
  · rename_i hquote
    exact Cut.formed_literal hquote cs
  split
  · exact Cut.formed_directive cs
  split
  · rename_i hdigit
    exact Cut.formed_number hdigit cs
  split
  · rename_i hword
    exact Cut.formed_word hword cs
  split
  · exact Cut.formed_slash cs
  · rename_i hgap hquote hhash hdigit hword hslash
    refine Cut.formed_mark ?_ fun h => absurd h hslash
    constructor <;> simp_all

end Litany
