import Litany.Proofs.Lines.Erasure
import Litany.Proofs.Token.Placement
import Litany.Proofs.Token.Spelling

/-!
# Tokens written down again

What is spelled as a token is read as that token: `cut_of_spells` is the converse of `formed_cut`
for tokens. A blank ends every token that could go on, so the spelling of a token is also its
spelling in front of any blank, and tokens with blanks between them are read one by one.

A token is well formed if its own text is read as this token and nothing else. The main statement
is `Stream.respelled`: well-formed tokens may be written with any blanks between them and are read
back, and all tokens that come from a text are well formed.
-/

namespace Litany

namespace Cut

/-! ### The first character decides -/

section Classes

variable {p : Char → Bool} {c : Char}

/-- A class that none of the four blanks is in has no blank in it. -/
private theorem eq_false_of_isGap (hc : isGap c = true)
    (hp : p ' ' = false ∧ p '\t' = false ∧ p '\r' = false ∧ p '\n' = false) : p c = false := by
  obtain ⟨hspace, htab, hreturn, hnewline⟩ := hp
  simp only [isGap, Bool.or_eq_true, beq_iff_eq, or_assoc] at hc
  rcases hc with rfl | rfl | rfl | rfl <;> assumption

private theorem isGap_eq_false (hc : p c = true)
    (hp : p ' ' = false ∧ p '\t' = false ∧ p '\r' = false ∧ p '\n' = false) : isGap c = false := by
  rw [← Bool.not_eq_true]
  intro hgap
  rw [eq_false_of_isGap hgap hp] at hc
  cases hc

/-- A class that neither quote is in has no quote in it. -/
private theorem isQuote_eq_false (hc : p c = true) (hp : p '"' = false ∧ p '\'' = false) :
    isQuote c = false := by
  rw [← Bool.not_eq_true]
  intro hquote
  simp only [isQuote, Bool.or_eq_true, beq_iff_eq] at hquote
  rcases hquote with rfl | rfl
  · exact absurd hc (by rw [hp.1]; decide)
  · exact absurd hc (by rw [hp.2]; decide)

/-- A character of a class is not one that the class leaves out. -/
theorem ne_of_class {d : Char} (hc : p c = true) (hd : p d = false) : c ≠ d := by
  rintro rfl
  rw [hc] at hd
  cases hd

end Classes

/-- A quote begins a literal. -/
private theorem cut_of_isQuote {c : Char} (hc : isQuote c = true) (cs : List Char) :
    cut c cs = literal c cs := by
  have hgap : isGap c = false := isGap_eq_false hc (by decide)
  simp [cut, hgap, hc]

/-- A digit begins a number. -/
private theorem cut_of_isDigit {c : Char} (hc : c.isDigit = true) (cs : List Char) :
    cut c cs = number c cs := by
  have hgap : isGap c = false := isGap_eq_false hc (by decide)
  have hquote : isQuote c = false := isQuote_eq_false hc (by decide)
  have hhash : c ≠ '#' := ne_of_class hc (by decide)
  simp [cut, hgap, hquote, hhash, hc]

/-- No digit begins a word. -/
private theorem isDigit_of_isWordStart {c : Char} (hc : isWordStart c = true) :
    c.isDigit = false := by
  rw [← Bool.not_eq_true]
  intro hdigit
  have hhigh : c.val ≤ '9'.val := of_decide_eq_true (Bool.and_eq_true_iff.1 hdigit).2
  rcases Bool.or_eq_true_iff.1 hc with hletter | hbar
  · rcases Bool.or_eq_true_iff.1 hletter with hupper | hlower
    · have hlow : 'A'.val ≤ c.val := (of_decide_eq_true hupper).1
      exact absurd (UInt32.le_trans hlow hhigh) (by decide)
    · have hlow : 'a'.val ≤ c.val := of_decide_eq_true (Bool.and_eq_true_iff.1 hlower).1
      exact absurd (UInt32.le_trans hlow hhigh) (by decide)
  · obtain rfl := eq_of_beq hbar
    exact absurd hhigh (by decide)

/-- A letter or an underscore begins a word. -/
private theorem cut_of_isWordStart {c : Char} (hc : isWordStart c = true) (cs : List Char) :
    cut c cs = word c cs := by
  have hgap : isGap c = false := isGap_eq_false hc (by decide)
  have hquote : isQuote c = false := isQuote_eq_false hc (by decide)
  have hhash : c ≠ '#' := ne_of_class hc (by decide)
  simp [cut, hgap, hquote, hhash, isDigit_of_isWordStart hc, hc]

/-- A plain character begins a mark, unless it is a slash that begins a comment. -/
private theorem cut_of_plain {c : Char} {cs : List Char} (hc : Plain c)
    (hslash : c = '/' → Stops (fun d => d == '/' || d == '*') cs) : cut c cs = mark c cs := by
  by_cases h : c = '/'
  · subst h
    have hstop := hslash rfl
    cases cs with
    | nil => rfl
    | cons d rest =>
      have hline : d ≠ '/' := by
        rintro rfl
        simp at hstop
      have hblock : d ≠ '*' := by
        rintro rfl
        simp at hstop
      have hmark : slash (d :: rest) = mark '/' (d :: rest) := by simp [slash, hline, hblock]
      exact hmark
  · simp [cut, hc.gap, hc.quote, hc.hash, hc.digit, hc.word, h]

/-- A character that is a mark is plain. -/
private theorem plain_of_ofChar? {c : Char} {m : Mark} (h : Mark.ofChar? c = some m) : Plain c := by
  unfold Mark.ofChar? at h
  split at h
  all_goals cases h
  all_goals constructor <;> decide

/-- A character that makes a mark with the next one is plain, and no comment begins with the two. -/
private theorem plain_of_ofPair? {c d : Char} {m : Mark} (h : Mark.ofPair? c d = some m) :
    Plain c ∧ (d == '/' || d == '*') = false := by
  unfold Mark.ofPair? at h
  split at h
  all_goals cases h
  all_goals
    refine ⟨?_, by decide⟩
    constructor <;> decide

/-! ### Spellings are read -/

section Spelled

variable {c p quote : Char} {raw digits places letters gap body gap' behind : List Char}

/-- A literal is read up to its closing quote, escapes and all. -/
private theorem literal_of_inside (hquote : isQuote quote = true) (hraw : Inside quote raw) :
    literal quote (raw ++ quote :: behind) =
      ⟨quote :: raw ++ [quote], behind, .token (.quoted (String.ofList raw))⟩ := by
  have hclose : closeQuote quote (raw ++ quote :: behind) = some (raw, behind) :=
    (closeQuote_eq_some_iff (isQuote_ne_backslash hquote)).2 ⟨rfl, hraw⟩
  rw [literal, hclose]

/-- The directive in front of a constant is read as such where no letter follows. -/
private theorem directive_define (hstop : Stops Char.isAlpha behind) :
    directive ("define".toList ++ behind) = ⟨'#' :: "define".toList, behind, .token .define⟩ := by
  have hletters : ∀ d ∈ "define".toList, d.isAlpha = true := List.all_eq_true.1 (by decide)
  rw [directive, takeWhile_run hletters hstop, dropWhile_run hletters hstop, if_pos rfl]

/-- Digits that fit and that no fraction follows are read as an integer. -/
private theorem number_of_digits (hdigits : ∀ d ∈ digits, d.isDigit = true)
    (hvalue : Decimal.value (c :: digits) < Nat.pow 2 63) (hstop : Stops Char.isDigit behind)
    (hfraction : NoFraction behind) :
    number c (digits ++ behind) =
      ⟨c :: digits, behind, .token (.int (Int64.ofNat (Decimal.value (c :: digits))))⟩ := by
  rw [number, takeWhile_run hdigits hstop, dropWhile_run hdigits hstop]
  split
  · rename_i d rest
    rw [if_neg (by simp [hfraction d rest rfl]), integer, if_pos hvalue]
  · rw [integer, if_pos hvalue]

/-- Digits with a fraction behind them are read as a number with places. -/
private theorem number_of_fraction (hdigits : ∀ d ∈ digits, d.isDigit = true)
    (hplaces : ∀ d ∈ p :: places, d.isDigit = true) (hstop : Stops Char.isDigit behind) :
    number c (digits ++ '.' :: p :: places ++ behind) =
      ⟨c :: digits ++ '.' :: p :: places, behind,
        .token (.float (fraction (c :: digits) (p :: places)))⟩ := by
  have hpoint : Stops Char.isDigit ('.' :: p :: (places ++ behind)) := by simp
  obtain ⟨hp, hplaces⟩ := List.forall_mem_cons.1 hplaces
  have htext : digits ++ '.' :: p :: places ++ behind =
      digits ++ '.' :: p :: (places ++ behind) := by simp
  rw [htext, number, takeWhile_run hdigits hpoint, dropWhile_run hdigits hpoint]
  simp only [hp, if_true, takeWhile_run hplaces hstop, dropWhile_run hplaces hstop]

/-- Letters that no letter follows are read as a word, unless foreign code begins with them. -/
private theorem word_of_letters (hletters : ∀ d ∈ letters, isWordRest d = true)
    (hjs : c :: letters ≠ ['j', 's']) (hstop : Stops isWordRest behind) :
    word c (letters ++ behind) =
      ⟨c :: letters, behind, .token (Kind.ofWord (String.ofList (c :: letters)))⟩ := by
  rw [word, takeWhile_run hletters hstop, dropWhile_run hletters hstop, if_neg hjs]

/-- Foreign code is read up to the semicolon behind its matching brace. -/
private theorem foreign_of_matched (hgap : ∀ d ∈ gap, isGap d = true) (hbody : Matched 0 body)
    (hgap' : ∀ d ∈ gap', isGap d = true) :
    foreign ['j', 's'] (gap ++ '{' :: (body ++ '}' :: (gap' ++ ';' :: behind))) =
      ⟨['j', 's'] ++ gap ++ '{' :: body ++ '}' :: gap' ++ [';'], behind,
        .token (.foreign (String.ofList body))⟩ := by
  have hopen : Stops isGap ('{' :: (body ++ '}' :: (gap' ++ ';' :: behind))) := by
    rw [stops_cons]
    decide
  have hend : Stops isGap (';' :: behind) := by
    rw [stops_cons]
    decide
  have hclose : closeBrace 0 (body ++ '}' :: (gap' ++ ';' :: behind)) =
      some (body, gap' ++ ';' :: behind) := closeBrace_eq_some_iff.2 ⟨rfl, hbody⟩
  rw [foreign, takeWhile_run hgap hopen, dropWhile_run hgap hopen]
  simp only [if_true, hclose, takeWhile_run hgap' hend, dropWhile_run hgap' hend]

/-- The word that begins foreign code ends where a blank or a brace follows. -/
private theorem word_js {cs : List Char} (hstop : Stops isWordRest cs) :
    word 'j' ('s' :: cs) = foreign ['j', 's'] cs := by
  have hletter : ∀ d ∈ ['s'], isWordRest d = true := List.all_eq_true.1 (by decide)
  have htake : ('s' :: cs).takeWhile isWordRest = ['s'] := takeWhile_run hletter hstop
  have hdrop : ('s' :: cs).dropWhile isWordRest = cs := dropWhile_run hletter hstop
  rw [word, htake, hdrop, if_pos rfl]

/-- A mark of one character is read as such where no pair can be made of it. -/
private theorem mark_of_single {m : Mark} (hm : Mark.ofChar? c = some m)
    (hpair : Stops (fun d => (Mark.ofPair? c d).isSome) behind) :
    mark c behind = ⟨[c], behind, .token (.mark m)⟩ := by
  cases behind with
  | nil => simp [mark, single, hm]
  | cons d rest =>
    have hnone : Mark.ofPair? c d = none := by simpa using hpair
    simp [mark, hnone, single, hm]

end Spelled

/-- What is spelled as a token is read as that token. -/
theorem cut_of_spells {kind : Kind} {taken behind : List Char} (h : Spells kind taken behind) :
    ∃ c cs, taken = c :: cs ∧ cut c (cs ++ behind) = ⟨taken, behind, .token kind⟩ := by
  cases h with
  | @quoted quote raw _ hquote hraw =>
    refine ⟨quote, raw ++ [quote], rfl, ?_⟩
    rw [cut_of_isQuote hquote, List.append_assoc]
    exact literal_of_inside hquote hraw
  | define hstop => exact ⟨'#', "define".toList, rfl, directive_define hstop⟩
  | @int c digits _ hdigits hvalue hstop hfraction =>
    obtain ⟨hc, hdigits⟩ := List.forall_mem_cons.1 hdigits
    refine ⟨c, digits, rfl, ?_⟩
    rw [cut_of_isDigit hc]
    exact number_of_digits hdigits hvalue hstop hfraction
  | @float c p digits places _ hdigits hplaces hstop =>
    obtain ⟨hc, hdigits⟩ := List.forall_mem_cons.1 hdigits
    refine ⟨c, digits ++ '.' :: p :: places, rfl, ?_⟩
    rw [cut_of_isDigit hc]
    exact number_of_fraction hdigits hplaces hstop
  | @word c letters _ hc hletters hjs hstop =>
    refine ⟨c, letters, rfl, ?_⟩
    rw [cut_of_isWordStart hc]
    exact word_of_letters hletters hjs hstop
  | @foreign gap body gap' _ hgap hbody hgap' =>
    refine ⟨'j', 's' :: gap ++ '{' :: body ++ '}' :: gap' ++ [';'], rfl, ?_⟩
    have htext : 's' :: gap ++ '{' :: body ++ '}' :: gap' ++ [';'] ++ behind =
        's' :: (gap ++ '{' :: (body ++ '}' :: (gap' ++ ';' :: behind))) := by simp
    -- the word ends at a blank or at the brace, whichever comes first
    have hstop : Stops isWordRest (gap ++ '{' :: (body ++ '}' :: (gap' ++ ';' :: behind))) := by
      cases gap with
      | nil =>
        rw [List.nil_append, stops_cons]
        decide
      | cons d gap =>
        rw [List.cons_append, stops_cons]
        exact eq_false_of_isGap (hgap d List.mem_cons_self) (by decide)
    rw [cut_of_isWordStart (by decide), htext, word_js hstop]
    exact foreign_of_matched hgap hbody hgap'
  | @pair c d m _ hm =>
    obtain ⟨hc, hd⟩ := plain_of_ofPair? hm
    refine ⟨c, [d], rfl, ?_⟩
    rw [cut_of_plain hc fun _ => by rwa [List.singleton_append, stops_cons]]
    simp [mark, hm]
  | @single c m _ hm hpair hslash =>
    refine ⟨c, [], rfl, ?_⟩
    rw [List.nil_append, cut_of_plain (plain_of_ofChar? hm) hslash]
    exact mark_of_single hm hpair

/-! ### Blanks end tokens -/

/-- The text is empty, or begins with a blank. -/
def Parted (behind : List Char) : Prop :=
  ∀ d ∈ behind.head?, isGap d = true

private theorem parted_nil : Parted [] := by
  simp [Parted]

/-- Blanks, if there are any, part a token from what follows them. -/
private theorem parted_append {gap : List Char} (hne : gap ≠ []) (hgap : ∀ d ∈ gap, isGap d = true)
    (rest : List Char) : Parted (gap ++ rest) := by
  intro d hd
  cases gap with
  | nil => exact absurd rfl hne
  | cons e gap =>
    obtain rfl : e = d := by simpa using hd
    exact hgap e List.mem_cons_self

section Parted

variable {behind : List Char}

/-- A run that no blank belongs to stops where tokens are parted. -/
theorem Parted.stops {p : Char → Bool} (h : Parted behind)
    (hp : p ' ' = false ∧ p '\t' = false ∧ p '\r' = false ∧ p '\n' = false) : Stops p behind :=
  fun d hd => eq_false_of_isGap (h d hd) hp

/-- No fraction follows where tokens are parted. -/
private theorem Parted.noFraction (h : Parted behind) : NoFraction behind := by
  rintro d rest rfl
  exact absurd (h '.' rfl) (by decide)

/-- A token is spelled in front of a blank as it is spelled anywhere. -/
private theorem Spells.parted {kind : Kind} {taken elsewhere : List Char} (hbehind : Parted behind)
    (h : Spells kind taken elsewhere) : Spells kind taken behind := by
  cases h with
  | quoted hquote hraw => exact .quoted hquote hraw
  | define => exact .define (hbehind.stops (by decide))
  | int hdigits hvalue => exact .int hdigits hvalue (hbehind.stops (by decide)) hbehind.noFraction
  | float hdigits hplaces => exact .float hdigits hplaces (hbehind.stops (by decide))
  | word hc hletters hjs => exact .word hc hletters hjs (hbehind.stops (by decide))
  | foreign hgap hbody hgap' => exact .foreign hgap hbody hgap'
  | pair hm => exact .pair hm
  | single hm =>
    refine .single hm (hbehind.stops ?_) fun _ => hbehind.stops (by decide)
    simp [Mark.ofPair?]

end Parted

end Cut

open Cut (isGap Spells Parted)

/-! ### Segments -/

/-- Reading goes on behind blanks as if it began there. -/
theorem segment_gap {gap : List Char} (hgap : ∀ d ∈ gap, isGap d = true) (line : Nat)
    (cs : List Char) : segment line (gap ++ cs) = segment (line + gap.count '\n') cs := by
  induction gap generalizing line with
  | nil => rfl
  | cons d gap ih =>
    obtain ⟨hd, hgap⟩ := List.forall_mem_cons.1 hgap
    have hcut : cut d (gap ++ cs) = ⟨[d], gap ++ cs, .layout⟩ := by rw [cut, if_pos hd]
    rw [List.cons_append, segment, hcut]
    dsimp only
    rw [ih hgap, Nat.add_assoc, ← List.count_append, List.singleton_append]

/-- A spelling is read as its token, and reading goes on behind it. -/
theorem segment_spelled {kind : Kind} {taken behind : List Char} (h : Spells kind taken behind)
    (line : Nat) :
    segment line (taken ++ behind) =
      ⟨⟨kind, String.ofList taken, line⟩ :: (segment (line + taken.count '\n') behind).tokens,
        (segment (line + taken.count '\n') behind).ending⟩ := by
  obtain ⟨c, cs, rfl, hcut⟩ := Cut.cut_of_spells h
  rw [List.cons_append, segment, hcut]

/-- Tokens written one behind the other, each behind a gap of its own. -/
def Stream.written : List (String × Token) → String
  | [] => ""
  | (gap, t) :: rest => gap ++ t.lexeme ++ written rest

/-- The gaps are blanks, and only the first of them may be empty. -/
structure Stream.Gaps (items : List (String × Token)) : Prop where
  blank : ∀ item ∈ items, ∀ d ∈ item.1.toList, isGap d = true
  parted : ∀ item ∈ items.tail, item.1 ≠ ""

namespace Stream

variable {items : List (String × Token)}

/-- The gaps behind the first token are gaps. -/
theorem Gaps.tail {item : String × Token} (h : Gaps (item :: items)) : Gaps items where
  blank later hlater := h.blank later (List.mem_cons_of_mem item hlater)
  parted later hlater := h.parted later (List.mem_of_mem_tail hlater)

/-- What follows a token is empty or begins with a blank. -/
private theorem Gaps.parted_written {item : String × Token} (h : Gaps (item :: items)) :
    Parted (written items).toList := by
  cases items with
  | nil => exact Cut.parted_nil
  | cons next items =>
    have hne : next.1.toList ≠ [] := by
      intro hnil
      exact h.parted next (by simp) (String.toList_eq_nil_iff.1 hnil)
    rw [written, String.toList_append, String.toList_append, List.append_assoc]
    exact Cut.parted_append hne (h.blank next (by simp)) _

/-- Tokens that are spelled are read one by one. -/
theorem segment_written (hgaps : Gaps items)
    (hspelled : ∀ item ∈ items, Spells item.2.kind item.2.lexeme.toList []) (line : Nat) :
    ∃ last tokens, segment line (written items).toList = ⟨tokens, .finished last⟩ ∧
      tokens.map Token.unlined = items.map (Token.unlined ∘ Prod.snd) := by
  induction items generalizing line with
  | nil => exact ⟨line, [], segment.eq_1 line, rfl⟩
  | cons item items ih =>
    obtain ⟨gap, t⟩ := item
    obtain ⟨ht, hspelled⟩ := List.forall_mem_cons.1 hspelled
    have hblank := hgaps.blank (gap, t) List.mem_cons_self
    have hfirst := segment_spelled (ht.parted hgaps.parted_written)
    obtain ⟨last, tokens, hrest, htokens⟩ := ih hgaps.tail hspelled
      (line + gap.toList.count '\n' + t.lexeme.toList.count '\n')
    rw [written, String.toList_append, String.toList_append, List.append_assoc, segment_gap hblank,
      hfirst, hrest]
    refine ⟨last, _, rfl, ?_⟩
    rw [List.map_cons, List.map_cons, htokens, String.ofList_toList]
    rfl

end Stream

/-! ### Whole texts -/

/-- A token is well formed if its text, read by itself, is this token and nothing else. -/
def Token.WellFormed (t : Token) : Prop :=
  ∃ stream, (Stream.ofText none [] t.lexeme).outcome = .ok stream ∧
    stream.tokens.map Token.unlined = [t.unlined]

namespace Stream

/-- A text that is read without a host includes nothing. -/
private theorem finished_of_ofText {text : String} {stream : Stream}
    (h : (ofText none [] text).outcome = .ok stream) :
    (segment 1 text.toList).ending = .finished stream.endLine ∧
      stream.tokens = (segment 1 text.toList).tokens := by
  rw [ofText, ofChars] at h
  cases hending : (segment 1 text.toList).ending with
  | finished line =>
    rw [hending] at h
    cases h
    exact ⟨rfl, rfl⟩
  | includes path lexeme line rest =>
    rw [hending] at h
    cases h
  | fault e =>
    rw [hending] at h
    cases h

/-- A text whose first segment finishes is read whole, whatever the host. -/
theorem ofText_of_finished {text : String} {last : Nat} {tokens : List Token}
    (h : segment 1 text.toList = ⟨tokens, .finished last⟩) (fetch : Option Fetcher)
    (fetched : List String) : ofText fetch fetched text = ⟨.ok ⟨tokens, last⟩, fetched⟩ := by
  rw [ofText, ofChars.eq_def, h]

end Stream

/-- A token is well formed if and only if it is spelled as such. -/
theorem Token.wellFormed_iff {t : Token} :
    t.WellFormed ↔ Spells t.kind t.lexeme.toList [] := by
  constructor
  · rintro ⟨stream, hrun, hone⟩
    obtain ⟨hending, htokens⟩ := Stream.finished_of_ofText hrun
    obtain ⟨u, hu, hunlined⟩ := List.map_eq_singleton_iff.1 hone
    have hkind : u.kind = t.kind := (Token.mk.inj hunlined).1
    have hlexeme : u.lexeme = t.lexeme := (Token.mk.inj hunlined).2.1
    -- one token of the same text as the whole leaves no room for layout around it
    obtain ⟨front', text', hpasses⟩ := (placed_segment [] t.lexeme.toList).exists_passes
    have hwhole : Passes [] t.lexeme.toList stream.tokens front' text' := htokens ▸ hpasses
    rw [hu, ← hlexeme] at hwhole
    rw [← hkind, ← hlexeme]
    exact hwhole.spells_of_whole
  · intro h
    have hread := segment_spelled h 1
    rw [List.append_nil, segment.eq_1] at hread
    refine ⟨_, congrArg Scan.outcome (Stream.ofText_of_finished hread none []), ?_⟩
    rw [List.map_singleton, String.ofList_toList]
    rfl

namespace Stream

/-- Every token of a text and of the texts it includes is well formed. -/
theorem wellFormed_ofText {fetch : Option Fetcher} {fetched : List String} {text : String}
    {stream : Stream} (h : (ofText fetch fetched text).outcome = .ok stream) :
    ∀ t ∈ stream.tokens, t.WellFormed := by
  refine forall_mem_ofChars (fun cs t ht => ?_) h
  obtain ⟨front', text', hpasses⟩ := (placed_segment [] cs).exists_passes
  obtain ⟨behind, hspells⟩ := hpasses.spells_of_mem t ht
  exact Token.wellFormed_iff.2 (hspells.parted Cut.parted_nil)

/-- Well-formed tokens with blanks between them are read back. -/
theorem ofText_written {items : List (String × Token)} (hgaps : Gaps items)
    (hformed : ∀ item ∈ items, item.2.WellFormed) (fetch : Option Fetcher)
    (fetched : List String) :
    ∃ stream, ofText fetch fetched (written items) = ⟨.ok stream, fetched⟩ ∧
      stream.tokens.map Token.unlined = items.map (Token.unlined ∘ Prod.snd) := by
  have hspelled : ∀ item ∈ items, Spells item.2.kind item.2.lexeme.toList [] :=
    fun item hitem => Token.wellFormed_iff.1 (hformed item hitem)
  obtain ⟨last, tokens, hread, htokens⟩ := segment_written hgaps hspelled 1
  exact ⟨_, ofText_of_finished hread fetch fetched, htokens⟩

/-- Tokens with a space in front of each but the first. -/
def spaced : List Token → List (String × Token)
  | [] => []
  | t :: rest => ("", t) :: rest.map fun u => (" ", u)

/-- Spaces between tokens leave the tokens as they are. -/
private theorem map_snd_spaced (tokens : List Token) : (spaced tokens).map Prod.snd = tokens := by
  cases tokens with
  | nil => rfl
  | cons t rest => simp [spaced, Function.comp_def]

/-- Spaces part all tokens. -/
private theorem gaps_spaced (tokens : List Token) : Gaps (spaced tokens) := by
  cases tokens with
  | nil => exact ⟨by simp [spaced], by simp [spaced]⟩
  | cons t rest =>
    constructor
    · intro item hitem
      simp only [spaced, List.mem_cons, List.mem_map] at hitem
      rcases hitem with rfl | ⟨u, -, rfl⟩
      · simp
      · simp [isGap]
    · intro item hitem
      simp only [spaced, List.tail_cons, List.mem_map] at hitem
      obtain ⟨u, -, rfl⟩ := hitem
      simp

/-- Tokens with spaces between them are their texts, joined by spaces. -/
private theorem written_spaced (tokens : List Token) :
    written (spaced tokens) = " ".intercalate (tokens.map Token.lexeme) := by
  cases tokens with
  | nil => rfl
  | cons t rest =>
    -- the induction is on the tokens behind the first, each of which has a space in front of it
    simp only [spaced, written, String.empty_append]
    induction rest generalizing t with
    | nil => simp [written]
    | cons u rest ih =>
      simp only [List.map_cons, String.intercalate_cons_cons, written, String.append_assoc]
      rw [ih u, List.map_cons]

/-- Tokens are read back from their texts. Well-formed tokens may be written with any blanks
between them; all tokens that any reading gives are well formed; so a text and the texts of its
tokens with spaces between them have the same tokens, lines apart. -/
theorem respelled :
    (∀ items : List (String × Token), Gaps items → (∀ item ∈ items, item.2.WellFormed) →
      ∀ fetch fetched, ∃ stream, ofText fetch fetched (written items) = ⟨.ok stream, fetched⟩ ∧
        stream.tokens.map Token.unlined = items.map (Token.unlined ∘ Prod.snd)) ∧
    (∀ fetch fetched text stream, (ofText fetch fetched text).outcome = .ok stream →
      (∀ t ∈ stream.tokens, t.WellFormed) ∧
      ∀ fetch' fetched', ∃ again,
        ofText fetch' fetched' (" ".intercalate (stream.tokens.map Token.lexeme)) =
          ⟨.ok again, fetched'⟩ ∧ again.unlined = stream.unlined) := by
  refine ⟨fun items => ofText_written, fun fetch fetched text stream h => ?_⟩
  have hformed := wellFormed_ofText h
  refine ⟨hformed, fun fetch' fetched' => ?_⟩
  have hspaced : ∀ item ∈ spaced stream.tokens, item.2.WellFormed := by
    intro item hitem
    refine hformed item.2 ?_
    rw [← map_snd_spaced stream.tokens]
    exact List.mem_map_of_mem hitem
  obtain ⟨again, hagain, htokens⟩ := ofText_written (gaps_spaced stream.tokens) hspaced fetch'
    fetched'
  rw [written_spaced] at hagain
  rw [← List.map_map, map_snd_spaced] at htokens
  exact ⟨again, hagain, by rw [unlined, unlined, htokens]⟩

/-- Two marks that would be another one without a blank between them, and two tokens with blanks
of their own. -/
def partedItems : List (String × Token) :=
  [("", ⟨.mark .plus, "+", 1⟩), ("\n", ⟨.mark .plus, "+", 2⟩),
    ("\t\r", ⟨.quoted "a\\' b", "'a\\' b'", 2⟩),
    (" ", ⟨.foreign "\x7b \x7d", "js \x7b\x7b \x7d\x7d\n;", 2⟩)]

/-- Parted tokens are read back, and so are those of a text without a single blank. -/
theorem respelled_parted :
    (∃ stream, ofText none [] (written partedItems) = ⟨.ok stream, []⟩ ∧
      stream.tokens.map Token.unlined = partedItems.map (Token.unlined ∘ Prod.snd)) ∧
    ∃ stream again, (ofText none [] "a++/**/+1.b").outcome = .ok stream ∧
      " ".intercalate (stream.tokens.map Token.lexeme) = "a ++ + 1 . b" ∧
      ofText none [] "a ++ + 1 . b" = ⟨.ok again, []⟩ ∧ again.unlined = stream.unlined := by
  have hformed : ∀ item ∈ partedItems, item.2.WellFormed := by
    simp only [partedItems, List.forall_mem_cons, List.not_mem_nil, IsEmpty.forall_iff,
      implies_true, and_true]
    exact ⟨⟨⟨[⟨.mark .plus, "+", 1⟩], 1⟩, eq_ok_of_toOption (by decide +kernel), rfl⟩,
      ⟨⟨[⟨.mark .plus, "+", 1⟩], 1⟩, eq_ok_of_toOption (by decide +kernel), rfl⟩,
      ⟨⟨[⟨.quoted "a\\' b", "'a\\' b'", 1⟩], 1⟩, eq_ok_of_toOption (by decide +kernel), rfl⟩,
      ⟨⟨[⟨.foreign "\x7b \x7d", "js \x7b\x7b \x7d\x7d\n;", 1⟩], 2⟩,
        eq_ok_of_toOption (by decide +kernel), rfl⟩⟩
  have hblank : ∀ item ∈ partedItems, item.1.toList.all isGap = true := by decide +kernel
  have hgaps : Gaps partedItems :=
    ⟨fun item hitem => List.all_eq_true.1 (hblank item hitem), by decide +kernel⟩
  have hread : (ofText none [] "a++/**/+1.b").outcome =
      .ok ⟨[⟨.ident "a", "a", 1⟩, ⟨.mark .plusPlus, "++", 1⟩, ⟨.mark .plus, "+", 1⟩,
        ⟨.int 1, "1", 1⟩, ⟨.mark .dot, ".", 1⟩, ⟨.ident "b", "b", 1⟩], 1⟩ :=
    eq_ok_of_toOption (by decide +kernel)
  obtain ⟨again, hagain, hsame⟩ := (respelled.2 none [] _ _ hread).2 none []
  exact ⟨respelled.1 partedItems hgaps hformed none [], _, again, hread, by decide +kernel,
    hagain, hsame⟩

end Stream

end Litany
