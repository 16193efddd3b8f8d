import Litany.Proofs.Token.Paste
import Litany.Proofs.Token.Respelling
import Mathlib.Data.Prod.Lex
import Mathlib.Order.WellFounded

/-!
# Reading comes to an end

A text is read lexeme by lexeme. A request puts the included text in front of what is left, so that
what is left may grow, and the cursor goes back to the first line. `Reading.step` is one such step,
and the texts that may still be included together with the characters left are its measure: every
step makes one of them smaller and none before it larger.

`Splices` says what the text has become behind some requests, without running anything. The main
statement is `Stream.ofText_ends`: reading ends as `Stream.ofText` says, asks for at most 64 texts,
and answers that there are too many exactly when the text that 64 requests lead to leads to one
more.
-/

namespace Litany

/-! ### What is described is cut off -/

namespace Cut

/-- The first `*/` behind the beginning of a comment closes it. -/
private theorem closeComment_of_uncommented {body : List Char} (hbody : Uncommented body)
    (behind : List Char) :
    closeComment (body ++ '*' :: '/' :: behind) = some (body ++ ['*', '/'], behind) := by
  induction body with
  | nil => rfl
  | cons c body ih =>
    rw [Uncommented, List.cons_append, List.infix_cons_iff, not_or] at hbody
    obtain ⟨hfirst, hrest⟩ := hbody
    rw [List.cons_append, closeComment, ih hrest]
    · rfl
    · -- a star and a slash would have closed the comment here
      rintro rest rfl hslash
      cases body with
      | nil => cases hslash
      | cons d body =>
        cases hslash
        exact hfirst (by simp)

private theorem cut_slash (cs : List Char) : cut '/' cs = slash cs := rfl

/-- What is described as layout is read as layout. -/
private theorem cut_of_layout {piece behind : List Char} (h : Layout piece behind) :
    ∃ c cs, piece = c :: cs ∧ cut c (cs ++ behind) = ⟨piece, behind, .layout⟩ := by
  cases h with
  | @blank c _ hgap => exact ⟨c, [], rfl, by rw [List.nil_append, cut, if_pos hgap]⟩
  | @line body _ hbody hstop =>
    have hrun : ∀ c ∈ body, (c != '\n') = true := by
      intro c hc
      simpa using hbody c hc
    refine ⟨'/', '/' :: body, rfl, ?_⟩
    rw [cut_slash, List.cons_append, slash, lineComment, takeWhile_run hrun hstop,
      dropWhile_run hrun hstop]
  | @block body _ hbody =>
    refine ⟨'/', '*' :: body ++ ['*', '/'], rfl, ?_⟩
    have hclose := closeComment_of_uncommented hbody behind
    have htext : '*' :: body ++ ['*', '/'] ++ behind = '*' :: (body ++ '*' :: '/' :: behind) := by
      simp
    rw [cut_slash, htext, slash, blockComment, hclose]
    rfl

/-- What is described as a request is read as a request. -/
private theorem cut_of_requests {path : String} {taken : List Char} (h : Requests path taken)
    (behind : List Char) :
    ∃ cs, taken = '#' :: cs ∧ cut '#' (cs ++ behind) = ⟨taken, behind, .includes path⟩ := by
  obtain @⟨gap, path, quote, hgap, hquote, hpath⟩ := h
  refine ⟨"include".toList ++ gap ++ [quote] ++ path ++ [quote], rfl, ?_⟩
  have htext : "include".toList ++ gap ++ [quote] ++ path ++ [quote] ++ behind =
      "include".toList ++ (gap ++ quote :: (path ++ quote :: behind)) := by simp
  have hletters : ∀ d ∈ "include".toList, d.isAlpha = true := List.all_eq_true.1 (by decide)
  have hnoletter : quote.isAlpha = false := by
    simp only [isQuote, Bool.or_eq_true, beq_iff_eq] at hquote
    rcases hquote with rfl | rfl <;> decide
  have hnospace : (quote == ' ' || quote == '\t') = false := by
    simp only [isQuote, Bool.or_eq_true, beq_iff_eq] at hquote
    rcases hquote with rfl | rfl <;> decide
  -- the name of the directive ends at a space or at the quote, whichever comes first
  have hname : Stops Char.isAlpha (gap ++ quote :: (path ++ quote :: behind)) := by
    cases gap with
    | nil => rwa [List.nil_append, stops_cons]
    | cons d gap =>
      rw [List.cons_append, stops_cons]
      have hd := hgap d List.mem_cons_self
      simp only [Bool.or_eq_true, beq_iff_eq] at hd
      rcases hd with rfl | rfl <;> decide
  have hopen : Stops (fun d => d == ' ' || d == '\t') (quote :: (path ++ quote :: behind)) := by
    rwa [stops_cons]
  have hend : Stops (fun d => d != quote && d != '\n') (quote :: behind) := by
    rw [stops_cons]
    simp
  have hdirective : cut '#' ("include".toList ++ (gap ++ quote :: (path ++ quote :: behind))) =
      directive ("include".toList ++ (gap ++ quote :: (path ++ quote :: behind))) := rfl
  rw [htext, hdirective, directive, takeWhile_run hletters hname, dropWhile_run hletters hname,
    if_neg (by decide), if_pos rfl, includePath]
  simp only [takeWhile_run hgap hopen, dropWhile_run hgap hopen, hquote, if_true,
    takeWhile_run hpath hend, dropWhile_run hpath hend]

end Cut

open Cut (Layout Spells Requests Breaks)

/-- What the cursor passes is read, and reading goes on where it has come to. -/
private theorem segment_of_passes {front text front' text' : List Char} {tokens : List Token}
    (h : Passes front text tokens front' text') :
    segment (lineBehind front) text =
      ⟨tokens ++ (segment (lineBehind front') text').tokens,
        (segment (lineBehind front') text').ending⟩ := by
  induction h with
  | stay => rfl
  | @layout front piece text front' text' tokens hlayout _ ih =>
    obtain ⟨c, cs, rfl, hcut⟩ := Cut.cut_of_layout hlayout
    rw [List.cons_append, segment, hcut]
    dsimp only
    rw [← lineBehind_append, ih]
  | @token front text front' text' t tokens hspells hline _ ih =>
    rw [segment_spelled hspells, ← lineBehind_append, ih, ← hline, String.ofList_toList]
    rfl

/-! ### Requests that are reached -/

/-- The cursor gets over the given tokens to a request for another text, with `rest` behind it. -/
def Asks (text : List Char) (tokens : List Token) (path lexeme : String) (line : Nat)
    (rest : List Char) : Prop :=
  ∃ before, Passes [] text tokens before (lexeme.toList ++ rest) ∧ line = lineBehind before ∧
    Requests path lexeme.toList

/-- A segment ends at the request that its text leads to. -/
private theorem asks_iff {text rest : List Char} {tokens : List Token} {path lexeme : String}
    {line : Nat} :
    Asks text tokens path lexeme line rest ↔
      segment 1 text = ⟨tokens, .includes path lexeme line rest⟩ := by
  constructor
  · rintro ⟨before, hpasses, rfl, hrequests⟩
    have hread : segment 1 text = _ := segment_of_passes hpasses
    obtain ⟨cs, hlexeme, hcut⟩ := Cut.cut_of_requests hrequests rest
    rw [hread, hlexeme, List.cons_append, segment, hcut]
    dsimp only
    rw [List.append_nil, String.ofList_toList]
  · intro h
    have hplaced : (segment 1 text).Placed [] text := placed_segment [] text
    rw [h] at hplaced
    exact hplaced

/-- What a text has become when so many requests in it have been met, each by the text that the
host has under its path, and what the host has been asked for then. -/
inductive Splices (fetch : Option Fetcher) :
    Nat → (asked : List String) → (text : List Char) →
      (asked' : List String) → (text' : List Char) → Prop
  | none (asked : List String) (text : List Char) : Splices fetch 0 asked text asked text
  | splice {n : Nat} {asked asked' : List String} {text rest text' : List Char}
      {tokens : List Token} {path lexeme included : String} {line : Nat} {answer : Fetcher} :
      Asks text tokens path lexeme line rest → fetch = some answer →
      answer asked path = .ok included →
      Splices fetch n (asked ++ [path]) (included.toList ++ rest) asked' text' →
      Splices fetch (n + 1) asked text asked' text'

/-- No text breaks off for want of texts that may still be included: this is no fault of its own. -/
private theorem not_breaks_includeLimit {taken behind : List Char} :
    ¬ Breaks .includeLimit taken behind := by
  intro h
  cases h

namespace Scan

/-- The reading breaks off at a request because no more texts may be included. -/
def Exceeds (scan : Scan) (lexeme : String) (line : Nat) : Prop :=
  scan.outcome = .error (.lexical ⟨.includeLimit, lexeme, line⟩)

/-- Tokens in front do not change how a reading breaks off. -/
private theorem exceeds_after {scan : Scan} {tokens : List Token} {lexeme : String} {line : Nat} :
    (scan.after tokens).Exceeds lexeme line ↔ scan.Exceeds lexeme line := by
  obtain ⟨outcome, fetched⟩ := scan
  cases outcome with
  | error failure => rfl
  | ok stream =>
    simp only [Exceeds, after, Except.map]
    constructor <;> (intro h; cases h)

end Scan

namespace Stream

variable {fetch : Option Fetcher} {budget : Nat} {fetched : List String} {cs : List Char}
  {lexeme : String} {line : Nat}

/-- A segment that finds no lexeme does not break off for want of texts. -/
private theorem cause_ne_includeLimit {error : LexicalError}
    (h : (segment 1 cs).ending = .fault error) : error.cause ≠ .includeLimit := by
  have hplaced : (segment 1 cs).Placed [] cs := placed_segment [] cs
  rw [Segment.Placed, h] at hplaced
  obtain ⟨before, behind, -, -, hbreaks⟩ := hplaced
  intro hcause
  rw [hcause] at hbreaks
  exact not_breaks_includeLimit hbreaks

/-- A text that leads to a request is read on there. -/
private theorem ofChars_of_asks {tokens : List Token} {path : String} {rest : List Char}
    (h : Asks cs tokens path lexeme line rest) :
    ofChars fetch budget fetched cs =
      resume fetch budget fetched ⟨tokens, .includes path lexeme line rest⟩ := by
  rw [ofChars_eq_resume, asks_iff.1 h]

/-- A reading that breaks off for want of texts has come to a request. -/
theorem exists_asks (h : (ofChars fetch budget fetched cs).Exceeds lexeme line) :
    ∃ tokens path lexeme' line' rest, Asks cs tokens path lexeme' line' rest := by
  rw [ofChars_eq_resume] at h
  unfold resume at h
  cases hending : (segment 1 cs).ending with
  | finished last =>
    rw [hending] at h
    cases h
  | fault error =>
    rw [hending] at h
    obtain rfl := ScanFailure.lexical.inj (Except.error.inj h)
    exact absurd rfl (cause_ne_includeLimit hending)
  | includes path lexeme' line' rest =>
    exact ⟨_, path, lexeme', line', rest, asks_iff.2 (by rw [← hending])⟩

/-- When no text may be included, the first request is one too many. -/
private theorem exceeds_ofChars_zero :
    (ofChars fetch 0 fetched cs).Exceeds lexeme line ↔
      ∃ tokens path rest, Asks cs tokens path lexeme line rest := by
  constructor
  · intro h
    obtain ⟨tokens, path, lexeme', line', rest, hasks⟩ := exists_asks h
    rw [ofChars_of_asks hasks] at h
    obtain ⟨-, rfl, rfl⟩ := LexicalError.mk.inj (ScanFailure.lexical.inj (Except.error.inj h))
    exact ⟨tokens, path, rest, hasks⟩
  · rintro ⟨tokens, path, rest, hasks⟩
    rw [ofChars_of_asks hasks]
    rfl

/-- Otherwise the first request is met, and one further on is too many. -/
private theorem exceeds_ofChars_succ :
    (ofChars fetch (budget + 1) fetched cs).Exceeds lexeme line ↔
      ∃ tokens path lexeme' line' rest answer included,
        Asks cs tokens path lexeme' line' rest ∧ fetch = some answer ∧
          answer fetched path = .ok included ∧
          (ofChars fetch budget (fetched ++ [path]) (included.toList ++ rest)).Exceeds
            lexeme line := by
  constructor
  · intro h
    obtain ⟨tokens, path, lexeme', line', rest, hasks⟩ := exists_asks h
    rw [ofChars_of_asks hasks] at h
    cases fetch with
    | none => cases h
    | some answer =>
      cases hanswer : answer fetched path with
      | error reason =>
        simp only [resume, hanswer] at h
        cases h
      | ok included =>
        rw [resume_includes lexeme' line' rest hanswer, Scan.exceeds_after] at h
        exact ⟨tokens, path, lexeme', line', rest, answer, included, hasks, rfl, hanswer, h⟩
  · rintro ⟨tokens, path, lexeme', line', rest, answer, included, hasks, rfl, hanswer, h⟩
    rwa [ofChars_of_asks hasks, resume_includes lexeme' line' rest hanswer, Scan.exceeds_after]

/-- A reading breaks off for want of texts at the request behind the last one that may be met. -/
private theorem exceeds_ofChars_iff :
    (ofChars fetch budget fetched cs).Exceeds lexeme line ↔
      ∃ asked text tokens path rest, Splices fetch budget fetched cs asked text ∧
        Asks text tokens path lexeme line rest := by
  induction budget generalizing fetched cs with
  | zero =>
    rw [exceeds_ofChars_zero]
    constructor
    · rintro ⟨tokens, path, rest, hasks⟩
      exact ⟨fetched, cs, tokens, path, rest, .none fetched cs, hasks⟩
    · rintro ⟨asked, text, tokens, path, rest, hsplices, hasks⟩
      cases hsplices
      exact ⟨tokens, path, rest, hasks⟩
  | succ budget ih =>
    rw [exceeds_ofChars_succ]
    constructor
    · rintro ⟨tokens, path, lexeme', line', rest, answer, included, hfirst, hfetch, hanswer, h⟩
      obtain ⟨asked, text, tokens', path', rest', hsplices, hasks⟩ := ih.1 h
      exact ⟨asked, text, tokens', path', rest', .splice hfirst hfetch hanswer hsplices, hasks⟩
    · rintro ⟨asked, text, tokens, path, rest, hsplices, hasks⟩
      cases hsplices with
      | splice hfirst hfetch hanswer hlater =>
        exact ⟨_, _, _, _, _, _, _, hfirst, hfetch, hanswer,
          ih.2 ⟨asked, text, tokens, path, rest, hlater, hasks⟩⟩

end Stream

/-! ### One lexeme after the other -/

/-- A reading under way: how many texts may still be included, the paths asked for, the line the
cursor is on, the characters left, and the tokens read. -/
structure Reading where
  budget : Nat
  fetched : List String
  line : Nat
  left : List Char
  tokens : List Token

namespace Reading

/-- Read one more lexeme. The reading goes on or is over. -/
def step (fetch : Option Fetcher) (r : Reading) : Reading ⊕ Scan :=
  match r.left with
  | [] => .inr ⟨.ok ⟨r.tokens, r.line⟩, r.fetched⟩
  | c :: cs =>
    let rest := (cut c cs).rest
    let text := String.ofList (cut c cs).taken
    let next := r.line + (cut c cs).taken.count '\n'
    match (cut c cs).lexeme with
    | .layout => .inl { r with line := next, left := rest }
    | .token kind =>
      .inl { r with line := next, left := rest, tokens := r.tokens ++ [⟨kind, text, r.line⟩] }
    | .fault cause => .inr ⟨.error (.lexical ⟨cause, text, r.line⟩), r.fetched⟩
    | .includes path =>
      match r.budget, fetch with
      | 0, _ => .inr ⟨.error (.lexical ⟨.includeLimit, text, r.line⟩), r.fetched⟩
      | _ + 1, none => .inr ⟨.error (.unavailable path r.line Stream.noFetcher), r.fetched⟩
      | budget + 1, some answer =>
        match answer r.fetched path with
        | .error reason => .inr ⟨.error (.unavailable path r.line reason), r.fetched ++ [path]⟩
        | .ok included =>
          .inl ⟨budget, r.fetched ++ [path], 1, included.toList ++ rest, r.tokens⟩

/-- A reading of a text from its beginning. -/
def start (fetched : List String) (text : String) : Reading :=
  ⟨64, fetched, 1, text.toList, []⟩

/-- What a reading under way comes to. -/
def scan (fetch : Option Fetcher) (r : Reading) : Scan :=
  (Stream.resume fetch r.budget r.fetched (segment r.line r.left)).after r.tokens

/-- What may still be included, and what is left. -/
def rank (r : Reading) : Nat ×ₗ Nat :=
  toLex (r.budget, r.left.length)

variable {fetch : Option Fetcher} {r later : Reading}

/-- Every step includes one of the texts that still may be, or leaves fewer characters. -/
private theorem rank_step (h : r.step fetch = .inl later) : later.rank < r.rank := by
  obtain ⟨budget, fetched, line, left, tokens⟩ := r
  cases left with
  | nil => cases h
  | cons c cs =>
    have hrest := Cut.length_rest_lt c cs
    simp only [step] at h
    split at h
    · cases h
      exact Prod.Lex.toLex_lt_toLex.2 (.inr ⟨rfl, hrest⟩)
    · cases h
      exact Prod.Lex.toLex_lt_toLex.2 (.inr ⟨rfl, hrest⟩)
    · cases h
    · split at h
      · cases h
      · cases h
      · split at h
        · cases h
        · cases h
          exact Prod.Lex.toLex_lt_toLex.2 (.inl (Nat.lt_succ_self _))

/-- No reading goes on forever. -/
theorem wellFounded_step (fetch : Option Fetcher) :
    WellFounded fun later r : Reading => r.step fetch = .inl later :=
  Subrelation.wf rank_step (InvImage.wf rank wellFounded_lt)

/-- A step leads to a reading that comes to the same. -/
theorem scan_step (h : r.step fetch = .inl later) : later.scan fetch = r.scan fetch := by
  obtain ⟨budget, fetched, line, left, tokens⟩ := r
  cases left with
  | nil => cases h
  | cons c cs =>
    simp only [step] at h
    unfold scan
    rw [segment]
    split at h
    · rename_i hlexeme
      cases h
      simp only [hlexeme]
    · rename_i kind hlexeme
      cases h
      simp only [hlexeme]
      rw [← Scan.after_after, ← Stream.resume_append]
      rfl
    · cases h
    · rename_i path hlexeme
      split at h
      · cases h
      · cases h
      · split at h
        · cases h
        · rename_i hanswer
          cases h
          simp only [hlexeme]
          rw [Stream.resume_includes _ _ _ hanswer, Stream.ofChars_eq_resume, Scan.after_nil]

/-- A last step gives what the reading comes to. -/
theorem scan_last {scan : Scan} (h : r.step fetch = .inr scan) : r.scan fetch = scan := by
  obtain ⟨budget, fetched, line, left, tokens⟩ := r
  cases left with
  | nil =>
    cases h
    simp [Reading.scan, segment, Stream.resume, Scan.after, Except.map]
  | cons c cs =>
    simp only [step] at h
    unfold Reading.scan
    rw [segment]
    split at h
    · cases h
    · cases h
    · rename_i cause hlexeme
      cases h
      simp only [hlexeme]
      rfl
    · rename_i path hlexeme
      split at h
      · cases h
        simp only [hlexeme]
        rfl
      · cases h
        simp only [hlexeme]
        rfl
      · split at h
        · rename_i hanswer
          cases h
          simp only [hlexeme, Stream.resume, hanswer]
          rfl
        · cases h

/-- The reading is over after so many more lexemes. -/
inductive Finishes (fetch : Option Fetcher) : Nat → Reading → Scan → Prop
  | last {r : Reading} {scan : Scan} : r.step fetch = .inr scan → Finishes fetch 0 r scan
  | step {n : Nat} {r later : Reading} {scan : Scan} :
      r.step fetch = .inl later → Finishes fetch n later scan → Finishes fetch (n + 1) r scan

/-- Every reading is over at some time. -/
theorem exists_finishes (fetch : Option Fetcher) (r : Reading) :
    ∃ n, Finishes fetch n r (r.scan fetch) := by
  -- the induction is on the steps that can be made, which are well founded
  induction r using (wellFounded_step fetch).induction with
  | _ r ih =>
    cases hstep : r.step fetch with
    | inr scan =>
      rw [scan_last hstep]
      exact ⟨0, .last hstep⟩
    | inl later =>
      obtain ⟨n, hfinishes⟩ := ih later hstep
      rw [← scan_step hstep]
      exact ⟨n + 1, .step hstep hfinishes⟩

private theorem scan_start (fetch : Option Fetcher) (fetched : List String) (text : String) :
    (start fetched text).scan fetch = Stream.ofText fetch fetched text := by
  rw [Stream.ofText, Stream.ofChars_eq_resume]
  exact Scan.after_nil _

end Reading

/-! ### The questions to the host -/

namespace Stream

/-- Another host answers what is asked for as the first one does, where every question comes behind
those in front of it. -/
def SameAnswers (answer other : Fetcher) (fetched asked : List String) : Prop :=
  ∀ front path, front ++ [path] <+: asked →
    other (fetched ++ front) path = answer (fetched ++ front) path

section Questions

variable {answer other : Fetcher} {fetched asked : List String} {path : String}

theorem SameAnswers.head (h : SameAnswers answer other fetched (path :: asked)) :
    other fetched path = answer fetched path := by
  have hfirst := h [] path (by simp)
  rwa [List.append_nil] at hfirst

theorem SameAnswers.tail (h : SameAnswers answer other fetched (path :: asked)) :
    SameAnswers answer other (fetched ++ [path]) asked := by
  intro front path' hfront
  have hlater := h (path :: front) path' (List.cons_prefix_cons.mpr ⟨rfl, hfront⟩)
  rwa [List.append_cons] at hlater

end Questions

/-- No more is asked for than may be included, and the answers to what is asked for decide. -/
theorem asked_ofChars (fetch : Option Fetcher) (budget : Nat) (fetched : List String)
    (cs : List Char) :
    ∃ asked, (ofChars fetch budget fetched cs).fetched = fetched ++ asked ∧
      asked.length ≤ budget ∧
      ∀ answer other : Fetcher, fetch = some answer → SameAnswers answer other fetched asked →
        ofChars (some other) budget fetched cs = ofChars fetch budget fetched cs := by
  induction budget generalizing fetched cs with
  | zero =>
    -- nothing may be included, so nothing is asked for
    refine ⟨[], ?_, Nat.le_refl 0, fun answer other _ _ => ?_⟩
    · rw [ofChars_eq_resume, List.append_nil]
      unfold resume
      cases (segment 1 cs).ending <;> rfl
    · rw [ofChars_eq_resume, ofChars_eq_resume]
      unfold resume
      cases (segment 1 cs).ending <;> rfl
  | succ budget ih =>
    simp only [ofChars_eq_resume]
    unfold resume
    cases hending : (segment 1 cs).ending with
    | finished line => exact ⟨[], by simp, by simp, fun _ _ _ _ => rfl⟩
    | fault error => exact ⟨[], by simp, by simp, fun _ _ _ _ => rfl⟩
    | includes path lexeme line rest =>
      cases fetch with
      | none =>
        refine ⟨[], by simp, by simp, fun answer other h => ?_⟩
        cases h
      | some answer =>
        cases hanswer : answer fetched path with
        | error reason =>
          refine ⟨[path], by simp [hanswer], by simp, ?_⟩
          rintro _ other ⟨⟩ hsame
          simp only [hsame.head, hanswer]
        | ok included =>
          -- the answer decides how the text goes on, and the rest by induction
          obtain ⟨asked, hasked, hlength, hdecide⟩ :=
            ih (fetched ++ [path]) (included.toList ++ rest)
          refine ⟨path :: asked, ?_, by simpa using hlength, ?_⟩
          · simp only [hanswer, Scan.after, hasked, List.append_assoc, List.singleton_append]
          · rintro _ other ⟨⟩ hsame
            simp only [hsame.head, hanswer]
            rw [hdecide answer other rfl hsame.tail]

/-! ### The law -/

/-- Reading a text comes to an end, however the texts of the host include themselves or each other.

No sequence of steps, one lexeme each, is infinite, and those from the beginning of the text end in
what the text is read as. The host is asked for at most 64 texts, and nothing but its answers to
these decides. The reading breaks off because no more texts may be included exactly if 64 requests
are met and the text they lead to leads to another one, and it is this one that it breaks off at. -/
theorem ofText_ends (fetch : Option Fetcher) (fetched : List String) (text : String) :
    (WellFounded fun later r : Reading => r.step fetch = .inl later) ∧
    (∃ n, Reading.Finishes fetch n (.start fetched text) (ofText fetch fetched text)) ∧
    (∃ asked, (ofText fetch fetched text).fetched = fetched ++ asked ∧ asked.length ≤ 64 ∧
      ∀ answer other : Fetcher, fetch = some answer →
        (∀ front path, front ++ [path] <+: asked →
          other (fetched ++ front) path = answer (fetched ++ front) path) →
        ofText (some other) fetched text = ofText fetch fetched text) ∧
    ∀ lexeme line,
      (ofText fetch fetched text).outcome = .error (.lexical ⟨.includeLimit, lexeme, line⟩) ↔
        ∃ asked text' tokens path rest, Splices fetch 64 fetched text.toList asked text' ∧
          Asks text' tokens path lexeme line rest := by
  refine ⟨Reading.wellFounded_step fetch, ?_, asked_ofChars fetch 64 fetched text.toList,
    fun lexeme line => exceeds_ofChars_iff⟩
  rw [← Reading.scan_start]
  exact Reading.exists_finishes fetch (.start fetched text)

/-- A host that has one text under every path, which asks for itself on its second line. -/
def echo : Fetcher := fun _ _ => .ok "a\n#include 'b' "

/-- A text that includes itself is read 64 times. -/
theorem ofText_ends_echo :
    (∃ n, Reading.Finishes (some echo) n (.start [] "#include 'b'")
      (ofText (some echo) [] "#include 'b'")) ∧
    (ofText (some echo) [] "#include 'b'").fetched = List.replicate 64 "b" ∧
    ∃ asked text' tokens path rest,
      Splices (some echo) 64 [] "#include 'b'".toList asked text' ∧
        Asks text' tokens path "#include 'b'" 2 rest := by
  obtain ⟨-, hfinishes, -, hlimit⟩ := ofText_ends (some echo) [] "#include 'b'"
  exact ⟨hfinishes, by decide +kernel, (hlimit _ _).1 (by decide +kernel)⟩

end Stream

end Litany
