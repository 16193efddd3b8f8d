import Litany.Proofs.Token.Seam

/-!
# Including is pasting

A request to include a text is read as if the text stood in its place: the tokens in front of the
request are followed by those of the included text together with everything behind the request,
whatever lexeme the included text breaks off in. The request costs one of the texts that may still
be included. Lines are counted from one behind it, so that they differ from those of a text with
the included one pasted in, up to the next request, by `Stream.lineEndsRead`: the line ends read
since a text was included for the last time, those of that text among them. The main statement is
`include_eq_paste`.

The text in front of the request has to end at a line end and to be a text of its own. Then reading
goes on behind it as if it had begun there, only further down (`Stream.ofChars_append`).
-/

namespace Litany

/-! ### Faults in front of a line end -/

namespace Cut

private theorem closeComment_newline {cs : List Char} (h : closeComment cs = none) :
    closeComment (cs ++ ['\n']) = none := by
  fun_induction closeComment cs with
  | case1 r => cases h
  | case2 c r hpair ih =>
    have hrest := ih (Option.map_eq_none_iff.mp h)
    rw [List.cons_append, closeComment, hrest]
    · rfl
    · -- the line end does not close a comment behind a star
      rintro s rfl hslash
      cases r with
      | nil => cases hslash
      | cons d r =>
        cases hslash
        exact hpair r rfl rfl
  | case3 => rfl

private theorem closeQuote_newline {quote : Char} (hquote : quote ≠ '\n') {cs : List Char}
    (h : closeQuote quote cs = none) : closeQuote quote (cs ++ ['\n']) = none := by
  fun_induction closeQuote quote cs with
  | case1 => simp [closeQuote, Ne.symm hquote]
  | case2 c r ih =>
    have hrest := ih (Option.map_eq_none_iff.mp h)
    simp only [List.cons_append, closeQuote, hrest, Option.map_none]
  | case3 => cases h
  | case4 c r hslash hc ih =>
    have hrest := ih (Option.map_eq_none_iff.mp h)
    cases r with
    | nil =>
      -- a last backslash takes the line end along
      by_cases hback : c = '\\'
      · subst hback
        rfl
      · simp [closeQuote, hback, hc, Ne.symm hquote]
    | cons d r =>
      rw [List.cons_append, closeQuote, if_neg hc, hrest]
      · rfl
      · rintro d' r' rfl hr
        exact hslash d r rfl rfl

private theorem closeBrace_newline {depth : Nat} {cs : List Char} (h : closeBrace depth cs = none) :
    closeBrace depth (cs ++ ['\n']) = none := by
  fun_induction closeBrace depth cs with
  | case1 depth => cases depth <;> rfl
  | case3 => cases h
  | case2 _ _ ih | case4 _ _ ih =>
    have hrest := ih (Option.map_eq_none_iff.mp h)
    simp only [List.cons_append, closeBrace, hrest, Option.map_none]
  | case5 depth c r hopening hzero hclosing ih =>
    have hrest := ih (Option.map_eq_none_iff.mp h)
    rw [List.cons_append, closeBrace, hrest]
    · rfl
    · exact hopening
    · exact hzero
    · exact hclosing

/-- A text that has no first lexeme. -/
def Faulty (k : Cut) : Prop :=
  ∃ cause, k.lexeme = .fault cause

private theorem faulty_literal {quote : Char} (hquote : quote ≠ '\n') {cs : List Char}
    (h : (literal quote cs).Faulty) : (literal quote (cs ++ ['\n'])).Faulty := by
  unfold literal at h ⊢
  cases hclose : closeQuote quote cs with
  | none => simp [closeQuote_newline hquote hclose, Faulty]
  | some found => simp [hclose, Faulty] at h

private theorem faulty_includePath {directive cs : List Char}
    (h : (includePath directive cs).Faulty) : (includePath directive (cs ++ ['\n'])).Faulty := by
  unfold includePath at h ⊢
  dsimp only at h ⊢
  rw [takeWhile_seam (by decide), dropWhile_seam (by decide)]
  cases hgap : cs.dropWhile fun c => c == ' ' || c == '\t' with
  | nil => exact ⟨.malformedInclude, rfl⟩
  | cons quote inside =>
    rw [hgap] at h
    simp only [List.cons_append] at h ⊢
    by_cases hquote : isQuote quote = true
    · rw [if_pos hquote] at h ⊢
      have hstop : (fun c => c != quote && c != '\n') '\n' = false := by simp
      rw [takeWhile_seam hstop, dropWhile_seam hstop]
      cases hpath : inside.dropWhile fun c => c != quote && c != '\n' with
      | nil =>
        -- the line end stands where the path should be closed
        have hne : '\n' ≠ quote := by
          rintro rfl
          revert hquote
          decide
        exact ⟨.malformedInclude, if_neg hne⟩
      | cons c rest =>
        rw [hpath] at h
        exact h
    · rw [if_neg hquote]
      exact ⟨.malformedInclude, rfl⟩

private theorem faulty_directive {cs : List Char} (h : (directive cs).Faulty) :
    (directive (cs ++ ['\n'])).Faulty := by
  unfold directive at h ⊢
  rw [takeWhile_seam (by decide), dropWhile_seam (by decide)]
  dsimp only at h ⊢
  split
  · rename_i hdefine
    simp [hdefine, Faulty] at h
  · rename_i hdefine
    rw [if_neg hdefine] at h
    split
    · rename_i hinclude
      rw [if_pos hinclude] at h
      exact faulty_includePath h
    · exact ⟨_, rfl⟩

private theorem faulty_foreign {word cs : List Char} (h : (foreign word cs).Faulty) :
    (foreign word (cs ++ ['\n'])).Faulty := by
  unfold foreign at h ⊢
  cases hgap : cs.dropWhile isGap with
  | nil =>
    have hall : (cs ++ ['\n']).dropWhile isGap = [] := by
      rw [List.dropWhile_append, hgap]
      rfl
    rw [hall]
    exact ⟨_, rfl⟩
  | cons c inside =>
    rw [hgap] at h
    rw [takeWhile_append_of_dropWhile hgap, dropWhile_append_of_dropWhile hgap]
    simp only [List.cons_append] at h ⊢
    by_cases hc : c = '\x7b'
    · rw [if_pos hc] at h ⊢
      cases hclose : closeBrace 0 inside with
      | none =>
        rw [closeBrace_newline hclose]
        exact ⟨_, rfl⟩
      | some found =>
        obtain ⟨body, behind⟩ := found
        rw [hclose] at h
        rw [closeBrace_tail _ hclose]
        dsimp only at h ⊢
        cases hbehind : behind.dropWhile isGap with
        | nil =>
          have hall : (behind ++ ['\n']).dropWhile isGap = [] := by
            rw [List.dropWhile_append, hbehind]
            rfl
          rw [hall]
          exact ⟨_, rfl⟩
        | cons d rest =>
          rw [hbehind] at h
          rw [takeWhile_append_of_dropWhile hbehind, dropWhile_append_of_dropWhile hbehind]
          simp only [List.cons_append]
          split at h
          · obtain ⟨cause, hcause⟩ := h
            cases hcause
          · rename_i hsemicolon
            split
            · rename_i heq
              cases heq
              exact absurd rfl (hsemicolon rest)
            · exact ⟨_, rfl⟩
    · rw [if_neg hc]
      exact ⟨_, rfl⟩

private theorem faulty_word {c : Char} {cs : List Char} (h : (word c cs).Faulty) :
    (word c (cs ++ ['\n'])).Faulty := by
  unfold word at h ⊢
  rw [takeWhile_seam (by decide), dropWhile_seam (by decide)]
  dsimp only at h ⊢
  split
  · rename_i hjs
    rw [if_pos hjs] at h
    exact faulty_foreign h
  · rename_i hjs
    simp [hjs, Faulty] at h

/-- A mark that a slash begins is one. -/
private theorem not_faulty_mark_slash (cs : List Char) : ¬ (mark '/' cs).Faulty := by
  rintro ⟨cause, hcause⟩
  cases cs with
  | nil => cases hcause
  | cons d rest =>
    simp only [mark] at hcause
    split at hcause <;> cases hcause

private theorem faulty_slash {cs : List Char} (h : (slash cs).Faulty) :
    (slash (cs ++ ['\n'])).Faulty := by
  unfold slash at h
  split at h
  · simp [lineComment, Faulty] at h
  · rename_i rest
    simp only [slash, List.cons_append, blockComment] at h ⊢
    cases hclose : closeComment rest with
    | none =>
      rw [closeComment_newline hclose]
      exact ⟨_, rfl⟩
    | some found => simp [hclose, Faulty] at h
  · exact absurd h (not_faulty_mark_slash cs)

/-- A text without a first lexeme has none when a line end follows. -/
private theorem faulty_cut {c : Char} {cs : List Char} (h : (cut c cs).Faulty) :
    (cut c (cs ++ ['\n'])).Faulty := by
  unfold cut at h ⊢
  split
  · rename_i hgap
    simp [hgap, Faulty] at h
  rename_i hgap
  rw [if_neg hgap] at h
  split
  · rename_i hquote
    rw [if_pos hquote] at h
    refine faulty_literal ?_ h
    rintro rfl
    exact hgap (by decide)
  rename_i hquote
  rw [if_neg hquote] at h
  split
  · rename_i hhash
    rw [if_pos hhash] at h
    exact faulty_directive h
  rename_i hhash
  rw [if_neg hhash] at h
  split
  · rename_i hdigit
    rw [if_pos hdigit] at h
    rw [number_seam]
    exact h
  rename_i hdigit
  rw [if_neg hdigit] at h
  split
  · rename_i hword
    rw [if_pos hword] at h
    exact faulty_word h
  rename_i hword
  rw [if_neg hword] at h
  split
  · rename_i hslash
    rw [if_pos hslash] at h
    exact faulty_slash h
  · rename_i hslash
    rw [if_neg hslash] at h
    rw [mark_seam]
    exact h

end Cut

/-! ### Segments -/

/-- A text with a fault is at fault when a line end follows. -/
private theorem segment_fault_newline {line : Nat} {cs : List Char} {error : LexicalError}
    (h : (segment line cs).ending = .fault error) :
    ∃ error', (segment line (cs ++ ['\n'])).ending = .fault error' := by
  fun_induction segment line cs with
  | case1 => cases h
  | case2 line c cs _ hlexeme ih =>
    have hcut := (Cut.continues_cut [] c cs).resolve_left (by simp [hlexeme])
    rw [List.cons_append, segment, hcut]
    simp only [Cut.followedBy, hlexeme]
    exact ih h
  | case3 line c cs text next kind hlexeme later ih =>
    have hcut := (Cut.continues_cut [] c cs).resolve_left (by simp [hlexeme])
    rw [List.cons_append, segment, hcut]
    simp only [Cut.followedBy, hlexeme]
    exact ih h
  | case4 => cases h
  | case5 line c cs _ cause hlexeme =>
    obtain ⟨cause', hcause⟩ := Cut.faulty_cut ⟨cause, hlexeme⟩
    rw [List.cons_append, segment, hcause]
    exact ⟨_, rfl⟩

/-- A text without a fault has none when its last line end is taken away. -/
private theorem segment_free_of_newline {line : Nat} {cs : List Char}
    (h : ∀ error, (segment line (cs ++ ['\n'])).ending ≠ .fault error) :
    ∀ error, (segment line cs).ending ≠ .fault error := by
  intro error herror
  obtain ⟨error', herror'⟩ := segment_fault_newline herror
  exact h error' herror'

/-- The line that a text ends on is that of its first character and one for every line end. -/
private theorem segment_finished {line last : Nat} {cs : List Char}
    (h : (segment line cs).ending = .finished last) : last = line + cs.count '\n' := by
  fun_induction segment line cs with
  | case1 line =>
    cases h
    rfl
  | case2 line c cs next _ ih =>
    have hcount := congrArg (List.count '\n') (Cut.taken_append_rest c cs)
    have hlast := ih h
    rw [List.count_append] at hcount
    simp only [next] at hlast
    omega
  | case3 line c cs text next kind _ later ih =>
    have hcount := congrArg (List.count '\n') (Cut.taken_append_rest c cs)
    have hlast := ih h
    rw [List.count_append] at hcount
    simp only [next] at hlast
    omega
  | case4 => cases h
  | case5 => cases h

/-- The token, further down. -/
def Token.lowered (k : Nat) (t : Token) : Token :=
  { t with line := t.line + k }

/-- The fault, further down. -/
def LexicalError.lowered (k : Nat) (e : LexicalError) : LexicalError :=
  { e with line := e.line + k }

/-- The ending, further down. -/
def Segment.End.lowered (k : Nat) : Segment.End → Segment.End
  | .finished line => .finished (line + k)
  | .includes path lexeme line rest => .includes path lexeme (line + k) rest
  | .fault error => .fault (error.lowered k)

/-- The segment, further down. -/
def Segment.lowered (k : Nat) (s : Segment) : Segment :=
  ⟨s.tokens.map (Token.lowered k), s.ending.lowered k⟩

/-- A text that begins further down reads the same, further down. -/
private theorem segment_lowered (k line : Nat) (cs : List Char) :
    segment (line + k) cs = (segment line cs).lowered k := by
  fun_induction segment line cs with
  | case1 line =>
    rw [segment]
    rfl
  | case2 line c cs next hlexeme ih =>
    have hline : line + k + (cut c cs).taken.count '\n' = next + k := by
      simp only [next]
      omega
    rw [segment]
    simp only [hlexeme, hline]
    exact ih
  | case3 line c cs text next kind hlexeme later ih =>
    have hline : line + k + (cut c cs).taken.count '\n' = next + k := by
      simp only [next]
      omega
    rw [segment]
    simp only [hlexeme, hline, ih]
    rfl
  | case4 line c cs text path hlexeme =>
    rw [segment]
    simp only [hlexeme]
    rfl
  | case5 line c cs text cause hlexeme =>
    rw [segment]
    simp only [hlexeme]
    rfl

/-! ### Whole texts -/

namespace Scan

theorem after_nil (scan : Scan) : scan.after [] = scan := by
  obtain ⟨outcome, fetched⟩ := scan
  cases outcome <;> rfl

theorem after_after (scan : Scan) (tokens earlier : List Token) :
    (scan.after tokens).after earlier = scan.after (earlier ++ tokens) := by
  obtain ⟨outcome, fetched⟩ := scan
  cases outcome with
  | error f => rfl
  | ok s => simp only [after, Except.map, List.append_assoc]

end Scan

namespace Stream

variable {fetch : Option Fetcher} {budget : Nat} {fetched fetched₁ : List String}
  {cs : List Char} {s : Stream}

/-- Read on when the first segment of a text is read. -/
def resume (fetch : Option Fetcher) (budget : Nat) (fetched : List String) (s : Segment) : Scan :=
  match s.ending with
  | .finished line => ⟨.ok ⟨s.tokens, line⟩, fetched⟩
  | .fault error => ⟨.error (.lexical error), fetched⟩
  | .includes path lexeme line rest =>
    match budget, fetch with
    | 0, _ => ⟨.error (.lexical ⟨.includeLimit, lexeme, line⟩), fetched⟩
    | _ + 1, none => ⟨.error (.unavailable path line noFetcher), fetched⟩
    | budget + 1, some answer =>
      match answer fetched path with
      | .error reason => ⟨.error (.unavailable path line reason), fetched ++ [path]⟩
      | .ok text =>
        (ofChars fetch budget (fetched ++ [path]) (text.toList ++ rest)).after s.tokens

theorem ofChars_eq_resume (fetch : Option Fetcher) (budget : Nat) (fetched : List String)
    (cs : List Char) :
    ofChars fetch budget fetched cs = resume fetch budget fetched (segment 1 cs) := by
  unfold ofChars resume
  cases hending : (segment 1 cs).ending with
  | finished line => simp only [hending]
  | fault error => simp only [hending]
  | includes path lexeme line rest =>
    cases budget with
    | zero => simp only [hending]
    | succ budget =>
      cases fetch with
      | none => simp only [hending]
      | some answer =>
        cases hanswer : answer fetched path with
        | error reason => simp only [hending, hanswer]
        | ok text => simp only [hending, hanswer]

/-- Reading goes on in the included text. -/
theorem resume_includes {answer : Fetcher} {tokens : List Token} {path text : String}
    (lexeme : String) (line : Nat) (rest : List Char) (hanswer : answer fetched path = .ok text) :
    resume (some answer) (budget + 1) fetched ⟨tokens, .includes path lexeme line rest⟩ =
      (ofChars (some answer) budget (fetched ++ [path]) (text.toList ++ rest)).after tokens := by
  simp only [resume, hanswer]

/-- Tokens in front of a segment stand in front of everything read on from it. -/
theorem resume_append (tokens : List Token) (segment : Segment) :
    resume fetch budget fetched ⟨tokens ++ segment.tokens, segment.ending⟩ =
      (resume fetch budget fetched segment).after tokens := by
  obtain ⟨later, ending⟩ := segment
  cases ending with
  | finished line => rfl
  | fault error => rfl
  | includes path lexeme line rest =>
    cases budget with
    | zero => rfl
    | succ budget =>
      cases fetch with
      | none => rfl
      | some answer =>
        simp only [resume]
        cases answer fetched path with
        | error reason => rfl
        | ok text => exact (Scan.after_after _ _ _).symm

/-- A line end and more text behind a text that can be read: reading goes on there, on the next
line, with the texts that may still be included. -/
private theorem Reads.ofChars_seam (h : Reads fetch fetched cs s fetched₁)
    (hbudget : fetched₁.length ≤ fetched.length + budget) (ys : List Char) :
    Stream.ofChars fetch budget fetched (cs ++ '\n' :: ys) =
      (resume fetch (fetched.length + budget - fetched₁.length) fetched₁
        (segment (s.endLine + 1) ys)).after s.tokens := by
  induction h generalizing budget with
  | @finished fetched cs line hending =>
    have hfree : ∀ error, (segment 1 cs).ending ≠ .fault error := by simp [hending]
    have hsegment := segment_seam ys hfree
    rw [Segment.joined, hending] at hsegment
    rw [ofChars_eq_resume, hsegment, Nat.add_sub_cancel_left]
    exact resume_append _ _
  | @includes fetched fetched₁ cs rest path lexeme text line answer later hending hfetch hanswer
      hlater ih =>
    obtain ⟨left, rfl, hleft⟩ := hlater.exists_budget hbudget
    have hfree : ∀ error, (segment 1 cs).ending ≠ .fault error := by simp [hending]
    have hsegment := segment_seam ys hfree
    rw [Segment.joined, hending] at hsegment
    have hrest := ih (hleft ▸ hbudget)
    rw [hleft, List.append_assoc] at hrest
    subst hfetch
    rw [ofChars_eq_resume, hsegment, resume_includes lexeme line _ hanswer, hrest,
      Scan.after_after]

/-- A text that can be read with a line end behind it can be read without. -/
private theorem Reads.of_newline {text : List Char} (h : Reads fetch fetched text s fetched₁)
    (htext : text = cs ++ ['\n']) : ∃ s', Reads fetch fetched cs s' fetched₁ := by
  induction h generalizing cs with
  | @finished fetched text line hending =>
    subst htext
    have hfree := segment_free_of_newline (by rw [hending]; simp)
    rw [segment_seam [] hfree, Segment.joined] at hending
    cases hfront : (segment 1 cs).ending with
    | finished line' => exact ⟨_, .finished hfront⟩
    | fault error => exact absurd hfront (hfree error)
    | includes path lexeme line' rest =>
      rw [hfront] at hending
      cases hending
  | @includes fetched fetched₁ text rest path lexeme included line answer later hending hfetch
      hanswer _ ih =>
    subst htext
    have hfree := segment_free_of_newline (by rw [hending]; simp)
    rw [segment_seam [] hfree, Segment.joined] at hending
    cases hfront : (segment 1 cs).ending with
    | finished line' =>
      -- nothing is asked for behind the line end
      rw [hfront] at hending
      simp [segment] at hending
    | fault error => exact absurd hfront (hfree error)
    | includes path' lexeme' line' rest' =>
      rw [hfront] at hending
      cases hending
      obtain ⟨s', hs'⟩ := ih (List.append_assoc _ _ _).symm
      exact ⟨_, .includes hfront hfetch hanswer hs'⟩

/-- Behind a text of whole lines that can be read, reading goes on as if it began there: on the line
that the text ends on, and with the texts that may still be included. -/
theorem ofChars_append (hcs : cs = [] ∨ cs.getLast? = some '\n')
    (h : ofChars fetch budget fetched cs = ⟨.ok s, fetched₁⟩) (ys : List Char) :
    ofChars fetch budget fetched (cs ++ ys) =
      (resume fetch (fetched.length + budget - fetched₁.length) fetched₁
        (segment s.endLine ys)).after s.tokens := by
  rcases hcs with rfl | hlast
  · have hempty : ofChars fetch budget fetched [] = ⟨.ok ⟨[], 1⟩, fetched⟩ := by
      rw [ofChars_eq_resume, segment]
      rfl
    rw [hempty] at h
    cases h
    rw [List.nil_append, Scan.after_nil, Nat.add_sub_cancel_left]
    exact ofChars_eq_resume _ _ _ _
  · obtain ⟨front, rfl⟩ := List.getLast?_eq_some_iff.mp hlast
    obtain ⟨hreads, hbudget⟩ := reads_of_ofChars h
    obtain ⟨s', hs'⟩ := hreads.of_newline rfl
    -- the last line end alone adds no token and ends the line
    have hsame : s = ⟨s'.tokens, s'.endLine + 1⟩ := by
      have hline := hs'.ofChars_seam hbudget []
      rw [h, segment] at hline
      simpa [resume, Scan.after, Except.map] using congrArg Scan.outcome hline
    rw [List.append_assoc, List.singleton_append, hs'.ofChars_seam hbudget ys, hsame]

/-- What there was to read when a text was included for the last time, or the text itself if it
includes none. -/
def lastStretch (fetch : Option Fetcher) (budget : Nat) (fetched : List String) (cs : List Char) :
    List Char :=
  match (segment 1 cs).ending with
  | .finished _ => cs
  | .fault _ => cs
  | .includes path _ _ rest =>
    match budget, fetch with
    | 0, _ => cs
    | _ + 1, none => cs
    | budget + 1, some answer =>
      match answer fetched path with
      | .error _ => cs
      | .ok text => lastStretch fetch budget (fetched ++ [path]) (text.toList ++ rest)
termination_by structural budget

/-- The line ends that have been read at the end of a text since a text was included for the last
time: those of the included text together with those of everything that was left to read behind
the request for it. If the text includes none, all its line ends. -/
def lineEndsRead (answer : Fetcher) (fetched : List String) (text : String) : Nat :=
  (lastStretch (some answer) includeBudget fetched text.toList).count '\n'

/-- Lines are counted from the last text that was included. -/
private theorem Reads.endLine_eq (h : Reads fetch fetched cs s fetched₁)
    (hbudget : fetched₁.length ≤ fetched.length + budget) :
    s.endLine = 1 + (lastStretch fetch budget fetched cs).count '\n' := by
  induction h generalizing budget with
  | @finished fetched cs line hending =>
    have hline := segment_finished hending
    unfold lastStretch
    rw [hending]
    exact hline
  | @includes fetched fetched₁ cs rest path lexeme text line answer later hending hfetch hanswer
      hlater ih =>
    obtain ⟨left, rfl, hleft⟩ := hlater.exists_budget hbudget
    have hrest := ih (hleft ▸ hbudget)
    subst hfetch
    rw [lastStretch, hending]
    simp only [hanswer]
    exact hrest

end Stream

/-! ### Requests -/

/-- A path without its closing quote is taken up to there. -/
private theorem takeWhile_path {path : List Char} (hpath : ∀ c ∈ path, c ≠ '"' ∧ c ≠ '\n')
    (post : List Char) :
    (path ++ '"' :: post).takeWhile (fun c => c != '"' && c != '\n') = path ∧
      (path ++ '"' :: post).dropWhile (fun c => c != '"' && c != '\n') = '"' :: post := by
  have hall : ∀ c ∈ path, (c != '"' && c != '\n') = true := by
    intro c hc
    simp [hpath c hc]
  rw [List.takeWhile_append_of_pos hall, List.dropWhile_append_of_pos hall]
  simp

/-- A request to include a text is cut off behind its closing quote. -/
private theorem cut_include {path : List Char} (hpath : ∀ c ∈ path, c ≠ '"' ∧ c ≠ '\n')
    (post : List Char) :
    cut '#' ("include \"".toList ++ (path ++ '"' :: post)) =
      ⟨"#include \"".toList ++ path ++ ['"'], post, .includes (String.ofList path)⟩ := by
  obtain ⟨htake, hdrop⟩ := takeWhile_path hpath post
  have hcut : cut '#' ("include \"".toList ++ (path ++ '"' :: post)) =
      Cut.includePath "#include".toList (' ' :: '"' :: (path ++ '"' :: post)) := rfl
  rw [hcut]
  simp only [Cut.includePath]
  rw [show (' ' :: '"' :: (path ++ '"' :: post)).dropWhile (fun c => c == ' ' || c == '\t') =
    '"' :: (path ++ '"' :: post) from rfl]
  simp only [Cut.isQuote, htake, hdrop]
  rfl

/-- A request ends the segment it begins. -/
private theorem segment_include {path : List Char} (hpath : ∀ c ∈ path, c ≠ '"' ∧ c ≠ '\n')
    (line : Nat) (post : List Char) :
    ∃ lexeme, segment line ("#include \"".toList ++ (path ++ '"' :: post)) =
      ⟨[], .includes (String.ofList path) lexeme line post⟩ := by
  have hcut := cut_include hpath post
  refine ⟨String.ofList ("#include \"".toList ++ path ++ ['"']), ?_⟩
  change segment line ('#' :: ("include \"".toList ++ (path ++ '"' :: post))) = _
  rw [segment, hcut]

/-! ### Reading the same text further down -/

/-- Whether a reading breaks off because no more texts may be included. -/
def Scan.HitsLimit (scan : Scan) : Prop :=
  ∃ error, scan.outcome = .error (.lexical error) ∧ error.cause = .includeLimit

theorem Scan.HitsLimit.after {scan : Scan} (h : scan.HitsLimit) (tokens : List Token) :
    (scan.after tokens).HitsLimit := by
  obtain ⟨error, herror, hcause⟩ := h
  refine ⟨error, ?_, hcause⟩
  rw [Scan.after, herror]
  rfl

/-- What becomes of a reading, by the way its first segment `s` ends, if the text begins `k` lines
further down and the host answers as given: the lines in front of the next text that is included
are larger by `k`, and nothing else changes. -/
inductive Segment.Lowers (answer : String → Except String String) (k : Nat) :
    Segment → Except ScanFailure Stream → Except ScanFailure Stream → Prop where
  | finished (tokens : List Token) (line : Nat) :
      Lowers answer k ⟨tokens, .finished line⟩ (.ok ⟨tokens, line⟩)
        (.ok ⟨tokens.map (Token.lowered k), line + k⟩)
  | fault (tokens : List Token) (error : LexicalError) :
      Lowers answer k ⟨tokens, .fault error⟩ (.error (.lexical error))
        (.error (.lexical (error.lowered k)))
  | unavailable (tokens : List Token) {path : String} (lexeme : String) (line : Nat)
      (rest : List Char) {reason : String} (hanswer : answer path = .error reason) :
      Lowers answer k ⟨tokens, .includes path lexeme line rest⟩
        (.error (.unavailable path line reason)) (.error (.unavailable path (line + k) reason))
  | included (tokens : List Token) {path : String} (lexeme : String) (line : Nat)
      (rest : List Char) {text : String} (hanswer : answer path = .ok text) (later : Scan) :
      Lowers answer k ⟨tokens, .includes path lexeme line rest⟩ (later.after tokens).outcome
        (later.after (tokens.map (Token.lowered k))).outcome

/-- The failure without its line. -/
def ScanFailure.unlined : ScanFailure → ScanFailure
  | .lexical error => .lexical { error with line := 0 }
  | .unavailable path _ reason => .unavailable path 0 reason

/-- The outcome of a reading without its lines. -/
def Stream.unlinedOutcome (outcome : Except ScanFailure Stream) : Except ScanFailure Stream :=
  (outcome.map Stream.unlined).mapError ScanFailure.unlined

private theorem Token.unlined_lowered (k : Nat) (tokens : List Token) :
    (tokens.map (Token.lowered k)).map Token.unlined = tokens.map Token.unlined := by
  rw [List.map_map]
  rfl

/-- A text that begins further down reads the same, lines apart. -/
theorem Segment.Lowers.unlined {answer : String → Except String String} {k : Nat} {s : Segment}
    {o o' : Except ScanFailure Stream} (h : s.Lowers answer k o o') :
    Stream.unlinedOutcome o' = Stream.unlinedOutcome o := by
  cases h with
  | finished tokens line =>
    simp only [Stream.unlinedOutcome, Except.map, Stream.unlined, Token.unlined_lowered]
  | fault tokens error => rfl
  | unavailable => rfl
  | included tokens lexeme line rest hanswer later =>
    obtain ⟨outcome, fetched⟩ := later
    cases outcome with
    | error f => rfl
    | ok stream =>
      simp only [Scan.after, Stream.unlinedOutcome, Except.map, Stream.unlined, List.map_append,
        Token.unlined_lowered]

/-- A host that answers the same whether it has been asked for some paths or for others. -/
def Fetcher.Agrees (answer : Fetcher) (asked asked' : List String) : Prop :=
  ∀ later path, answer (asked ++ later) path = answer (asked' ++ later) path

namespace Fetcher.Agrees

variable {answer : Fetcher} {asked asked' : List String}

theorem now (h : answer.Agrees asked asked') (path : String) :
    answer asked path = answer asked' path := by
  simpa using h [] path

theorem later (h : answer.Agrees asked asked') (path : String) :
    answer.Agrees (asked ++ [path]) (asked' ++ [path]) := by
  intro more path'
  simpa using h (path :: more) path'

end Fetcher.Agrees

namespace Stream

variable {answer : Fetcher} {asked asked' : List String} {budget budget' : Nat}

/-- A reading that stays within its budget does not change if it may include more texts, nor if
the host has been asked for others before and does not mind. -/
theorem outcome_ofChars (hanswers : answer.Agrees asked asked') (hbudget : budget ≤ budget')
    {cs : List Char} (hlimit : ¬ (ofChars (some answer) budget asked cs).HitsLimit) :
    (ofChars (some answer) budget' asked' cs).outcome =
      (ofChars (some answer) budget asked cs).outcome := by
  induction budget generalizing budget' asked asked' cs with
  | zero =>
    rw [ofChars_eq_resume] at hlimit
    rw [ofChars_eq_resume, ofChars_eq_resume]
    unfold resume at hlimit ⊢
    cases hending : (segment 1 cs).ending with
    | finished line => rfl
    | fault error => rfl
    | includes path lexeme line rest =>
      rw [hending] at hlimit
      exact absurd ⟨_, rfl, rfl⟩ hlimit
  | succ budget ih =>
    obtain ⟨left, rfl⟩ : ∃ left, budget' = left + 1 := ⟨budget' - 1, by omega⟩
    rw [ofChars_eq_resume] at hlimit
    rw [ofChars_eq_resume, ofChars_eq_resume]
    unfold resume at hlimit ⊢
    cases hending : (segment 1 cs).ending with
    | finished line => rfl
    | fault error => rfl
    | includes path lexeme line rest =>
      rw [hending] at hlimit
      dsimp only at hlimit ⊢
      rw [← hanswers.now path]
      cases hanswer : answer asked path with
      | error reason => rfl
      | ok text =>
        rw [hanswer] at hlimit
        have hinner : ¬ (ofChars (some answer) budget (asked ++ [path])
            (text.toList ++ rest)).HitsLimit := fun h => hlimit (h.after _)
        have hrest := ih (hanswers.later path) (Nat.le_of_succ_le_succ hbudget) hinner
        simp only [Scan.after, hrest]

/-- Reading on further down, with a larger budget and behind other questions to the host, changes
the lines up to the next text that is included and nothing else. -/
private theorem resume_lowered (hanswers : answer.Agrees asked asked') (hbudget : budget ≤ budget')
    (k : Nat) {s : Segment} (hlimit : ¬ (resume (some answer) budget asked s).HitsLimit) :
    s.Lowers (answer asked) k (resume (some answer) budget asked s).outcome
      (resume (some answer) budget' asked' (s.lowered k)).outcome := by
  obtain ⟨tokens, ending⟩ := s
  cases ending with
  | finished line => exact .finished tokens line
  | fault error => exact .fault tokens error
  | includes path lexeme line rest =>
    obtain ⟨left, rfl⟩ : ∃ left, budget = left + 1 := by
      cases budget with
      | zero => exact absurd ⟨_, rfl, rfl⟩ hlimit
      | succ left => exact ⟨left, rfl⟩
    obtain ⟨left', rfl⟩ : ∃ left', budget' = left' + 1 := ⟨budget' - 1, by omega⟩
    have hsame := hanswers.now path
    simp only [Segment.lowered, Segment.End.lowered]
    cases hanswer : answer asked path with
    | error reason =>
      simp only [resume, ← hsame, hanswer]
      exact .unavailable tokens lexeme line rest hanswer
    | ok text =>
      rw [resume_includes lexeme line rest hanswer] at hlimit ⊢
      rw [resume_includes lexeme (line + k) rest (hsame ▸ hanswer)]
      have hinner : ¬ (ofChars (some answer) left (asked ++ [path])
          (text.toList ++ rest)).HitsLimit := fun h => hlimit (h.after _)
      have hrest := outcome_ofChars (hanswers.later path) (Nat.le_of_succ_le_succ hbudget) hinner
      -- behind the included text nothing depends on where the segment began
      have hswap : ((ofChars (some answer) left' (asked' ++ [path])
          (text.toList ++ rest)).after (tokens.map (Token.lowered k))).outcome =
          ((ofChars (some answer) left (asked ++ [path])
          (text.toList ++ rest)).after (tokens.map (Token.lowered k))).outcome := by
        simp only [Scan.after, hrest]
      rw [hswap]
      exact .included tokens lexeme line rest hanswer _

/-! ### The law -/

/-- Including is pasting. Let `pre` be empty or end in a line end, and let it be a text that can be
read and leaves room for one more; let `text` be what the host then has under `path`, which holds
neither a double quote nor a line end. Then `pre`, a request for `path` and any `post` are read as
the tokens of `pre` followed by what reading `text` and `post` as one comes to, tokens with their
lines or a failure, with one text less that may still be included.

If that reading is not cut short by the limit, and the host does not mind having been asked for
`path`, then `pre`, `text` and `post` pasted together are read the same, lines apart. Up to the next
text that is included the lines are larger by `lineEndsRead answer fetched pre`: the line ends read
since the last text that `pre` includes, those of that text among them. -/
theorem include_eq_paste (answer : Fetcher) (fetched fetched₁ : List String)
    (pre post path text : String) (s₁ : Stream)
    (hpre : ofText (some answer) fetched pre = ⟨.ok s₁, fetched₁⟩)
    (hline : pre = "" ∨ pre.toList.getLast? = some '\n')
    (hroom : fetched₁.length < fetched.length + includeBudget)
    (hpath : ∀ c ∈ path.toList, c ≠ '"' ∧ c ≠ '\n') (htext : answer fetched₁ path = .ok text) :
    let left := fetched.length + includeBudget - fetched₁.length - 1
    let rest := ofChars (some answer) left (fetched₁ ++ [path]) (text ++ post).toList
    let k := lineEndsRead answer fetched pre
    ofText (some answer) fetched (pre ++ "#include \"" ++ path ++ "\"" ++ post) =
        rest.after s₁.tokens ∧
      (¬ rest.HitsLimit → answer.Agrees (fetched₁ ++ [path]) fetched₁ →
        ∃ pasted : Scan,
          ofText (some answer) fetched (pre ++ text ++ post) = pasted.after s₁.tokens ∧
          unlinedOutcome pasted.outcome = unlinedOutcome rest.outcome ∧
          (segment 1 (text ++ post).toList).Lowers (answer (fetched₁ ++ [path])) k rest.outcome
            pasted.outcome) := by
  intro left rest k
  have hlast : pre.toList = [] ∨ pre.toList.getLast? = some '\n' := by
    rcases hline with rfl | hline
    · exact Or.inl rfl
    · exact Or.inr hline
  have hbudget : fetched.length + includeBudget - fetched₁.length = left + 1 := by omega
  refine ⟨?_, fun hlimit hagrees => ?_⟩
  · obtain ⟨lexeme, hrequest⟩ := segment_include hpath s₁.endLine post.toList
    have hsplit : (pre ++ "#include \"" ++ path ++ "\"" ++ post).toList =
        pre.toList ++ ("#include \"".toList ++ (path.toList ++ '"' :: post.toList)) := by
      simp [String.toList_append]
    rw [ofText, hsplit, ofChars_append hlast hpre, hbudget, hrequest,
      resume_includes lexeme s₁.endLine post.toList (by simpa using htext), Scan.after_nil]
    simp [rest, String.toList_append]
  · have hsplit : (pre ++ text ++ post).toList = pre.toList ++ (text ++ post).toList := by
      simp [String.toList_append]
    obtain ⟨hreads, hused⟩ := reads_of_ofChars hpre
    have hend : s₁.endLine = 1 + k := hreads.endLine_eq hused
    have hpasted := ofChars_append hlast hpre (text ++ post).toList
    rw [hend, hbudget, segment_lowered] at hpasted
    have hrest : rest = resume (some answer) left (fetched₁ ++ [path])
        (segment 1 (text ++ post).toList) := ofChars_eq_resume _ _ _ _
    rw [hrest] at hlimit
    have hlowers := resume_lowered hagrees (Nat.le_succ left) k hlimit
    rw [← hrest] at hlowers
    exact ⟨_, by rw [ofText, hsplit, hpasted], hlowers.unlined, hlowers⟩

/-- A host that knows a short text, and one that breaks off in a literal. -/
def twoTexts : Fetcher := fun _ path =>
  if path = "c" then .ok "c" else if path = "open" then .ok "a\n'b" else .error "no such text"

/-- A literal that begins in an included text ends behind the request for it. -/
theorem include_eq_paste_literal :
    ∃ rest pasted : Scan,
      rest.outcome = .ok ⟨[⟨.ident "a", "a", 1⟩, ⟨.quoted "b d", "'b d'", 2⟩,
        ⟨.ident "e", "e", 2⟩], 2⟩ ∧
      ofText (some twoTexts) []
          ("#include \"c\"\n" ++ "#include \"" ++ "open" ++ "\"" ++ " d' e") =
        rest.after [⟨.ident "c", "c", 1⟩] ∧
      ofText (some twoTexts) [] ("#include \"c\"\n" ++ "a\n'b" ++ " d' e") =
        pasted.after [⟨.ident "c", "c", 1⟩] ∧
      unlinedOutcome pasted.outcome = unlinedOutcome rest.outcome := by
  have houtcome : (ofText (some twoTexts) [] "#include \"c\"\n").outcome =
      .ok ⟨[⟨.ident "c", "c", 1⟩], 2⟩ := eq_ok_of_toOption (by decide +kernel)
  have hfetched : (ofText (some twoTexts) [] "#include \"c\"\n").fetched = ["c"] := by
    decide +kernel
  have hpre : ofText (some twoTexts) [] "#include \"c\"\n" =
      ⟨.ok ⟨[⟨.ident "c", "c", 1⟩], 2⟩, ["c"]⟩ := by rw [← houtcome, ← hfetched]
  obtain ⟨hincluded, hagain⟩ := include_eq_paste twoTexts [] ["c"] "#include \"c\"\n" " d' e" "open"
    "a\n'b" _ hpre (Or.inr (by decide +kernel)) (by decide) (by simp) rfl
  have hrest : (ofChars (some twoTexts) 62 ["c", "open"] ("a\n'b" ++ " d' e").toList).outcome =
      .ok ⟨[⟨.ident "a", "a", 1⟩, ⟨.quoted "b d", "'b d'", 2⟩, ⟨.ident "e", "e", 2⟩], 2⟩ :=
    eq_ok_of_toOption (by decide +kernel)
  have hlimit : ¬ (ofChars (some twoTexts) 62 ["c", "open"]
      ("a\n'b" ++ " d' e").toList).HitsLimit := by
    rintro ⟨error, herror, -⟩
    rw [hrest] at herror
    cases herror
  obtain ⟨pasted, hpasted, hunlined, -⟩ := hagain hlimit fun _ _ => rfl
  exact ⟨_, pasted, hrest, hincluded, hpasted, hunlined⟩

/-- A host that knows a text of two lines and one without a line end. -/
def twoLines : Fetcher := fun _ path =>
  if path = "a" then .ok "x\ny\n" else if path = "p" then .ok "z" else .error "no such text"

/-- The line ends of an included text count, too. The one text that is included here ends in front
of a single line end, and still the pasted `z` stands three lines further down than the included
one. -/
theorem pasted_below_included_lines :
    (∃ lexeme, segment 1 "#include \"a\"\n".toList = ⟨[], .includes "a" lexeme 1 ['\n']⟩) ∧
      (ofText (some twoLines) [] "#include \"a\"\n").fetched = ["a"] ∧
      (ofText (some twoLines) [] ("#include \"a\"\n" ++ "#include \"p\"")).outcome =
        .ok ⟨[⟨.ident "x", "x", 1⟩, ⟨.ident "y", "y", 2⟩, ⟨.ident "z", "z", 1⟩], 1⟩ ∧
      (ofText (some twoLines) [] ("#include \"a\"\n" ++ "z")).outcome =
        .ok ⟨[⟨.ident "x", "x", 1⟩, ⟨.ident "y", "y", 2⟩, ⟨.ident "z", "z", 4⟩], 4⟩ ∧
      lineEndsRead twoLines [] "#include \"a\"\n" = 3 ∧
      4 ≠ 1 + (['\n'] : List Char).count '\n' := by
  refine ⟨?_, ?_, ?_, ?_, ?_, ?_⟩
  · exact @segment_include "a".toList (by simp) 1 ['\n']
  · decide +kernel
  · exact eq_ok_of_toOption (by decide +kernel)
  · exact eq_ok_of_toOption (by decide +kernel)
  · decide +kernel
  · decide

end Stream

end Litany
