import Litany.Proofs.Outcome
import Litany.Proofs.Token.Anatomy
import Litany.Token.Stream

/-!
# Where tokens stand

Reading a text is moving a cursor through it. `Passes` describes a stretch of the way: the cursor
steps over layout and tokens, each taking up the text where the last one left it, and every token
carries the line of the cursor in front of it. A text that asks for no other is either passed to
its end, or up to where no lexeme begins; in both cases nothing of it is lost, and lines are
counted right. The main statement is `Stream.placed_ofText`.
-/

namespace Litany

open Cut (Layout Spells Requests Breaks)

/-- The line that the cursor is on behind the given characters. -/
def lineBehind (front : List Char) : Nat :=
  1 + front.count '\n'

theorem lineBehind_append (front taken : List Char) :
    lineBehind (front ++ taken) = lineBehind front + taken.count '\n' := by
  simp only [lineBehind, List.count_append]
  omega

theorem Cut.Layout.ne_nil {piece behind : List Char} (h : Layout piece behind) : piece ≠ [] := by
  cases h <;> simp

/-- The cursor moves from between `front` and `text` to between `front'` and `text'`, over the
given tokens and the layout around them. -/
inductive Passes :
    (front text : List Char) → List Token → (front' text' : List Char) → Prop
  | stay (front text : List Char) : Passes front text [] front text
  | layout {front piece text front' text' : List Char} {tokens : List Token} :
      Layout piece text → Passes (front ++ piece) text tokens front' text' →
      Passes front (piece ++ text) tokens front' text'
  | token {front text front' text' : List Char} {t : Token} {tokens : List Token} :
      Spells t.kind t.lexeme.toList text → t.line = lineBehind front →
      Passes (front ++ t.lexeme.toList) text tokens front' text' →
      Passes front (t.lexeme.toList ++ text) (t :: tokens) front' text'

/-- The cursor moves through one text. -/
private theorem Passes.append_eq {front text front' text' : List Char} {tokens : List Token}
    (h : Passes front text tokens front' text') : front' ++ text' = front ++ text := by
  induction h with
  | stay => rfl
  | layout _ _ ih => rw [ih, List.append_assoc]
  | token _ _ _ ih => rw [ih, List.append_assoc]

/-- Every token on the way is spelled in front of some text. -/
theorem Passes.spells_of_mem {front text front' text' : List Char} {tokens : List Token}
    (h : Passes front text tokens front' text') :
    ∀ t ∈ tokens, ∃ behind, Spells t.kind t.lexeme.toList behind := by
  induction h with
  | stay => simp
  | layout _ _ ih => exact ih
  | token hspells _ _ ih => exact List.forall_mem_cons.2 ⟨⟨_, hspells⟩, ih⟩

/-- No token on the way is longer than the text. -/
private theorem Passes.length_lexeme_le {front text front' text' : List Char} {tokens : List Token}
    (h : Passes front text tokens front' text') :
    ∀ t ∈ tokens, t.lexeme.toList.length ≤ text.length := by
  induction h with
  | stay => simp
  | layout _ _ ih =>
    intro t ht
    have := ih t ht
    rw [List.length_append]
    omega
  | token _ _ _ ih =>
    rw [List.forall_mem_cons]
    refine ⟨by simp, fun t ht => ?_⟩
    have := ih t ht
    rw [List.length_append]
    omega

/-- A token that is as long as the text is all of it. -/
theorem Passes.spells_of_whole {front front' text' : List Char} {t : Token}
    (h : Passes front t.lexeme.toList [t] front' text') : Spells t.kind t.lexeme.toList [] := by
  generalize htext : t.lexeme.toList = text at h
  cases h with
  | @layout _ piece rest _ _ _ hlayout hrest =>
    -- there is no room for a piece of layout in front of the token
    have hroom := hrest.length_lexeme_le t List.mem_cons_self
    have hpiece := List.length_pos_iff.2 hlayout.ne_nil
    rw [htext, List.length_append] at hroom
    omega
  | @token _ rest _ _ _ _ hspells =>
    have hrest : rest = [] := by simpa using htext
    rw [hrest] at hspells ⊢
    rwa [List.append_nil]

/-- What the ending of a segment says about the place that its tokens lead to. -/
def Segment.Placed (front text : List Char) (s : Segment) : Prop :=
  match s.ending with
  | .finished last =>
      Passes front text s.tokens (front ++ text) [] ∧ last = lineBehind (front ++ text)
  | .includes path lexeme line rest => ∃ before,
      Passes front text s.tokens before (lexeme.toList ++ rest) ∧
        line = lineBehind before ∧ Requests path lexeme.toList
  | .fault e => ∃ before behind,
      Passes front text s.tokens before (e.text.toList ++ behind) ∧
        e.line = lineBehind before ∧ Breaks e.cause e.text.toList behind

namespace Segment

variable {front text taken : List Char} {s : Segment}

/-- What passes a later part passes the whole, if one step leads to the later part. -/
theorem Placed.step {tokens : List Token} (h : s.Placed (front ++ taken) text)
    (hstep : ∀ {front' text'}, Passes (front ++ taken) text s.tokens front' text' →
      Passes front (taken ++ text) tokens front' text') :
    Placed front (taken ++ text) ⟨tokens, s.ending⟩ := by
  obtain ⟨before, ending⟩ := s
  cases ending with
  | finished last =>
    obtain ⟨hpasses, hlast⟩ := h
    rw [List.append_assoc] at hpasses hlast
    exact ⟨hstep hpasses, hlast⟩
  | includes path lexeme line rest =>
    obtain ⟨place, hpasses, hrest⟩ := h
    exact ⟨place, hstep hpasses, hrest⟩
  | fault e =>
    obtain ⟨place, behind, hpasses, hrest⟩ := h
    exact ⟨place, behind, hstep hpasses, hrest⟩

theorem Placed.exists_passes (h : s.Placed front text) :
    ∃ front' text', Passes front text s.tokens front' text' := by
  rw [Placed] at h
  split at h
  · exact ⟨_, _, h.1⟩
  · obtain ⟨before, hpasses, -⟩ := h
    exact ⟨_, _, hpasses⟩
  · obtain ⟨before, behind, hpasses, -⟩ := h
    exact ⟨_, _, hpasses⟩

end Segment

/-- The tokens of a segment, and what ends it, stand where the characters in front of them say. -/
theorem placed_segment (front text : List Char) :
    (segment (lineBehind front) text).Placed front text := by
  generalize hline : lineBehind front = line
  fun_induction segment line text generalizing front with
  | case1 line =>
    subst hline
    refine ⟨?_, by rw [List.append_nil]⟩
    rw [List.append_nil]
    exact .stay front []
  | case2 line c cs next hlexeme ih =>
    have hform := formed_cut c cs
    rw [Cut.Formed, hlexeme] at hform
    have hnext := ih (front ++ (cut c cs).taken) (by rw [lineBehind_append, hline])
    have hstep := hnext.step fun hpasses => .layout hform hpasses
    rwa [Cut.taken_append_rest] at hstep
  | case3 line c cs lexeme next kind hlexeme later ih =>
    have hform := formed_cut c cs
    rw [Cut.Formed, hlexeme] at hform
    have hnext := ih (front ++ (cut c cs).taken) (by rw [lineBehind_append, hline])
    have htext : lexeme.toList = (cut c cs).taken := String.toList_ofList
    rw [← htext] at hform hnext
    let t : Token := ⟨kind, lexeme, line⟩
    have hstep := hnext.step fun hpasses => Passes.token (t := t) hform hline.symm hpasses
    rwa [htext, Cut.taken_append_rest] at hstep
  | case4 line c cs lexeme path hlexeme =>
    have hform := formed_cut c cs
    rw [Cut.Formed, hlexeme] at hform
    have htext : lexeme.toList = (cut c cs).taken := String.toList_ofList
    refine ⟨front, ?_, hline.symm, by rwa [htext]⟩
    rw [htext, Cut.taken_append_rest]
    exact .stay front (c :: cs)
  | case5 line c cs lexeme cause hlexeme =>
    have hform := formed_cut c cs
    rw [Cut.Formed, hlexeme] at hform
    have htext : lexeme.toList = (cut c cs).taken := String.toList_ofList
    refine ⟨front, (cut c cs).rest, ?_, hline.symm, by rwa [htext]⟩
    rw [htext, Cut.taken_append_rest]
    exact .stay front (c :: cs)

/-- Whether a segment ends at a request for another text. -/
def Segment.End.asks : Segment.End → Bool
  | .includes .. => true
  | .finished _ | .fault _ => false

namespace Stream

/-- A text that asks for no other is passed to its end, which is on the line that the line ends in
it make, or up to a place where no lexeme begins. The fault then carries the line of that place
and the text from there to where the fault shows. -/
theorem placed_ofText (fetch : Option Fetcher) (fetched : List String) (text : String)
    (hself : (segment 1 text.toList).ending.asks = false) :
    (∀ stream, (ofText fetch fetched text).outcome = .ok stream →
      Passes [] text.toList stream.tokens text.toList [] ∧
        stream.endLine = lineBehind text.toList) ∧
    (∀ failure, (ofText fetch fetched text).outcome = .error failure →
      ∃ e tokens before behind, failure = .lexical e ∧
        text.toList = before ++ e.text.toList ++ behind ∧
        Passes [] text.toList tokens before (e.text.toList ++ behind) ∧
        e.line = lineBehind before ∧ Breaks e.cause e.text.toList behind) := by
  have hplaced : (segment 1 text.toList).Placed [] text.toList := placed_segment [] text.toList
  rw [Segment.Placed] at hplaced
  rw [ofText, ofChars]
  cases hending : (segment 1 text.toList).ending with
  | finished last =>
    rw [hending] at hplaced
    constructor
    · intro stream h
      cases h
      exact hplaced
    · intro failure h
      cases h
  | includes path lexeme line rest =>
    rw [hending] at hself
    cases hself
  | fault e =>
    rw [hending] at hplaced
    obtain ⟨before, behind, hpasses, hline, hbreaks⟩ := hplaced
    constructor
    · intro stream h
      cases h
    · intro failure h
      cases h
      refine ⟨e, _, before, behind, rfl, ?_, hpasses, hline, hbreaks⟩
      rw [List.append_assoc]
      exact hpasses.append_eq.symm

/-- A literal, a comment and a block of foreign code with line ends inside, and a name. -/
def foldedText : String := "'\\\n' /*\n*/ js\n\x7b\n\x7d; // x\nb"

/-- Line ends inside of literals, comments and foreign code are counted, and those inside of what
breaks off are not. -/
theorem placed_ofText_inner_lines :
    (∃ stream, (ofText none [] foldedText).outcome = .ok stream ∧
      stream.tokens.map Token.line = [1, 3, 6] ∧
      Passes [] foldedText.toList stream.tokens foldedText.toList [] ∧
      stream.endLine = lineBehind foldedText.toList) ∧
    (∃ e before behind, (ofText none [] "a\n js\n\x7b \x7d\n b").outcome = .error (.lexical e) ∧
      "a\n js\n\x7b \x7d\n b".toList = before ++ e.text.toList ++ behind ∧
      e.line = lineBehind before ∧ Breaks e.cause e.text.toList behind ∧
      e = ⟨.unterminatedForeign, "js\n\x7b \x7d\n ", 2⟩) := by
  constructor
  · have hrun : (ofText none [] foldedText).outcome =
        .ok ⟨[⟨.quoted "\\\n", "'\\\n'", 1⟩, ⟨.foreign "\n", "js\n\x7b\n\x7d;", 3⟩,
          ⟨.ident "b", "b", 6⟩], 6⟩ := eq_ok_of_toOption (by decide +kernel)
    obtain ⟨hpasses, hend⟩ := (placed_ofText none [] _ (by decide +kernel)).1 _ hrun
    exact ⟨_, hrun, rfl, hpasses, hend⟩
  · have hrun : (ofText none [] "a\n js\n\x7b \x7d\n b").outcome =
        .error (.lexical ⟨.unterminatedForeign, "js\n\x7b \x7d\n ", 2⟩) := by
      rw [ofText, ofChars]
      decide +kernel
    obtain ⟨e, tokens, before, behind, he, htext, -, hline, hbreaks⟩ :=
      (placed_ofText none [] _ (by decide +kernel)).2 _ hrun
    cases he
    exact ⟨_, before, behind, hrun, htext, hline, hbreaks, rfl⟩

end Stream

end Litany
