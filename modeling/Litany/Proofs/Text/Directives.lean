import Litany.Proofs.Token.Anatomy
import Litany.Template

/-!
# The parts of a template

A template is a row of parts, each of which is a plain character or a directive: a percent sign, a
specification and a closing letter. Behind the last part there may be a specification that the end
of the text cuts off. Every template is made up in this way, and in one way only
(`existsUnique_consists`).

What a template prints is put together from what its parts print. The first placeholders take the
arguments in order, each of them one; a placeholder for which none is left prints as it is written,
and arguments that are left over are printed behind the text. The main statement is
`format_compositional`.
-/

namespace Litany

namespace Template

open Cut (Stops stops_nil stops_cons stops_dropWhile all_takeWhile takeWhile_run dropWhile_run)

/-! ### Specifications -/

/-- A specification as it is written: flags, the digits of a width, and perhaps the digits behind a
point. A width does not begin with a zero, for that is a flag. -/
structure Spelling where
  flags : List Char
  width : List Char
  places : Option (List Char)
  isFlag_of_mem : ∀ c ∈ flags, isFlag c = true
  stops_width : Stops isFlag width
  isDigit_of_mem : ∀ c ∈ width, c.isDigit = true
  isDigit_of_places : ∀ digits ∈ places, ∀ c ∈ digits, c.isDigit = true

namespace Spelling

/-- The point of a specification with the digits behind it. -/
def pointed : Option (List Char) → List Char
  | none => []
  | some digits => '.' :: digits

/-- The characters of a specification. -/
def text (s : Spelling) : List Char :=
  s.flags ++ s.width ++ pointed s.places

/-- The meaning of a specification. -/
def spec (s : Spelling) : Spec :=
  ⟨s.flags.contains '-', s.flags.contains '0', capped s.width, s.places.map capped⟩

/-- The text behind a specification does not go on with it. -/
def Ends (s : Spelling) (behind : List Char) : Prop :=
  match s.places with
  | some _ => Stops Char.isDigit behind
  | none => Stops (fun c => c.isDigit || c == '.') behind ∧ (s.width = [] → Stops isFlag behind)

/-- Only the first character behind a specification matters. -/
private theorem ends_cons {s : Spelling} {c : Char} (rest : List Char) :
    s.Ends (c :: rest) ↔ s.Ends [c] := by
  unfold Ends
  cases s.places <;> simp

/-- Nothing follows a specification that the end of the text cuts off. -/
private theorem ends_nil (s : Spelling) : s.Ends [] := by
  unfold Ends
  cases s.places <;> simp

/-- The digits behind a point, if a text begins with one. -/
def places? : List Char → Option (List Char)
  | '.' :: behind => some (behind.takeWhile Char.isDigit)
  | _ => none

private theorem places?_of_ne {cs : List Char} (h : ∀ behind, cs ≠ '.' :: behind) :
    places? cs = none := by
  unfold places?
  split
  · exact absurd rfl (h _)
  · rfl

/-- The specification that a text begins with. -/
def ofChars (cs : List Char) : Spelling where
  flags := cs.takeWhile isFlag
  width := (cs.dropWhile isFlag).takeWhile Char.isDigit
  places := places? ((cs.dropWhile isFlag).dropWhile Char.isDigit)
  isFlag_of_mem := all_takeWhile cs
  stops_width := by
    have hstop := stops_dropWhile (p := isFlag) cs
    cases hrest : cs.dropWhile isFlag with
    | nil => simp
    | cons c rest =>
      rw [hrest, stops_cons] at hstop
      rw [List.takeWhile_cons]
      split
      · exact stops_cons.mpr hstop
      · exact stops_nil
  isDigit_of_mem := all_takeWhile _
  isDigit_of_places := by
    intro digits hdigits
    unfold places? at hdigits
    split at hdigits
    · obtain rfl := Option.some.inj hdigits
      exact all_takeWhile _
    · cases hdigits

variable {s : Spelling} {behind : List Char}

/-- Flags end where the width, the point or the text behind the specification begins. -/
private theorem Ends.stops_flags (h : s.Ends behind) :
    Stops isFlag (s.width ++ (pointed s.places ++ behind)) := by
  have hwidth := s.stops_width
  cases hw : s.width with
  | cons c rest =>
    rw [hw, stops_cons] at hwidth
    exact stops_cons.mpr hwidth
  | nil =>
    unfold Ends at h
    cases hp : s.places with
    | some digits => exact stops_cons.mpr (by decide)
    | none =>
      rw [hp] at h
      exact h.2 hw

private theorem Ends.stops_digits (h : s.Ends behind) :
    Stops Char.isDigit (pointed s.places ++ behind) := by
  unfold Ends at h
  cases hp : s.places with
  | some digits => exact stops_cons.mpr (by decide)
  | none =>
    rw [hp] at h
    intro c hc
    have hnot := h.1 c hc
    rw [Bool.or_eq_false_iff] at hnot
    exact hnot.1

private theorem Ends.places_eq (h : s.Ends behind) :
    places? (pointed s.places ++ behind) = s.places := by
  have hdigits := s.isDigit_of_places
  unfold Ends at h
  cases hp : s.places with
  | some digits =>
    rw [hp] at h hdigits
    simp only [pointed, List.cons_append, places?]
    rw [takeWhile_run (hdigits digits rfl) h]
  | none =>
    rw [hp] at h
    refine places?_of_ne fun rest hrest => ?_
    have hnot : Stops (fun c => c.isDigit || c == '.') ('.' :: rest) := hrest ▸ h.1
    simp at hnot

/-- What is written as a specification is read as that specification. -/
theorem ofChars_append (h : s.Ends behind) : ofChars (s.text ++ behind) = s := by
  have htext : s.text ++ behind = s.flags ++ (s.width ++ (pointed s.places ++ behind)) := by
    simp [text]
  have hflags := takeWhile_run s.isFlag_of_mem h.stops_flags
  have hrest := dropWhile_run s.isFlag_of_mem h.stops_flags
  have hwidth := takeWhile_run s.isDigit_of_mem h.stops_digits
  have hbehind := dropWhile_run s.isDigit_of_mem h.stops_digits
  have hplaces := h.places_eq
  unfold ofChars
  simp only [htext, hflags, hrest, hwidth, hbehind, hplaces]

private theorem opening_eq (cs : List Char) :
    (opening cs).raw = (ofChars cs).text ∧ (opening cs).spec = (ofChars cs).spec ∧
      (ofChars cs).Ends (opening cs).rest := by
  have hwidth := stops_dropWhile (p := Char.isDigit) (cs.dropWhile isFlag)
  unfold opening ofChars text spec Ends
  dsimp only
  by_cases hpoint : ∃ rest, (cs.dropWhile isFlag).dropWhile Char.isDigit = '.' :: rest
  · obtain ⟨rest, hrest⟩ := hpoint
    rw [hrest]
    exact ⟨rfl, rfl, stops_dropWhile rest⟩
  replace hpoint := not_exists.mp hpoint
  rw [places?_of_ne hpoint]
  split
  · rename_i rest hrest
    exact absurd hrest (hpoint rest)
  · dsimp only
    refine ⟨(List.append_nil _).symm, rfl, ?_, fun hnone => ?_⟩
    · intro c hc
      obtain ⟨rest, hrest⟩ := List.head?_eq_some_iff.mp hc
      have hne : c ≠ '.' := by
        rintro rfl
        exact hpoint rest hrest
      simp [hwidth c hc, hne]
    · -- without a width, what is behind it is what is behind the flags
      have hwhole := List.takeWhile_append_dropWhile (p := Char.isDigit) (l := cs.dropWhile isFlag)
      rw [hnone, List.nil_append] at hwhole
      rw [hwhole]
      exact stops_dropWhile cs

/-- Reading a specification takes what is written of it. -/
private theorem opening_append (h : s.Ends behind) :
    opening (s.text ++ behind) = ⟨s.text, s.spec, behind⟩ := by
  obtain ⟨hraw, hspec, -⟩ := opening_eq (s.text ++ behind)
  have hwhole := raw_append_rest_opening (s.text ++ behind)
  rw [ofChars_append h] at hraw hspec
  rw [hraw, List.append_cancel_left_eq] at hwhole
  generalize opening (s.text ++ behind) = o at *
  obtain ⟨raw, spec, rest⟩ := o
  simp_all

end Spelling

/-! ### Parts -/

/-- A percent sign, a specification and the letter that closes it. -/
structure Directive where
  spelling : Spelling
  letter : Char
  ends : spelling.Ends [letter]

/-- The letters of placeholders. -/
def letters : List Char :=
  ['d', 'i', 'u', 'x', 'X', 'c', 'f', 's']

private theorem isSome_ofChar? (c : Char) : (Conversion.ofChar? c).isSome = letters.contains c := by
  unfold Conversion.ofChar? letters
  split <;> simp_all

/-- A part of a template. -/
inductive Part where
  | char (c : Char) (plain : c ≠ '%')
  | directive (d : Directive)

namespace Directive

/-- The directive as it is written. -/
def text (d : Directive) : List Char :=
  '%' :: d.spelling.text ++ [d.letter]

/-- Whether a directive is a placeholder. -/
def takes (d : Directive) : Bool :=
  letters.contains d.letter

/-- What a placeholder prints of an argument: its conversion, brought to the width. -/
def shown (d : Directive) (v : Value) : List Char :=
  pad d.spelling.spec (convert ((Conversion.ofChar? d.letter).getD .display) d.spelling.spec v)

private theorem text_append (d : Directive) (behind : List Char) :
    d.text ++ behind = '%' :: (d.spelling.text ++ d.letter :: behind) := by
  simp [text]

/-- The piece that is read from a directive. -/
def piece (d : Directive) : Piece :=
  closing ⟨d.spelling.text, d.spelling.spec, []⟩ d.letter

private theorem pieces_append (d : Directive) (behind : List Char) :
    pieces (d.text ++ behind) = d.piece :: pieces behind := by
  have hopening := Spelling.opening_append ((Spelling.ends_cons behind).mpr d.ends)
  rw [d.text_append, pieces, if_pos rfl]
  split
  · rename_i hrest _
    rw [hopening] at hrest
    cases hrest
  · rename_i letter rest hrest _
    rw [hopening] at hrest
    cases hrest
    rw [hopening]
    rfl

end Directive

namespace Part

/-- The characters of a part. -/
def text : Part → List Char
  | char c _ => [c]
  | directive d => d.text

/-- Whether a part is a placeholder. -/
def takes : Part → Bool
  | char _ _ => false
  | directive d => d.takes

/-- The piece that is read from a part. -/
def piece : Part → Piece
  | char c _ => .char c
  | directive d => d.piece

private theorem pieces_append (p : Part) (behind : List Char) :
    pieces (p.text ++ behind) = p.piece :: pieces behind := by
  cases p with
  | char c plain =>
    change pieces (c :: behind) = _
    rw [pieces, if_neg plain]
    rfl
  | directive d => exact d.pieces_append behind

end Part

/-- The characters of parts in a row. -/
def textOf (parts : List Part) : List Char :=
  parts.flatMap Part.text

/-- How many of the parts are placeholders. -/
def holes (parts : List Part) : Nat :=
  parts.countP Part.takes

private theorem pieces_textOf (parts : List Part) (behind : List Char) :
    pieces (textOf parts ++ behind) = parts.map Part.piece ++ pieces behind := by
  induction parts with
  | nil => rfl
  | cons p parts ih =>
    have htext : textOf (p :: parts) ++ behind = p.text ++ (textOf parts ++ behind) := by
      simp [textOf]
    rw [htext, p.pieces_append, ih]
    rfl

/-! ### Every template is a row of parts -/

/-- What stands behind the last part: nothing, or a specification without its letter. -/
inductive Cutoff : List Char → Prop
  | whole : Cutoff []
  | spelling (s : Spelling) : Cutoff ('%' :: s.text)

/-- A template consists of the given parts and what is cut off behind them. It does not end inside
of a specification if nothing is. -/
def Consists (template : String) (parts : List Part) (tail : List Char) : Prop :=
  template.toList = textOf parts ++ tail ∧ Cutoff tail

private theorem pieces_spelling (s : Spelling) :
    pieces ('%' :: s.text) = [.verbatim ('%' :: s.text)] := by
  have hopening := Spelling.opening_append s.ends_nil
  rw [List.append_nil] at hopening
  rw [pieces, if_pos rfl]
  split
  · rfl
  · rename_i letter rest hrest _
    rw [hopening] at hrest
    cases hrest

private theorem exists_parts (cs : List Char) :
    ∃ parts tail, cs = textOf parts ++ tail ∧ Cutoff tail := by
  fun_induction pieces cs with
  | case1 => exact ⟨[], [], rfl, .whole⟩
  | case2 cs _ hrest =>
    -- the specification takes all that is left
    have hwhole := raw_append_rest_opening cs
    obtain ⟨hraw, -, -⟩ := Spelling.opening_eq cs
    rw [hrest, List.append_nil, hraw] at hwhole
    exact ⟨[], '%' :: cs, rfl, hwhole ▸ .spelling (.ofChars cs)⟩
  | case3 cs letter rest _ hrest _ ih =>
    obtain ⟨parts, tail, rfl, htail⟩ := ih
    have hwhole := raw_append_rest_opening cs
    obtain ⟨hraw, -, hends⟩ := Spelling.opening_eq cs
    rw [hrest, Spelling.ends_cons] at hends
    rw [hrest, hraw] at hwhole
    refine ⟨.directive ⟨.ofChars cs, letter, hends⟩ :: parts, tail, ?_, htail⟩
    calc '%' :: cs
        = '%' :: ((Spelling.ofChars cs).text ++ letter :: (textOf parts ++ tail)) := by rw [hwhole]
      _ = _ := by simp [textOf, Part.text, Directive.text]
  | case4 c cs hplain ih =>
    obtain ⟨parts, tail, rfl, htail⟩ := ih
    exact ⟨.char c hplain :: parts, tail, by simp [textOf, Part.text], htail⟩

/-- Two specifications that a text begins with are the same. -/
theorem Spelling.unique {s s' : Spelling} {behind behind' : List Char} (h : s.Ends behind)
    (h' : s'.Ends behind') (htext : s.text ++ behind = s'.text ++ behind') :
    s = s' ∧ behind = behind' := by
  have hsame : s = s' := by rw [← ofChars_append h, htext, ofChars_append h']
  subst hsame
  exact ⟨rfl, List.append_cancel_left htext⟩

/-- Two parts that a text begins with are the same. -/
theorem Part.unique {p p' : Part} {behind behind' : List Char}
    (h : p.text ++ behind = p'.text ++ behind') : p = p' ∧ behind = behind' := by
  cases p with
  | char c plain =>
    change c :: behind = _ at h
    cases p' with
    | char c' plain' =>
      obtain ⟨rfl, rfl⟩ := List.cons.inj h
      exact ⟨rfl, rfl⟩
    | directive d' =>
      obtain ⟨hc, -⟩ := List.cons.inj (h.trans (d'.text_append behind'))
      exact absurd hc plain
  | directive d =>
    have hd := (d.text_append behind).symm.trans h
    cases p' with
    | char c' plain' =>
      obtain ⟨hc, -⟩ := List.cons.inj hd
      exact absurd hc.symm plain'
    | directive d' =>
      obtain ⟨-, hbehind⟩ := List.cons.inj (hd.trans (d'.text_append behind'))
      obtain ⟨s, letter, ends⟩ := d
      obtain ⟨s', letter', ends'⟩ := d'
      obtain ⟨rfl, hletter⟩ := Spelling.unique ((Spelling.ends_cons behind).mpr ends)
        ((Spelling.ends_cons behind').mpr ends') hbehind
      obtain ⟨rfl, rfl⟩ := List.cons.inj hletter
      exact ⟨rfl, rfl⟩

/-- What is cut off begins with no part. -/
private theorem Cutoff.ne_append {tail : List Char} (h : Cutoff tail) (p : Part)
    (behind : List Char) : tail ≠ p.text ++ behind := by
  intro htail
  cases h with
  | whole => cases p <;> cases htail
  | spelling s =>
    cases p with
    | char c plain =>
      obtain ⟨hc, -⟩ := List.cons.inj htail
      exact plain hc.symm
    | directive d =>
      -- the same specification would end at a letter and at the end of the text
      obtain ⟨-, hbehind⟩ := List.cons.inj (htail.trans (d.text_append behind))
      rw [← List.append_nil s.text] at hbehind
      obtain ⟨-, hletter⟩ := Spelling.unique s.ends_nil ((Spelling.ends_cons behind).mpr d.ends)
        hbehind
      cases hletter

private theorem parts_unique {parts parts' : List Part} {tail tail' : List Char}
    (htail : Cutoff tail)
    (htail' : Cutoff tail') (h : textOf parts ++ tail = textOf parts' ++ tail') :
    parts = parts' ∧ tail = tail' := by
  induction parts generalizing parts' with
  | nil =>
    cases parts' with
    | nil => exact ⟨rfl, h⟩
    | cons p' parts' =>
      refine absurd ?_ (htail.ne_append p' (textOf parts' ++ tail'))
      simpa [textOf] using h
  | cons p parts ih =>
    cases parts' with
    | nil =>
      refine absurd ?_ (htail'.ne_append p (textOf parts ++ tail))
      simpa [textOf] using h.symm
    | cons p' parts' =>
      have hparts : p.text ++ (textOf parts ++ tail) = p'.text ++ (textOf parts' ++ tail') := by
        simpa [textOf] using h
      -- the first parts agree, and what is behind them is again two rows of one text
      obtain ⟨rfl, hrest⟩ := Part.unique hparts
      obtain ⟨rfl, rfl⟩ := ih hrest
      exact ⟨rfl, rfl⟩

/-- Every template consists of parts and what is cut off behind them, in one way only. -/
theorem existsUnique_consists (template : String) :
    ∃! row : List Part × List Char, Consists template row.1 row.2 := by
  obtain ⟨parts, tail, htext, htail⟩ := exists_parts template.toList
  refine ⟨(parts, tail), ⟨htext, htail⟩, ?_⟩
  rintro ⟨parts', tail'⟩ ⟨htext', htail'⟩
  obtain ⟨rfl, rfl⟩ := parts_unique htail htail' (htext.symm.trans htext')
  rfl

/-! ### Filling in the arguments -/

/-- How many of the pieces are placeholders. -/
def holesOf (ps : List Piece) : Nat :=
  ps.countP fun p =>
    match p with
    | .hole _ _ _ => true
    | _ => false

/-- Pieces in a row print one after the other. The first ones take as many arguments as they have
placeholders, if there are so many, and leave the others to those behind. -/
private theorem fill_append (ps qs : List Piece) (arguments : List Value) :
    fill (ps ++ qs) arguments =
      fill ps (arguments.take (holesOf ps)) ++ fill qs (arguments.drop (holesOf ps)) := by
  induction ps generalizing arguments with
  | nil => simp [holesOf, fill]
  | cons p ps ih =>
    cases p with
    | char c => simp [holesOf, fill, ih arguments]
    | percent => simp [holesOf, fill, ih arguments]
    | verbatim raw => simp [holesOf, fill, ih arguments]
    | hole raw spec conversion =>
      -- without arguments both rows copy their placeholders
      cases arguments with
      | nil => simp [holesOf, fill, ih []]
      | cons v arguments => simp [holesOf, fill, ih arguments]

/-- The pieces of a directive that is a placeholder, and of one that is none. -/
private theorem Directive.piece_eq (d : Directive) :
    d.piece = if d.takes then .hole d.text d.spelling.spec
        ((Conversion.ofChar? d.letter).getD .display)
      else if d.letter = '%' then .percent else .verbatim d.text := by
  have hletters := isSome_ofChar? d.letter
  unfold piece closing takes
  rw [← hletters]
  by_cases hpercent : d.letter = '%'
  · rw [if_pos hpercent, if_neg, if_pos hpercent]
    rw [hpercent]
    decide
  · rw [if_neg hpercent, if_neg hpercent]
    cases Conversion.ofChar? d.letter <;> rfl

private theorem holesOf_map_piece (parts : List Part) :
    holesOf (parts.map Part.piece) = holes parts := by
  rw [holesOf, holes, List.countP_map]
  congr 1
  funext p
  cases p with
  | char c plain => rfl
  | directive d =>
    simp only [Function.comp_apply, Part.piece, Part.takes, d.piece_eq]
    cases d.takes with
    | true => rfl
    | false => by_cases hpercent : d.letter = '%' <;> simp [hpercent]

/-- Arguments without pieces are printed one after the other. -/
def surplus (arguments : List Value) : String :=
  String.ofList (arguments.flatMap fun v => v.display.toList)

/-- A text behind some parts is printed with the arguments that they leave. -/
private theorem format_textOf (parts : List Part) (behind : List Char) (arguments : List Value) :
    format (String.ofList (textOf parts ++ behind)) arguments =
      format (String.ofList (textOf parts)) (arguments.take (holes parts)) ++
        format (String.ofList behind) (arguments.drop (holes parts)) := by
  have hparts := pieces_textOf parts []
  rw [List.append_nil, pieces, List.append_nil] at hparts
  simp only [format, String.toList_ofList]
  rw [pieces_textOf, hparts, fill_append, holesOf_map_piece, String.ofList_append]

/-- A placeholder prints its argument, or itself if there is none, and leaves the other arguments to
the text behind it. -/
theorem format_directive {d : Directive} (hd : d.takes = true) (behind : List Char)
    (arguments : List Value) :
    format (String.ofList (d.text ++ behind)) arguments =
      String.ofList (arguments.head?.elim d.text d.shown) ++
        format (String.ofList behind) (arguments.drop 1) := by
  simp only [format, String.toList_ofList]
  rw [d.pieces_append, d.piece_eq, if_pos hd, ← String.ofList_append]
  cases arguments with
  | nil => rfl
  | cons v arguments => rfl

/-- What is cut off prints as it is written. -/
private theorem format_cutoff {tail : List Char} (htail : Cutoff tail) (arguments : List Value) :
    format (String.ofList tail) arguments = String.ofList tail ++ surplus arguments := by
  rw [format, surplus, String.toList_ofList, ← String.ofList_append]
  cases htail with
  | whole => rw [pieces, fill, List.nil_append]
  | spelling s => rw [pieces_spelling, fill, fill]

/-- What the parts of a template say about what is printed. -/
structure Prints (template : String) (arguments : List Value) (parts : List Part)
    (tail : List Char) : Prop where
  /-- Arguments that are left over are printed behind the text. -/
  surplus : holes parts < arguments.length →
    format template arguments =
      format template (arguments.take (holes parts)) ++ surplus (arguments.drop (holes parts))
  /-- A placeholder for which no argument is left is copied. -/
  copied : ∀ front d back, parts = front ++ .directive d :: back → d.takes = true →
    arguments.length ≤ holes front →
      format template arguments = format (String.ofList (textOf front)) arguments ++
        String.ofList d.text ++ format (String.ofList (textOf back ++ tail)) []
  /-- Any other placeholder prints its own argument, and what is around it is printed as it would
  be without. -/
  filled : ∀ front d back v, parts = front ++ .directive d :: back → d.takes = true →
    arguments[holes front]? = some v →
      format template arguments =
        format (String.ofList (textOf front)) (arguments.take (holes front)) ++
          String.ofList (d.shown v) ++
            format (String.ofList (textOf back ++ tail)) (arguments.drop (holes front + 1))

private theorem Consists.prints {template : String} {parts : List Part} {tail : List Char}
    (h : Consists template parts tail) (arguments : List Value) :
    Prints template arguments parts tail := by
  obtain ⟨htext, htail⟩ := h
  have htemplate : template = String.ofList (textOf parts ++ tail) := by
    rw [← htext, String.ofList_toList]
  -- the text in front of a placeholder, the placeholder, and the text behind it
  have hsplit : ∀ front d back, parts = front ++ .directive d :: back → d.takes = true →
      format template arguments =
        format (String.ofList (textOf front)) (arguments.take (holes front)) ++
          String.ofList (arguments[holes front]?.elim d.text d.shown) ++
            format (String.ofList (textOf back ++ tail)) (arguments.drop (holes front + 1)) := by
    rintro front d back rfl hd
    have hparts : textOf (front ++ .directive d :: back) ++ tail =
        textOf front ++ (d.text ++ (textOf back ++ tail)) := by
      simp [textOf, Part.text]
    rw [htemplate, hparts, format_textOf, format_directive hd, List.head?_drop, List.drop_drop,
      String.append_assoc]
  refine ⟨fun _ => ?_, fun front d back hparts hd hfew => ?_, fun front d back v hparts hd hv => ?_⟩
  · rw [htemplate, format_textOf, format_textOf, format_cutoff htail, format_cutoff htail,
      List.take_take, Nat.min_self, List.drop_take, Nat.sub_self, List.take_zero]
    simp [surplus, String.append_assoc]
  · rw [hsplit front d back hparts hd, List.take_of_length_le hfew, List.getElem?_eq_none hfew,
      List.drop_of_length_le (Nat.le_succ_of_le hfew)]
    rfl
  · rw [hsplit front d back hparts hd, hv]
    rfl

/-- Templates print piece by piece. Every template is a row of parts, in one way only. If the parts
of a first template are complete and take all of the first arguments, a second template behind it
prints what it prints alone. And whatever the arguments, in any template the arguments that are too
many are printed behind the text in order, the placeholders that are too many are copied, and every
other placeholder prints the argument at its own position and nothing else. -/
theorem format_compositional :
    (∀ template : String, ∃! row : List Part × List Char, Consists template row.1 row.2) ∧
    (∀ (first second : String) (parts : List Part) (arguments others : List Value),
      Consists first parts [] → holes parts = arguments.length →
        format (first ++ second) (arguments ++ others) =
          format first arguments ++ format second others) ∧
    ∀ (template : String) (parts : List Part) (tail : List Char) (arguments : List Value),
      Consists template parts tail → Prints template arguments parts tail := by
  refine ⟨existsUnique_consists, fun first second parts arguments others hfirst hholes => ?_,
    fun template parts tail arguments h => h.prints arguments⟩
  have htext : textOf parts = first.toList := by
    rw [hfirst.1, List.append_nil]
  have hsplit := format_textOf parts second.toList (arguments ++ others)
  rw [hholes, List.take_left, List.drop_left, htext, ← String.toList_append,
    String.ofList_toList, String.ofList_toList, String.ofList_toList] at hsplit
  exact hsplit

/-- The placeholder `%05d`. -/
def paddedPlaceholder : Directive where
  spelling := .ofChars ['0', '5', 'd']
  letter := 'd'
  ends := (Spelling.opening_eq ['0', '5', 'd']).2.2

/-- The directive `%%`. -/
def percentDirective : Directive where
  spelling := .ofChars ['%']
  letter := '%'
  ends := (Spelling.opening_eq ['%']).2.2

/-- The placeholder `%s`. -/
def textPlaceholder : Directive where
  spelling := .ofChars ['s']
  letter := 's'
  ends := (Spelling.opening_eq ['s']).2.2

/-- The placeholder `%-8.3f`. -/
def fixedPlaceholder : Directive where
  spelling := .ofChars ['-', '8', '.', '3', 'f']
  letter := 'f'
  ends := (Spelling.opening_eq ['-', '8', '.', '3', 'f']).2.2

/-- Two templates print one after the other. The second prints an argument that looks like a
placeholder, copies a placeholder for which no argument is left, and is cut off. -/
theorem format_compositional_mixed :
    let second := "%s %-8.3f %0"
    let parts : List Part := [.directive textPlaceholder, .char ' ' (by decide),
      .directive fixedPlaceholder, .char ' ' (by decide)]
    Consists "%05d%%" [.directive paddedPlaceholder, .directive percentDirective] [] ∧
      Consists second parts ['%', '0'] ∧
      format ("%05d%%" ++ second) ([.int (-42)] ++ [.text "%d"]) =
        format "%05d%%" [.int (-42)] ++ format second [.text "%d"] ∧
      format "%05d%%" [.int (-42)] = "-0042%" ∧
      Prints second [.text "%d"] parts ['%', '0'] ∧
      format second [.text "%d"] = "%d %-8.3f %0" := by
  have hfirst : Consists "%05d%%" [.directive paddedPlaceholder, .directive percentDirective] [] :=
    ⟨by decide +kernel, .whole⟩
  have hsecond : Consists "%s %-8.3f %0" [.directive textPlaceholder, .char ' ' (by decide),
      .directive fixedPlaceholder, .char ' ' (by decide)] ['%', '0'] :=
    ⟨by decide +kernel, .spelling (.ofChars ['0'])⟩
  exact ⟨hfirst, hsecond,
    format_compositional.2.1 _ _ _ [.int (-42)] [.text "%d"] hfirst (by decide +kernel),
    by decide +kernel, format_compositional.2.2 _ _ _ [.text "%d"] hsecond, by decide +kernel⟩

end Template

end Litany
