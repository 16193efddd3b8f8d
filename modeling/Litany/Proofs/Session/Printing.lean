import Litany.Proofs.Grammar.Completeness.Program
import Litany.Proofs.Session.Piecewise
import Litany.Proofs.Text.Protection
import Litany.Proofs.Token.Respelling

/-!
# Every text can be printed

A program that is a single literal prints it, and a program that is a template with literals behind
it prints the template with the literals filled in. What is printed is known from the characters of
the program alone: the contents of the literals, filled in and with their escapes resolved
(`reply_printing`). So every text can be printed, by a program that is the text itself with some
characters protected (`prints_every_text`).
-/

namespace Litany

open Cut (Inside Spells isQuote)
open Grammar (ExprTree ItemTree Punct StmtTree parse parse_of_derivation readAll yieldBehind)

/-! ### Programs that print -/

/-- A literal with the given contents. -/
def quotedText (quote : Char) (raw : String) : String :=
  String.ofList (quote :: raw.toList ++ [quote])

/-- Literals behind a comma each, and a semicolon. -/
def argumentTexts (quote : Char) : List String → String
  | [] => ";"
  | raw :: rest => ", " ++ quotedText quote raw ++ argumentTexts quote rest

/-- A program that prints a template with texts as arguments. -/
def printing (quote : Char) (template : String) (arguments : List String) : String :=
  quotedText quote template ++ argumentTexts quote arguments

example : printing '"' "%s" ["a"] = "\"%s\", \"a\";" := by decide +kernel

/-! ### Reading them -/

/-- A literal is read as one token, whatever stands behind it. -/
private theorem segment_quotedText {quote : Char} (hquote : isQuote quote = true) {raw : String}
    (hinside : Inside quote raw.toList) (line : Nat) (behind : List Char) :
    ∃ next, segment line ((quotedText quote raw).toList ++ behind) =
      ⟨⟨.quoted raw, quotedText quote raw, line⟩ :: (segment next behind).tokens,
        (segment next behind).ending⟩ := by
  have hspells : Spells (.quoted (String.ofList raw.toList)) (quote :: raw.toList ++ [quote])
      behind := .quoted hquote hinside
  rw [String.ofList_toList] at hspells
  rw [quotedText, String.toList_ofList]
  exact ⟨_, segment_spelled hspells line⟩

/-- A literal as a chain of its own. -/
def literalChain (raw lexeme : String) (line : Nat) : ExprTree .chain :=
  .chain (.literal ⟨⟨.quoted raw, lexeme, line⟩, .text raw, rfl⟩) .noLink

/-- Literals behind commas are read as arguments, each of which stands for the contents of its
literal. -/
private theorem segment_argumentTexts {quote : Char} (hquote : isQuote quote = true)
    {raws : List String} (hinside : ∀ raw ∈ raws, Inside quote raw.toList) (line : Nat) :
    ∃ (last : Nat) (items : List (Punct .comma × ExprTree .chain)) (semicolon : Punct .semicolon),
      segment line (argumentTexts quote raws).toList =
          ⟨yieldBehind ExprTree.yield items ++ [semicolon.token], .finished last⟩ ∧
        ∀ names scope, (items.mapM fun item => item.2.reading names scope) =
          some ((raws.map .text).map .literal) := by
  induction raws generalizing line with
  | nil =>
    have hsemicolon : Spells (.mark .semicolon) [';'] [] :=
      .single rfl Cut.stops_nil fun h => by cases h
    have htext : (argumentTexts quote []).toList = [';'] := by
      rw [argumentTexts]
      rfl
    have hread := segment_spelled hsemicolon line
    rw [List.append_nil, segment.eq_1] at hread
    rw [htext, hread]
    exact ⟨_, [], ⟨⟨.mark .semicolon, String.ofList [';'], line⟩, (), rfl⟩, rfl, fun _ _ => rfl⟩
  | cons raw raws ih =>
    obtain ⟨hraw, hinside⟩ := List.forall_mem_cons.mp hinside
    have htext : (argumentTexts quote (raw :: raws)).toList = [','] ++ ([' '] ++
        ((quotedText quote raw).toList ++ (argumentTexts quote raws).toList)) := by
      rw [argumentTexts, String.toList_append, String.toList_append, List.append_assoc]
      rfl
    -- a comma, a space, the literal, and what is left
    have hcomma (behind : List Char) : Spells (.mark .comma) [','] ([' '] ++ behind) :=
      .single rfl (Cut.stops_cons.mpr rfl) fun h => by cases h
    have hspace : ∀ d ∈ [' '], Cut.isGap d = true := List.forall_mem_singleton.mpr rfl
    let here := line + [','].count '\n' + [' '].count '\n'
    obtain ⟨next, hliteral⟩ :=
      segment_quotedText hquote hraw here (argumentTexts quote raws).toList
    obtain ⟨last, items, semicolon, hrest, hreading⟩ := ih hinside next
    rw [htext, segment_spelled (hcomma _), segment_gap hspace, hliteral, hrest]
    let comma : Punct .comma := ⟨⟨.mark .comma, String.ofList [','], line⟩, (), rfl⟩
    let argument := literalChain raw (quotedText quote raw) here
    have hyield : argument.yield = [⟨.quoted raw, quotedText quote raw, here⟩] := rfl
    refine ⟨last, (comma, argument) :: items, semicolon, ?_, fun names scope => ?_⟩
    · rw [yieldBehind, hyield]
      rfl
    rw [List.mapM_cons, hreading]
    rfl

/-- A program that prints is read and parsed as one print statement. It declares nothing, and asks
the host for nothing. -/
theorem parse_printing {quote : Char} (hquote : isQuote quote = true) {template : String}
    (htemplate : Inside quote template.toList) {raws : List String}
    (hinside : ∀ raw ∈ raws, Inside quote raw.toList) (fetch : Option Fetcher)
    (fetched : List String) (names : Names) :
    ∃ stream, Stream.ofText fetch fetched (printing quote template raws) = ⟨.ok stream, fetched⟩ ∧
      parse names stream =
        (.ok [.print template ((raws.map .text).map .literal) 1], names) := by
  obtain ⟨next, hfirst⟩ := segment_quotedText hquote htemplate 1 (argumentTexts quote raws).toList
  obtain ⟨last, items, semicolon, hrest, hreading⟩ := segment_argumentTexts hquote hinside next
  rw [hrest] at hfirst
  let statement : StmtTree .statement :=
    .print ⟨⟨.quoted template, quotedText quote template, 1⟩, template, rfl⟩ items semicolon
  have hread : segment 1 (printing quote template raws).toList =
      ⟨statement.yield, .finished last⟩ := by
    rw [printing, String.toList_append, hfirst]
    rfl
  refine ⟨_, Stream.ofText_of_finished hread fetch fetched, ?_⟩
  have hreads : readAll ItemTree.reading [.statement statement] names =
      some ([.print template ((raws.map .text).map .literal) 1], names) := by
    simp [readAll, ItemTree.reading, statement, StmtTree.reading, hreading]
  exact parse_of_derivation ⟨[.statement statement], _, _, List.append_nil _, hreads⟩

/-! ### Running them -/

/-- The values of literals are the literals. -/
private theorem evaluateAll_literals (body : List Stmt → Run Ending) (values : List Value)
    (m : Machine) : evaluateAll body (values.map .literal) m = .ok values m := by
  induction values with
  | nil => rfl
  | cons v values ih =>
    have hfirst : evaluate body (.literal v) m = .ok v m := by
      rw [evaluate]
      rfl
    rw [List.map_cons, evaluateAll, bind_of_ok hfirst, bind_of_ok ih]
    rfl

/-- A print statement with literals as arguments prints its template filled with them, with the
escapes of both resolved. -/
private theorem execute_print_literals (cx : Context) (template : String) (values : List Value)
    (line : Nat) (m : Machine) : execute cx (.print template (values.map .literal) line) m =
      .ok .through
        { m with output := m.output ++ Text.unescape (Template.format template values) } := by
  rw [execute, bind_of_ok (evaluateAll_literals cx.body values m)]
  rfl

/-- A program that is a print statement with literals as arguments leaves the machine as it is. -/
private theorem interpret_print_literals (executor : Option Executor) (fuel : Nat)
    (template : String) (values : List Value) (line : Nat) {m : Machine} (hframes : m.frames = [])
    (houtput : m.output = "") :
    m.interpret executor (fuel + 1) [.print template (values.map .literal) line] =
      (.ok (Text.unescape (Template.format template values)), m) := by
  let statement : Stmt := .print template (values.map .literal) line
  have hbody : runBody executor (fuel + 1) [statement] (m.installAll [statement]) =
      .ok .through
        { m with output := m.output ++ Text.unescape (Template.format template values) } := by
    rw [runBody, Run.executeAll_singleton]
    exact execute_print_literals _ template values line m
  rw [Machine.interpret_of_runBody hbody, houtput, String.empty_append, Machine.ended, ← hframes,
    ← houtput]

namespace Session

/-- A program that prints gives its template filled with its texts, with the escapes of both
resolved, whatever was run before it. -/
theorem reply_printing (host : Host) (fuel : Nat) (s : Session) {quote : Char}
    (hquote : isQuote quote = true) {template : String} (htemplate : Inside quote template.toList)
    {raws : List String} (hinside : ∀ raw ∈ raws, Inside quote raw.toList) :
    reply host s (.whole (fuel + 1) (printing quote template raws)) =
      ⟨.ok (Text.unescape (Template.format template (raws.map .text))), []⟩ := by
  let start : Session := { s with names := Names.empty, machine := s.machine.reset }
  obtain ⟨stream, hscan, hparse⟩ :=
    parse_printing hquote htemplate hinside host.fetch s.fetched Names.empty
  have hparsed : Session.parse host (printing quote template raws) start =
      (.ok [.print template ((raws.map .text).map .literal) 1], start) :=
    parse_eq_ok.mpr ⟨stream, hscan, hparse, rfl⟩
  -- nothing is declared, so the run begins on the machine as it was reset
  have hallocated : start.machine.allocate start.names.globalTypes = s.machine.reset := by
    simp [start, Machine.allocate, Names.globalTypes, Names.empty]
  have hrun := interpret_print_literals host.execute fuel template (raws.map .text) 1
    (m := s.machine.reset) rfl rfl
  have hanswer : run host (fuel + 1) (printing quote template raws) s =
      (.ok (Text.unescape (Template.format template (raws.map .text))), start) := by
    rw [run, hparsed]
    exact execute_eq_ok.mpr ⟨hallocated ▸ hrun, rfl, rfl⟩
  have hblocks : start.machine.blocks.drop s.machine.blocks.length = [] := List.drop_length
  simp only [reply, step, Request.whole, hanswer, hblocks]

/-- Every text can be printed. A literal prints a text whose quotes and backslashes are escaped and
whose percent signs are written twice; as an argument, for a placeholder or without one, the text is
escaped only. -/
theorem prints_every_text (host : Host) (fuel : Nat) (s : Session) {quote : Char}
    (hquote : isQuote quote = true) (text : String) :
    reply host s (.whole (fuel + 1)
        (printing quote (Template.literal (Text.escape quote text)) [])) = ⟨.ok text, []⟩ ∧
      reply host s (.whole (fuel + 1) (printing quote "%s" [Text.escape quote text])) =
        ⟨.ok text, []⟩ ∧
      reply host s (.whole (fuel + 1) (printing quote "" [Text.escape quote text])) =
        ⟨.ok text, []⟩ := by
  have hescaped : Inside quote (Text.escape quote text).toList := by
    rw [Text.escape, String.toList_ofList]
    exact Text.inside_encode quote text.toList
  have hdoubled : Inside quote (Template.literal (Text.escape quote text)).toList := by
    rw [Template.literal, String.toList_ofList]
    exact Template.inside_double hquote hescaped
  have hone : ∀ raw ∈ [Text.escape quote text], Inside quote raw.toList :=
    List.forall_mem_singleton.mpr hescaped
  have hdisplay : Inside quote "%s".toList := by
    have hpercent : quote ≠ '%' := Cut.ne_of_class hquote rfl
    have hletter : quote ≠ 's' := Cut.ne_of_class hquote rfl
    exact .plain hpercent.symm (by decide) (.plain hletter.symm (by decide) .nil)
  refine ⟨?_, ?_, ?_⟩
  · rw [reply_printing host fuel s hquote hdoubled (by simp), List.map_nil, Template.format_literal,
      Text.unescape_escape hquote]
  · rw [reply_printing host fuel s hquote hdisplay hone, List.map_singleton,
      Template.format_display, Text.unescape_escape hquote]
  · rw [reply_printing host fuel s hquote .nil hone, List.map_singleton, Template.format_empty,
      Text.unescape_escape hquote]

/-- A line end, a null, both quotes and a placeholder, with backslashes in front and at the end. -/
def awkwardText : String :=
  "5%\n\x00'\"\\'\\%s\\"

theorem prints_every_text_awkward :
    isQuote '\'' = true ∧
      printing '\'' (Template.literal (Text.escape '\'' awkwardText)) [] =
        "'5%%\n\x00\\'\"\\\\\\'\\\\%%s\\\\';" ∧
      reply ⟨none, none⟩ fresh (.whole 1
        (printing '\'' (Template.literal (Text.escape '\'' awkwardText)) [])) =
          ⟨.ok awkwardText, []⟩ ∧
      reply ⟨none, none⟩ fresh (.whole 1 (printing '\'' "%s" [Text.escape '\'' awkwardText])) =
        ⟨.ok awkwardText, []⟩ ∧
      reply ⟨none, none⟩ fresh (.whole 1 (printing '\'' "" [Text.escape '\'' awkwardText])) =
        ⟨.ok awkwardText, []⟩ :=
  ⟨rfl, by decide +kernel, prints_every_text ⟨none, none⟩ 0 fresh rfl awkwardText⟩

end Session

end Litany
