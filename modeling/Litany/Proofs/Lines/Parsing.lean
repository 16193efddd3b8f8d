import Litany.Grammar.Program
import Litany.Proofs.Lines.Erasure

/-!
# Parsing does not look at lines

The lines of tokens go into syntax and messages and nowhere else: no production asks for one. So
tokens that are the same without their lines parse alike. They make the same tables, and programs
that are the same without their lines. The main statement is `Grammar.parse_alike`.

The proof follows the productions; each is seen to do on tokens without lines what it does on the
tokens themselves.
-/

namespace Litany

/-- The cursor without the lines of what is left. -/
def Cursor.unlined (s : Cursor) : Cursor :=
  ⟨s.rest.map Token.unlined, 0, s.names⟩

/-- The link without its lines. -/
def Grammar.Link.unlined (l : Link) : Link :=
  ⟨l.op, l.operand.unlined, 0⟩

namespace Parse

/-- Cursors and failures are seen without their lines. -/
def view : View ParseFailure Cursor :=
  ⟨ParseFailure.unlined, Cursor.unlined⟩

/-- On a cursor without lines, `x'` does what `x` does on the cursor itself. -/
abbrev Lineless {α β : Type} (f : α → β) (x : Parse α) (x' : Parse β) : Prop :=
  Commutes view f x x'

/-- What was found of a token, without its line. -/
def foundUnlined {α : Type} (found : α × Token) : α × Token :=
  (found.1, found.2.unlined)

/-! ### Single tokens -/

/-- A token is blamed on its line, and without its line on none. -/
private theorem lineless_blame {α β : Type} {f : α → β} (t : Token) (cause : SyntaxCause) :
    Lineless f (throw (t.blame cause)) (throw (t.unlined.blame cause)) :=
  .throw rfl

/-- What follows a token may be refused. -/
private theorem lineless_unless {α β : Type} {f : α → β} {p : Prop} [Decidable p] (t : Token)
    {cause : SyntaxCause} {x : Parse α} {x' : Parse β} (hx : Lineless f x x') :
    Lineless f (if p then (throw (t.blame cause) : Parse PUnit) >>= fun _ => x else x)
      (if p then (throw (t.unlined.blame cause) : Parse PUnit) >>= fun _ => x' else x') :=
  .ite (Commutes.bind (f := id) (lineless_blame t cause) fun _ => hx) hx

private theorem lineless_get : Lineless Cursor.unlined (get : Parse Cursor) get :=
  fun _ => rfl

/-- The tables hold no lines. -/
private theorem lineless_names : Lineless id names names :=
  fun _ => rfl

/-- The next token is seen without its line. -/
private theorem lineless_peek : Lineless (Option.map Token.unlined) peek peek := by
  rintro ⟨tokens, endLine, names⟩
  cases tokens <;> rfl

/-- A text is refused at the next token or at its end, whatever their lines. -/
private theorem lineless_refuse {α β : Type} {f : α → β} (cause : SyntaxCause) :
    Lineless f (refuse cause) (refuse cause) := by
  rintro ⟨tokens, endLine, names⟩
  cases tokens <;> rfl

/-- An unexpected token is refused whatever its line. -/
private theorem lineless_unexpected {α β : Type} {f : α → β} : Lineless f unexpected unexpected :=
  lineless_refuse .unexpectedToken

/-- The cursor moves past the same token without its line. -/
private theorem lineless_advance : Lineless Token.unlined advance advance := by
  rintro ⟨tokens, endLine, names⟩
  cases tokens <;> rfl

/-- Whether a token of some kind is next can be told without its line. -/
private theorem lineless_take? {α : Type} (f : Kind → Option α) :
    Lineless (Option.map foundUnlined) (take? f) (take? f) := by
  rintro ⟨tokens, endLine, names⟩
  cases tokens with
  | nil => rfl
  | cons t tokens =>
    simp only [take?, view, Cursor.unlined, List.map_cons, Token.unlined_kind]
    cases f t.kind <;> rfl

/-- A token of some kind is required of what is left without lines. -/
private theorem lineless_take {α : Type} (f : Kind → Option α) :
    Lineless foundUnlined (take f) (take f) := by
  refine (lineless_take? f).bind fun found => ?_
  cases found with
  | none => exact lineless_unexpected
  | some found => exact .pure rfl

/-- A mark is required whatever its line. -/
private theorem lineless_expect (m : Mark) : Lineless id (expect m) (expect m) :=
  (lineless_take _).bind fun _ => .pure rfl

/-- A mark may be there or not, whatever its line. -/
private theorem lineless_accept (m : Mark) : Lineless id (accept m) (accept m) := by
  refine (lineless_take? _).bind fun found => ?_
  cases found <;> exact .pure rfl

/-- Whether a mark is next can be told without its line. -/
private theorem lineless_sees (m : Mark) : Lineless id (sees m) (sees m) := by
  refine lineless_peek.bind fun next => ?_
  cases next <;> exact .pure rfl

/-- A name is required of what is left without lines, and given back without its own. -/
private theorem lineless_ident : Lineless Token.unlined ident ident :=
  (lineless_take _).bind fun _ => .pure rfl

/-! ### Repetition -/

section Repetition

variable {α β σ : Type} {f : α → β}

/-- A loop with a bound on its rounds does not look at lines if its step does not. -/
private theorem lineless_iterate {step : σ → Parse (Option σ)}
    (hstep : ∀ a, Lineless (Option.map id) (step a) (step a)) (n : Nat) (a : σ) :
    Lineless id (iterate step n a) (iterate step n a) := by
  induction n generalizing a with
  | zero => exact .pure rfl
  | succ n ih =>
    refine (hstep a).bind fun b => ?_
    cases b with
    | none => exact .pure rfl
    | some b => exact ih b

/-- A loop that goes on as long as its step answers does not look at lines if its step does not.
Both sides have as many tokens left, hence the same bound. -/
private theorem lineless_fold {step : σ → Parse (Option σ)}
    (hstep : ∀ a, Lineless (Option.map id) (step a) (step a)) (a : σ) :
    Lineless id (fold step a) (fold step a) := by
  refine lineless_get.bind fun s => ?_
  rw [Cursor.unlined, List.length_map]
  exact lineless_iterate hstep _ a

/-- Items are collected up to a number if each is read without regard to lines. -/
private theorem lineless_upTo {item : Parse (Option α)} {item' : Parse (Option β)}
    (hitem : Lineless (Option.map f) item item') (n : Nat) :
    Lineless (List.map f) (upTo item n) (upTo item' n) := by
  induction n with
  | zero => exact .pure rfl
  | succ n ih =>
    refine hitem.bind fun a => ?_
    cases a with
    | none => exact .pure rfl
    | some a => exact ih.bind fun _ => .pure rfl

/-- As many items are collected as there are, and each is read without regard to lines. -/
private theorem lineless_many {item : Parse (Option α)} {item' : Parse (Option β)}
    (hitem : Lineless (Option.map f) item item') :
    Lineless (List.map f) (many item) (many item') := by
  refine lineless_get.bind fun s => ?_
  rw [Cursor.unlined, List.length_map]
  exact lineless_upTo hitem _

/-- What stands behind a mark, if the mark is there. -/
private theorem lineless_behind (m : Mark) {item : Parse α} {item' : Parse β}
    (hitem : Lineless f item item') :
    Lineless (Option.map f) (behind m item) (behind m item') := by
  refine (lineless_accept m).bind fun accepted => ?_
  cases accepted with
  | false => exact .pure rfl
  | true => exact hitem.bind fun _ => .pure rfl

/-- What is read unless a mark is next. -/
private theorem lineless_unlessAt (m : Mark) {item : Parse α} {item' : Parse β}
    (hitem : Lineless f item item') :
    Lineless (Option.map f) (unlessAt m item) (unlessAt m item') := by
  refine (lineless_sees m).bind fun seen => ?_
  cases seen with
  | true => exact .pure rfl
  | false => exact hitem.bind fun _ => .pure rfl

/-- A declaration is entered under a name, or the token of that name is blamed. -/
private theorem lineless_enter (t : Token) (declare : Names → Option (α × Names)) :
    Lineless id (enter t declare) (enter t.unlined declare) := by
  intro s
  simp only [enter, view, Cursor.unlined]
  cases declare s.names <;> rfl

end Repetition

end Parse

namespace Grammar

open Parse

/-! ### Expressions -/

/-- A field is asked for by its name, not by the line of that name. -/
private theorem lineless_segment : Lineless (Option.map id) segment segment :=
  lineless_behind .dot (lineless_ident.bind fun _ => .pure rfl)

/-- What was found of a place, without its line. -/
def placeUnlined (found : Place × Nat) : Place × Nat :=
  (found.1, 0)

/-- A place is read together with the line of its name, and that line is forgotten. -/
private theorem lineless_place (scope : Scope) :
    Lineless placeUnlined (place scope) (place scope) := by
  refine lineless_ident.bind fun t => lineless_names.bind fun names => ?_
  simp only [id, Token.unlined_lexeme]
  cases names.resolve scope t.lexeme with
  | none => exact .throw rfl
  | some slot =>
    dsimp only
    cases names.slotType? scope slot with
    | none => exact .throw rfl
    | some found =>
      refine (lineless_many lineless_segment).bind fun path => ?_
      rw [List.map_id]
      cases names.fieldType? found.1 path with
      | none => exact .throw rfl
      | some type => exact .pure rfl

/-- A place that may not be assigned to is blamed on the line of its name. -/
private theorem lineless_assignable (scope : Scope) (target : Place) (line : Nat) :
    Lineless id (assignable scope target line) (assignable scope target 0) := by
  refine lineless_names.bind fun names => ?_
  simp only [id]
  cases target.type with
  | scalar type => exact .ite (Commutes.bind (f := id) (.throw rfl) fun _ => .pure rfl) (.pure rfl)
  | object number =>
    exact .ite (Commutes.bind (f := id) (.throw rfl) fun _ => .throw rfl) (.throw rfl)

/-- A chain is built the same way from operands without lines. -/
private theorem foldl_extend_unlined (links : List Link) (first : Expr) :
    (links.map Link.unlined).foldl Link.extend first.unlined =
      (links.foldl Link.extend first).unlined := by
  induction links generalizing first with
  | nil => rfl
  | cons link links ih =>
    have hextend : Link.extend first.unlined link.unlined = (Link.extend first link).unlined := by
      simp only [Link.extend, Link.unlined, Expr.unlined]
    rw [List.map_cons, List.foldl_cons, List.foldl_cons, hextend, ih]

/-- The steps of an assignment are those of its links without lines. -/
private theorem unlined_assign (target : Place) (op : Option Arithmetic) (first : Expr) (line : Nat)
    (links : List Link) :
    (Expr.assign target (⟨op, first, line⟩ :: links.map Link.step)).unlined =
      .assign target (⟨op, first.unlined, 0⟩ :: (links.map Link.unlined).map Link.step) := by
  rw [Expr.unlined, Expr.unlinedSteps_eq_map, List.map_cons, List.map_map, List.map_map]
  rfl

/-- A first position that is not filled is not filled without its lines. -/
private theorem vacant_unlined {given : List (Option Expr)}
    (h : ∀ e rest, given = some e :: rest → False) (e : Expr) (rest : List (Option Expr)) :
    given.map (Option.map Expr.unlined) = some e :: rest → False := by
  rcases given with - | ⟨- | e', given⟩
  · rintro ⟨⟩
  · rintro ⟨⟩
  · exact fun _ => h e' given rfl

/-- The arguments of a call are supplied without regard to lines. -/
private theorem arrange_unlined (parameters : List Parameter) (given : List (Option Expr)) :
    arrange parameters (given.map (Option.map Expr.unlined)) =
      (arrange parameters given).map (List.map Expr.unlined) := by
  fun_induction arrange parameters given with
  | case1 => rfl
  | case2 _ rest e given ih =>
    simp only [List.map_cons, Option.map_some, arrange, ih]
    cases arrange rest given <;> rfl
  | case3 p rest given hgiven v hdefault ih =>
    rw [arrange, hdefault]
    · dsimp only
      rw [← List.map_tail, ih]
      cases arrange rest given.tail with
      | error cause => rfl
      | ok arguments =>
        simp only [Except.map, bind, Except.bind, pure, Except.pure, List.map_cons, Expr.unlined]
    · exact vacant_unlined hgiven
  | case4 p rest given hgiven hdefault =>
    rw [arrange, hdefault]
    · rfl
    · exact vacant_unlined hgiven

/-- Arguments are arranged the same way without their lines, and are refused for the same reason. -/
private theorem arguments_unlined (parameters : List Parameter) (given : List (Option Expr)) :
    arguments parameters (given.map (Option.map Expr.unlined)) =
      (arguments parameters given).map (List.map Expr.unlined) := by
  unfold arguments
  rw [List.length_map]
  split
  · rfl
  · exact arrange_unlined parameters given

section Operands

variable {operand : Parse Expr} (hoperand : Lineless Expr.unlined operand operand)

include hoperand

/-- An operation and the operand behind it. -/
private theorem lineless_link :
    Lineless (Option.map Link.unlined) (link operand) (link operand) := by
  refine (lineless_take? _).bind fun found => ?_
  cases found with
  | none => exact .pure rfl
  | some found => exact hoperand.bind fun _ => .pure rfl

/-- Operands with operations between them. -/
private theorem lineless_chain : Lineless Expr.unlined (chain operand) (chain operand) :=
  hoperand.bind fun first => (lineless_many (lineless_link hoperand)).bind fun links =>
    .pure (foldl_extend_unlined links first)

/-- The chain behind an assignment, and what is assigned. -/
private theorem lineless_assignment (target : Place) (op : Option Arithmetic) (line : Nat) :
    Lineless Expr.unlined (assignment operand target op line) (assignment operand target op 0) :=
  hoperand.bind fun first => (lineless_many (lineless_link hoperand)).bind fun links =>
    .pure (unlined_assign target op first line links).symm

/-- A position of a call, which may be empty. -/
private theorem lineless_position :
    Lineless (Option.map Expr.unlined) (position operand) (position operand) := by
  refine (lineless_sees .comma).bind fun comma => (lineless_sees .rightParen).bind
    fun closing => ?_
  exact .ite (.pure rfl) ((lineless_chain hoperand).bind fun _ => .pure rfl)

/-- The positions of a call between its parentheses. -/
private theorem lineless_positions :
    Lineless (List.map (Option.map Expr.unlined)) (positions operand) (positions operand) := by
  refine (lineless_accept .leftParen).bind fun opened => ?_
  cases opened with
  | false => exact .pure rfl
  | true =>
    refine (lineless_accept .rightParen).bind fun closed => ?_
    cases closed with
    | true => exact .pure rfl
    | false =>
      refine (lineless_position hoperand).bind fun first => ?_
      refine (lineless_many (lineless_behind .comma (lineless_position hoperand))).bind
        fun rest => ?_
      exact (lineless_expect .rightParen).bind fun _ => .pure rfl

/-- A call is read on the line of its name. -/
private theorem lineless_call (ordinal : Nat) :
    Lineless Expr.unlined (call operand ordinal) (call operand ordinal) := by
  refine lineless_ident.bind fun t => (lineless_positions hoperand).bind fun given =>
    lineless_names.bind fun names => ?_
  simp only [id]
  cases names.procedures[ordinal]? with
  | none => exact .throw rfl
  | some p =>
    dsimp only
    rw [arguments_unlined]
    cases arguments p.parameters given with
    | error cause => exact .throw rfl
    | ok arguments =>
      refine .pure ?_
      rw [Expr.unlined, Expr.unlinedAll_eq_map]
      rfl

end Operands

/-- A place in operand position, which a mark behind it may change. -/
private theorem lineless_placeOperand (scope : Scope) :
    Lineless Expr.unlined (placeOperand scope) (placeOperand scope) := by
  refine (lineless_place scope).bind fun found => (lineless_take? _).bind fun mark => ?_
  cases mark with
  | none => exact .pure rfl
  | some mark => exact (lineless_assignable scope found.1 found.2).bind fun _ => .pure rfl

/-- A place behind a mark that changes it. -/
private theorem lineless_bumped (scope : Scope) (up : Bool) (line : Nat) :
    Lineless Expr.unlined (bumped scope up line) (bumped scope up 0) :=
  (lineless_place scope).bind fun found =>
    (lineless_assignable scope found.1 found.2).bind fun _ => .pure rfl

/-- A name in operand position is looked up, whatever its line. -/
private theorem lineless_named (scope : Scope) {operand : Parse Expr}
    (hoperand : Lineless Expr.unlined operand operand) (name : String) :
    Lineless Expr.unlined
      (do
        match (← Parse.names).procedure? name with
        | some ordinal => call operand ordinal
        | none => placeOperand scope)
      (do
        match (← Parse.names).procedure? name with
        | some ordinal => call operand ordinal
        | none => placeOperand scope) := by
  refine lineless_names.bind fun names => ?_
  simp only [id]
  cases names.procedure? name with
  | none => exact lineless_placeOperand scope
  | some ordinal => exact lineless_call hoperand ordinal

/-- An operand is read by the kind of its first token. -/
private theorem lineless_operandFrom (scope : Scope) {operand : Parse Expr}
    (hoperand : Lineless Expr.unlined operand operand) (t : Token) :
    Lineless Expr.unlined (operandFrom scope operand t) (operandFrom scope operand t.unlined) := by
  obtain ⟨kind, lexeme, line⟩ := t
  have hliteral : ∀ v : Value, Lineless Expr.unlined (advance >>= fun _ => pure (.literal v))
      (advance >>= fun _ => pure (.literal v)) :=
    fun v => lineless_advance.bind fun _ => .pure rfl
  cases kind with
  | int v | float v | quoted raw => exact hliteral _
  | ident name => exact lineless_named scope hoperand name
  | keyword k =>
    cases k with
    | yes | no => exact hliteral _
    | _ => exact lineless_unexpected
  | mark m =>
    cases m with
    | minus => exact lineless_advance.bind fun _ => hoperand.bind fun _ => .pure rfl
    | leftParen =>
      exact lineless_advance.bind fun _ => (lineless_chain hoperand).bind fun _ =>
        (lineless_expect _).bind fun _ => .pure rfl
    | plusPlus | minusMinus => exact lineless_advance.bind fun _ => lineless_bumped scope _ _
    | _ => exact lineless_unexpected
  | _ => exact lineless_unexpected

/-- Operands at every depth of nesting. -/
private theorem lineless_operand (scope : Scope) (n : Nat) :
    Lineless Expr.unlined (operand scope n) (operand scope n) := by
  induction n with
  | zero => exact lineless_unexpected
  | succ n ih =>
    refine lineless_peek.bind fun next => ?_
    cases next with
    | none => exact lineless_unexpected
    | some t => exact lineless_operandFrom scope ih t

/-! ### Conditions and parts of statements -/

/-- The right side of a comparison without its lines. -/
def sideUnlined (side : Option (Comparison × Expr)) : Option (Comparison × Expr) :=
  side.map fun (c, right) => (c, right.unlined)

/-- Whether a name is next can be told without its line. -/
private theorem ident?_unlined (next : Option Token) :
    ((next.map Token.unlined).bind fun t => Kind.ident? t.kind) =
      next.bind fun t => Kind.ident? t.kind := by
  cases next <;> rfl

section Conditions

variable {operand : Parse Expr} (hoperand : Lineless Expr.unlined operand operand)

include hoperand

/-- A comparison, a chain by itself, or a term with a `!` in front. -/
private theorem lineless_term : Lineless Term.unlined (term operand) (term operand) := by
  refine lineless_peek.bind fun next => lineless_get.bind fun s => ?_
  refine (lineless_many (lineless_take? _)).bind fun bangs => (lineless_chain hoperand).bind
    fun left => (lineless_take? _).bind fun mark => ?_
  -- the line of a term is that of its first token, or of the end: both are forgotten
  have hline : (next.map Token.unlined).elim s.unlined.endLine (·.line) = 0 := by
    cases next <;> rfl
  rw [hline, List.length_map]
  cases mark with
  | none => exact Commutes.bind (f := sideUnlined) (.pure rfl) fun _ => .pure rfl
  | some mark =>
    exact (lineless_chain hoperand).bind fun _ =>
      Commutes.bind (f := sideUnlined) (.pure rfl) fun _ => .pure rfl

/-- Terms with connectives between them. -/
private theorem lineless_condition :
    Lineless Condition.unlined (condition operand) (condition operand) := by
  refine (lineless_term hoperand).bind fun first => (lineless_many ?_).bind fun _ => .pure rfl
  refine (lineless_take? _).bind fun found => ?_
  cases found with
  | none => exact .pure rfl
  | some found => exact (lineless_term hoperand).bind fun _ => .pure rfl

/-- A place that no assignment follows is forgotten on both sides. -/
private theorem lineless_statementExpr (scope : Scope) :
    Lineless Expr.unlined (statementExpr scope operand) (statementExpr scope operand) := by
  refine lineless_peek.bind fun next => ?_
  rw [ident?_unlined]
  cases next.bind fun t => Kind.ident? t.kind with
  | none => exact lineless_chain hoperand
  | some name =>
    refine lineless_names.bind fun names => ?_
    refine .ite (lineless_chain hoperand) ?_
    refine lineless_get.bind fun start => (lineless_place scope).bind fun found =>
      (lineless_take? _).bind fun mark => ?_
    cases mark with
    | some mark =>
      exact (lineless_assignable scope found.1 found.2).bind fun _ =>
        lineless_assignment hoperand found.1 mark.1 mark.2.line
    | none => exact Commutes.bind (f := id) (fun _ => rfl) fun _ => lineless_chain hoperand

/-- A declared name, with what it is initialized with. -/
private theorem lineless_declarator (scope : Scope) (type : CellType) :
    Lineless Declarator.unlined (declarator scope operand type)
      (declarator scope operand type) := by
  refine lineless_ident.bind fun t => (lineless_enter t _).bind fun slot => ?_
  cases type with
  | object number => exact .pure rfl
  | scalar type =>
    refine (lineless_take? _).bind fun mark => ?_
    cases mark with
    | none => exact .pure rfl
    | some mark => exact (lineless_assignment hoperand _ _ _).bind fun _ => .pure rfl

/-- Declared names behind a type. -/
private theorem lineless_declarators (scope : Scope) (type : CellType) :
    Lineless (List.map Declarator.unlined) (declarators scope operand type)
      (declarators scope operand type) := by
  have hdeclarator := lineless_declarator hoperand scope type
  exact hdeclarator.bind fun _ => (lineless_many (lineless_behind .comma hdeclarator)).bind
    fun _ => (lineless_expect _).bind fun _ => .pure rfl

/-- A declaration up to its semicolon. -/
private theorem lineless_declaration (scope : Scope) (type : CellType) :
    Lineless Stmt.unlined (declaration scope operand type) (declaration scope operand type) :=
  (lineless_declarators hoperand scope type).bind fun _ => .pure (by rw [Stmt.unlined])

/-- A print statement keeps the line of its template. -/
private theorem lineless_print (template : String) (line : Nat) :
    Lineless Stmt.unlined (print operand template line) (print operand template 0) :=
  (lineless_many (lineless_behind .comma (lineless_chain hoperand))).bind fun _ =>
    (lineless_expect _).bind fun _ => .pure (by rw [Stmt.unlined])

/-- A return keeps the line of its word. -/
private theorem lineless_giveBack (line : Nat) :
    Lineless Stmt.unlined (giveBack operand line) (giveBack operand 0) :=
  (lineless_unlessAt .semicolon (lineless_chain hoperand)).bind fun _ =>
    (lineless_expect _).bind fun _ => .pure (by rw [Stmt.unlined])

/-- An assignment or a chain as a statement. -/
private theorem lineless_exprStmt (scope : Scope) :
    Lineless Stmt.unlined (exprStmt scope operand) (exprStmt scope operand) :=
  (lineless_statementExpr hoperand scope).bind fun _ =>
    (lineless_expect _).bind fun _ => .pure (by rw [Stmt.unlined])

end Conditions

/-- A procedure is told from a variable by the kind of what stands behind its name. -/
private theorem lineless_procedureHead : Lineless id procedureHead procedureHead := by
  rintro ⟨tokens, endLine, names⟩
  rcases tokens with - | ⟨type, - | ⟨name, - | ⟨paren, tokens⟩⟩⟩ <;> rfl

/-! ### Statements -/

section Bodies

variable {operand : Parse Expr} {statement : Parse Stmt}
  (hoperand : Lineless Expr.unlined operand operand)
  (hstatement : Lineless Stmt.unlined statement statement)

include hstatement

/-- Statements between braces. -/
private theorem lineless_block :
    Lineless (List.map Stmt.unlined) (block statement) (block statement) :=
  (lineless_expect _).bind fun _ => (lineless_many (lineless_unlessAt .rightBrace hstatement)).bind
    fun _ => (lineless_expect _).bind fun _ => .pure rfl

/-- Statements between braces, or a single one. -/
private theorem lineless_body :
    Lineless (List.map Stmt.unlined) (body statement) (body statement) :=
  (lineless_sees .leftBrace).bind fun _ =>
    .ite (lineless_block hstatement) (hstatement.bind fun _ => .pure rfl)

include hoperand

/-- The head of a loop and its body. -/
private theorem lineless_loop (scope : Scope) :
    Lineless Stmt.unlined (loop scope operand statement) (loop scope operand statement) :=
  (lineless_expect _).bind fun _ =>
    (lineless_unlessAt _ (lineless_statementExpr hoperand scope)).bind fun _ =>
    (lineless_expect _).bind fun _ =>
    (lineless_unlessAt _ (lineless_condition hoperand)).bind fun _ =>
    (lineless_expect _).bind fun _ =>
    (lineless_unlessAt _ (lineless_statementExpr hoperand scope)).bind fun _ =>
    (lineless_expect _).bind fun _ => (lineless_body hstatement).bind fun _ =>
      .pure (by rw [Stmt.unlined, Stmt.unlinedAll_eq_map])

/-- The head of a branch and its bodies. -/
private theorem lineless_branch :
    Lineless Stmt.unlined (branch operand statement) (branch operand statement) := by
  refine (lineless_expect _).bind fun _ => (lineless_condition hoperand).bind fun test =>
    (lineless_expect _).bind fun _ => (lineless_body hstatement).bind fun yes =>
    (lineless_take? _).bind fun found => ?_
  cases found with
  | none => exact .pure (Stmt.unlined_branch test yes none).symm
  | some found =>
    exact (lineless_body hstatement).bind fun no =>
      .pure (Stmt.unlined_branch test yes (some no)).symm

end Bodies

/-- Statements at every depth of nesting. -/
private theorem lineless_statement (scope : Scope) (n : Nat) :
    Lineless Stmt.unlined (statement scope n) (statement scope n) := by
  induction n with
  | zero => exact lineless_unexpected
  | succ n ih =>
    have hoperand := lineless_operand scope (n + 1)
    refine lineless_peek.bind fun next => ?_
    cases next with
    | none => exact lineless_unexpected
    | some t =>
      obtain ⟨kind, lexeme, line⟩ := t
      cases kind with
      | scalar type =>
        exact lineless_procedureHead.bind fun _ =>
          .ite (lineless_advance.bind fun _ => lineless_refuse _)
            (lineless_advance.bind fun _ => lineless_declaration hoperand scope _)
      | ident name =>
        refine lineless_names.bind fun names => ?_
        simp only [id]
        cases names.class? name with
        | none => exact lineless_exprStmt hoperand scope
        | some number =>
          exact lineless_advance.bind fun _ => lineless_declaration hoperand scope _
      | quoted template => exact lineless_advance.bind fun _ => lineless_print hoperand _ _
      | keyword k =>
        cases k with
        | loop => exact lineless_advance.bind fun _ => lineless_loop hoperand ih scope
        | branch => exact lineless_advance.bind fun _ => lineless_branch hoperand ih
        | giveBack =>
          exact .ite (lineless_refuse _)
            (lineless_advance.bind fun _ => lineless_giveBack hoperand _)
        | classDef => exact lineless_unexpected
        | _ => exact lineless_exprStmt hoperand scope
      | foreign code =>
        refine lineless_advance.bind fun _ => .pure ?_
        rw [Stmt.unlined]
        rfl
      | define => exact lineless_unexpected
      | _ => exact lineless_exprStmt hoperand scope

/-! ### Programs -/

/-- A literal holds no line. -/
private theorem lineless_literal : Lineless id literal literal := by
  refine (lineless_accept .minus).bind fun negative => lineless_advance.bind fun t => ?_
  obtain ⟨kind, lexeme, line⟩ := t
  cases kind with
  | int n | float x => cases negative <;> exact .pure rfl
  | quoted raw =>
    cases negative with
    | false => exact .pure rfl
    | true => exact .throw rfl
  | keyword k =>
    cases k with
    | yes | no =>
      cases negative with
      | false => exact .pure rfl
      | true => exact .throw rfl
    | _ => exact .throw rfl
  | _ => exact .throw rfl

/-- A parameter holds no line, and neither does its default. -/
private theorem lineless_parameter (earlier : List Parameter) :
    Lineless id (parameter earlier) (parameter earlier) := by
  refine (lineless_take _).bind fun type => lineless_ident.bind fun t => ?_
  refine lineless_unless t ((lineless_take? _).bind fun mark => ?_)
  cases mark with
  | none => exact .pure rfl
  | some mark => exact lineless_literal.bind fun _ => .pure rfl

/-- The parameters of a procedure between its parentheses. -/
private theorem lineless_parameters : Lineless id parameters parameters := by
  refine (lineless_accept .rightParen).bind fun closed => .ite (.pure rfl) ?_
  refine (lineless_parameter []).bind fun first => (lineless_fold (fun earlier => ?_) _).bind
    fun _ => (lineless_expect _).bind fun _ => .pure rfl
  refine (lineless_behind .comma (lineless_parameter earlier)).bind fun found => ?_
  cases found with
  | none => exact .pure rfl
  | some p => exact .pure rfl

/-- A procedure holds no line but those of its body. -/
theorem lineless_procedure (n : Nat) : Lineless Stmt.unlined (procedure n) (procedure n) := by
  refine (lineless_take _).bind fun returns => lineless_ident.bind fun t =>
    (lineless_expect _).bind fun _ => lineless_parameters.bind fun parameters =>
    (lineless_enter t _).bind fun ordinal =>
    (lineless_block (lineless_statement (.procedure ordinal) n)).bind fun body =>
    lineless_names.bind fun names => ?_
  simp only [id]
  cases names.procedures[ordinal]? with
  | none => exact .throw rfl
  | some p =>
    refine .pure ?_
    rw [Stmt.unlined_procedure]
    rfl

/-- The type of fields is read by the kind of its token. -/
private theorem lineless_fieldType : Lineless id fieldType fieldType := by
  refine lineless_advance.bind fun t => ?_
  obtain ⟨kind, lexeme, line⟩ := t
  cases kind with
  | scalar type => exact .pure rfl
  | ident name =>
    refine lineless_names.bind fun names => ?_
    simp only [id]
    cases names.class? name with
    | none => exact .throw rfl
    | some number => exact .pure rfl
  | _ => exact .throw rfl

/-- A field holds no line. -/
private theorem lineless_field (type : CellType) (earlier : List Field) :
    Lineless id (field type earlier) (field type earlier) := by
  refine lineless_ident.bind fun t => ?_
  exact .ite (Commutes.bind (f := id) (lineless_blame t _) fun _ => .pure rfl) (.pure rfl)

/-- The fields of one type, up to their semicolon. -/
private theorem lineless_fieldGroup (earlier : List Field) :
    Lineless id (fieldGroup earlier) (fieldGroup earlier) :=
  lineless_fieldType.bind fun type => (lineless_field type earlier).bind fun _ =>
    (lineless_fold (fun earlier => lineless_behind .comma (lineless_field type earlier)) _).bind
      fun _ => (lineless_expect _).bind fun _ => .pure rfl

/-- Objects of a class may be declared behind it. -/
private theorem lineless_classObjects (n number : Nat) :
    Lineless (List.map Declarator.unlined) (classObjects n number) (classObjects n number) := by
  refine lineless_peek.bind fun next => ?_
  rw [ident?_unlined]
  cases next.bind fun t => Kind.ident? t.kind with
  | some name => exact lineless_declarators (lineless_operand .top n) .top _
  | none => exact (lineless_expect _).bind fun _ => .pure rfl

/-- A class with its fields, and objects of it behind. -/
private theorem lineless_classDef (n : Nat) : Lineless Stmt.unlined (classDef n) (classDef n) :=
  lineless_ident.bind fun t => (lineless_expect _).bind fun _ =>
    (lineless_fold (fun earlier => lineless_unlessAt .rightBrace (lineless_fieldGroup earlier))
      []).bind fun _ => (lineless_expect _).bind fun _ =>
    (lineless_enter t _).bind fun number => (lineless_classObjects n number).bind fun _ =>
      .pure (by rw [Stmt.unlined, id])

/-- A constant with its literal. -/
private theorem lineless_define : Lineless Stmt.unlined define define := by
  refine lineless_ident.bind fun t => lineless_literal.bind fun value =>
    (lineless_accept .semicolon).bind fun _ => (lineless_enter t _).bind fun slot => .pure ?_
  simp only [Stmt.unlined, List.map_cons, List.map_nil, Declarator.unlined, Option.map_some,
    Expr.unlined, Expr.unlinedSteps]
  rfl

/-- An item of a program is told by its first token, and where that is a type, by what stands behind
it. -/
private theorem lineless_topLevel (n : Nat) : Lineless Stmt.unlined (topLevel n) (topLevel n) := by
  refine lineless_peek.bind fun next => ?_
  cases next with
  | none => exact lineless_unexpected
  | some t =>
    obtain ⟨kind, lexeme, line⟩ := t
    cases kind with
    | scalar type =>
      exact lineless_procedureHead.bind fun _ =>
        .ite (lineless_procedure n) (lineless_statement .top n)
    | keyword k =>
      cases k with
      | classDef => exact lineless_advance.bind fun _ => lineless_classDef n
      | _ => exact lineless_statement .top n
    | define => exact lineless_advance.bind fun _ => lineless_define
    | _ => exact lineless_statement .top n

/-- An item, unless the text is at its end. -/
private theorem lineless_item (n : Nat) : Lineless (Option.map Stmt.unlined) (item n) (item n) := by
  refine lineless_peek.bind fun next => ?_
  cases next with
  | none => exact .pure rfl
  | some t => exact (lineless_topLevel n).bind fun _ => .pure rfl

/-- All items of a text. -/
private theorem lineless_program : Lineless (List.map Stmt.unlined) program program := by
  refine lineless_get.bind fun s => ?_
  rw [Cursor.unlined, List.length_map]
  exact lineless_many (lineless_item _)

/-- What comes of parsing, without its lines. -/
def unlinedOutcome (outcome : Except ParseFailure (List Stmt)) : Except ParseFailure (List Stmt) :=
  (outcome.map (List.map Stmt.unlined)).mapError ParseFailure.unlined

/-- Tokens without their lines parse to what comes of the tokens themselves, lines apart, and
declare the same names. -/
theorem parse_unlined (names : Names) (stream : Stream) :
    parse names stream.unlined =
      (unlinedOutcome (parse names stream).1, (parse names stream).2) := by
  have hseen : program ⟨stream.tokens.map Token.unlined, 0, names⟩ = _ :=
    lineless_program ⟨stream.tokens, stream.endLine, names⟩
  simp only [parse, EStateM.run, Stream.unlined, hseen]
  cases program ⟨stream.tokens, stream.endLine, names⟩ with
  | ok statements s => rfl
  | error failure s => rfl

/-- Texts whose tokens are the same without their lines parse alike: when one is a program, so is
the other, it declares the same names, and the programs are the same without their lines. -/
theorem parse_alike {names later : Names} {stream stream' : Stream} {ss : List Stmt}
    (halike : stream'.tokens.map Token.unlined = stream.tokens.map Token.unlined)
    (h : parse names stream = (.ok ss, later)) :
    ∃ ss', parse names stream' = (.ok ss', later) ∧
      ss'.map Stmt.unlined = ss.map Stmt.unlined := by
  have hsame : stream'.unlined = stream.unlined := by rw [Stream.unlined, Stream.unlined, halike]
  have hseen := parse_unlined names stream'
  rw [hsame, parse_unlined, h] at hseen
  obtain ⟨houtcome, hlater⟩ := Prod.mk.inj hseen
  cases hparsed : parse names stream' with
  | mk outcome later' =>
    rw [hparsed] at houtcome hlater
    obtain rfl : later = later' := hlater
    cases outcome with
    | ok ss' => exact ⟨ss', rfl, (Except.ok.inj houtcome).symm⟩
    | error f => cases houtcome

end Grammar

end Litany
