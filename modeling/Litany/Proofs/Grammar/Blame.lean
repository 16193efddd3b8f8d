import Litany.Proofs.Grammar.Entries
import Litany.Proofs.Grammar.Soundness.Program

/-!
# Parsing adds to the tables and blames the text

What a step of parsing does to a cursor is said once, in `Cursor.Moves R`: it takes tokens off and
changes the tables in a way that `R` allows. This holds of a step that fails as well, since names
that were declared before a fault stay. An expression enters nothing, so it moves the cursor for
every `R` there is; a statement declares variables of its own scope (`Names.Declares`), and an item
of a program makes entries (`Names.Adds`).

A parser that fails names a place in the text and what is wrong with it; it never finds the tables
in disagreement with themselves. Three checks could: a slot just resolved has no type, a procedure
just found has no entry, a procedure whose body was read has lost its entry. They all pass because
the tables only grow. So both facts are proved together, production by production, from every cursor
that parsing may get to (`Parse.Orderly`). What remains of them for whole programs is `parse_adds`
and `parse_error`.
-/

namespace Litany

/-! ### Ways to grow -/

namespace Names

/-- A way to change tables that only adds to them, in any number of steps. -/
class Growth (R : Names → Names → Prop) : Prop extends IsPreorder Names R where
  grows : ∀ {names later : Names}, R names later → names.Grows later

/-- A way to change tables that covers variables of known types in a scope. -/
class Declaring (scope : Scope) (R : Names → Names → Prop) : Prop where
  declare : ∀ {names later : Names} {v : Variable} {slot : Slot}, names.Knows v.type →
    names.declare scope v = some (slot, later) → R names later

instance growth_grows : Growth Grows where
  refl := .refl
  trans _ _ _ := .trans
  grows := id

instance growth_declares (scope : Scope) : Growth (Declares scope) where
  refl := .refl
  trans _ _ _ := .trans
  grows := Declares.grows

instance growth_adds (tokens : List Token) : Growth (Adds tokens) where
  refl _ := .refl
  trans _ _ _ := .trans
  grows h := h.extends.grows

instance declaring_declares (scope : Scope) : Declaring scope (Declares scope) where
  declare _ h := .step h (.refl _)

instance declaring_adds (tokens : List Token) : Declaring .top (Adds tokens) where
  declare hknown h := .single (.global hknown h)

end Names

/-- What a step of parsing does to a cursor: it takes tokens off, and changes the tables in a way
that `R` allows. -/
structure Cursor.Moves (R : Names → Names → Prop) (s s' : Cursor) : Prop where
  rest : s'.rest <:+ s.rest
  names : R s.names s'.names

namespace Cursor.Moves

variable {R : Names → Names → Prop} [Names.Growth R] {s s₁ s₂ : Cursor}

/-- A step that does nothing moves the cursor nowhere. -/
theorem refl (s : Cursor) : s.Moves R s :=
  ⟨List.suffix_rfl, refl_of R s.names⟩

/-- A step that takes a token leaves the tables as they are. -/
theorem take (t : Token) (tokens : List Token) (endLine : Nat) (names : Names) :
    Cursor.Moves R ⟨t :: tokens, endLine, names⟩ ⟨tokens, endLine, names⟩ :=
  ⟨List.suffix_cons t tokens, refl_of R names⟩

/-- Two steps in a row do together what either does. -/
theorem trans (h : s.Moves R s₁) (h' : s₁.Moves R s₂) : s.Moves R s₂ :=
  ⟨h'.rest.trans h.rest, trans_of R h.names h'.names⟩

/-- Whatever way to grow a step keeps to, it only adds to the tables. -/
theorem grows (h : s.Moves R s₁) : s.Moves Names.Grows s₁ :=
  ⟨h.rest, Names.Growth.grows h.names⟩

end Cursor.Moves

namespace Parse

/-- At a cursor, a step only moves it on, and blames the text if it fails. -/
def OrderlyAt {α : Type} (R : Names → Names → Prop) (s : Cursor) (x : Parse α) : Prop :=
  Ends x s (fun _ s' => s.Moves R s') fun f s' => s.Moves R s' ∧ ∃ e, f = .error e

/-- A step that is orderly wherever parsing may get to from a cursor. -/
def Orderly {α : Type} (R : Names → Names → Prop) (start : Cursor) (x : Parse α) : Prop :=
  ∀ s, start.Moves Names.Grows s → OrderlyAt R s x

section Rules

variable {α β : Type} {R : Names → Names → Prop} {start s : Cursor} {x : Parse α}
  {f : α → Parse β}

/-- A step that is orderly from a cursor on is so at that cursor. -/
theorem Orderly.here (hx : Orderly R s x) : OrderlyAt R s x :=
  hx s (.refl s)

/-- The names are read without moving on. -/
private theorem orderlyAt_names_bind {f : Names → Parse α} (hf : OrderlyAt R s (f s.names)) :
    OrderlyAt R s (names >>= f) :=
  hf

variable [Names.Growth R]

/-- A step that is orderly where the cursor has been moved to. -/
theorem OrderlyAt.behind {s' : Cursor} (hx : OrderlyAt R s' x) (hmoves : s.Moves R s') :
    Ends x s' (fun _ s₁ => s.Moves R s₁) fun f s₁ => s.Moves R s₁ ∧ ∃ e, f = .error e :=
  hx.mono (fun _ _ hlater => hmoves.trans hlater) fun _ _ hlater =>
    ⟨hmoves.trans hlater.1, hlater.2⟩

/-- One step behind another, which is only looked at where the first one has got to. -/
theorem OrderlyAt.bind (hx : OrderlyAt R s x)
    (hf : ∀ a s', x s = .ok a s' → s.Moves R s' → OrderlyAt R s' (f a)) :
    OrderlyAt R s (x >>= f) :=
  Ends.bind hx.answers fun a s' h => (hf a s' h.1 h.2).behind h.2

/-- One step behind another, wherever parsing may get to. -/
theorem Orderly.bind (hx : Orderly R start x) (hf : ∀ a, Orderly R start (f a)) :
    Orderly R start (x >>= f) :=
  fun s hs => (hx s hs).bind fun a s' _ hmoves => hf a s' (hs.trans hmoves.grows)

private theorem orderly_pure (a : α) : Orderly R start (pure a : Parse α) :=
  fun s _ => .refl s

private theorem orderly_throw (e : SyntaxError) : Orderly R start (throw (.error e) : Parse α) :=
  fun s _ => ⟨.refl s, e, rfl⟩

/-- A token may be blamed at any time. -/
private theorem orderly_blame (t : Token) (cause : SyntaxCause) :
    Orderly R start (throw (t.blame cause) : Parse α) :=
  orderly_throw _

/-- A step may be refused before it is made. -/
private theorem orderly_unless {p : Prop} [Decidable p] (e : SyntaxError) (hx : Orderly R start x) :
    Orderly R start (if p then (throw (.error e) : Parse PUnit) >>= fun _ => x else x) := by
  split
  · exact (orderly_throw e).bind fun _ => hx
  · exact hx

/-! ### Single tokens -/

private theorem orderly_get : Orderly R start (get : Parse Cursor) :=
  fun s _ => .refl s

private theorem orderly_names : Orderly R start names :=
  fun s _ => .refl s

private theorem orderly_peek : Orderly R start peek :=
  fun s _ => .refl s

/-- A text is refused at its next token or at its end, so the fault is one of the text. -/
private theorem orderly_refuse (cause : SyntaxCause) :
    Orderly R start (refuse cause : Parse α) := by
  rintro ⟨tokens, endLine, names⟩ -
  cases tokens with
  | nil => exact ⟨.refl _, _, rfl⟩
  | cons t tokens => exact ⟨.refl _, _, rfl⟩

private theorem orderly_unexpected : Orderly R start (unexpected : Parse α) :=
  orderly_refuse .unexpectedToken

/-- Advancing takes one token off. -/
private theorem orderly_advance : Orderly R start advance := by
  rintro ⟨tokens, endLine, names⟩ hs
  cases tokens with
  | nil => exact orderly_unexpected (α := Token) ⟨[], endLine, names⟩ hs
  | cons t tokens => exact .take t tokens endLine names

/-- A token of some kind is taken off if it is in front. -/
private theorem orderly_take? (f : Kind → Option α) : Orderly R start (take? f) := by
  rintro ⟨tokens, endLine, names⟩ -
  cases tokens with
  | nil => exact .refl _
  | cons t tokens =>
    simp only [OrderlyAt, Ends, take?]
    cases f t.kind with
    | none => exact .refl _
    | some a => exact .take t tokens endLine names

/-- A token of some kind is taken off or blamed. -/
private theorem orderly_take (f : Kind → Option α) : Orderly R start (take f) := by
  refine (orderly_take? f).bind fun found => ?_
  cases found with
  | none => exact orderly_unexpected
  | some found => exact orderly_pure found

private theorem orderly_expect (m : Mark) : Orderly R start (expect m) :=
  (orderly_take _).bind fun _ => orderly_pure ()

private theorem orderly_accept (m : Mark) : Orderly R start (accept m) :=
  (orderly_take? _).bind fun _ => orderly_pure _

private theorem orderly_sees (m : Mark) : Orderly R start (sees m) :=
  orderly_peek.bind fun _ => orderly_pure _

private theorem orderly_ident : Orderly R start ident :=
  (orderly_take _).bind fun _ => orderly_pure _

/-! ### Repetition -/

/-- A loop is orderly if its step is, whatever the bound on its rounds. -/
private theorem orderly_iterate {step : α → Parse (Option α)}
    (hstep : ∀ a, Orderly R start (step a))
    (n : Nat) (a : α) : Orderly R start (iterate step n a) := by
  induction n generalizing a with
  | zero => exact orderly_pure a
  | succ n ih =>
    refine (hstep a).bind fun b => ?_
    cases b with
    | none => exact orderly_pure a
    | some b => exact ih b

/-- A loop is orderly if its step is. -/
private theorem orderly_fold {step : α → Parse (Option α)} (hstep : ∀ a, Orderly R start (step a))
    (a : α) : Orderly R start (fold step a) :=
  orderly_get.bind fun _ => orderly_iterate hstep _ a

/-- Collecting items is orderly if reading one is, whatever the bound on their number. -/
private theorem orderly_upTo {item : Parse (Option α)} (hitem : Orderly R start item) (n : Nat) :
    Orderly R start (upTo item n) := by
  induction n with
  | zero => exact orderly_pure []
  | succ n ih =>
    refine hitem.bind fun a => ?_
    cases a with
    | none => exact orderly_pure []
    | some a => exact ih.bind fun _ => orderly_pure _

/-- Collecting items is orderly if reading one is. -/
private theorem orderly_many {item : Parse (Option α)} (hitem : Orderly R start item) :
    Orderly R start (many item) :=
  orderly_get.bind fun _ => orderly_upTo hitem _

/-- A mark, and what stands behind it. -/
private theorem orderly_behind (m : Mark) (hx : Orderly R start x) :
    Orderly R start (behind m x) := by
  refine (orderly_accept m).bind fun accepted => ?_
  split
  · exact hx.bind fun _ => orderly_pure _
  · exact orderly_pure none

/-- What is read unless a mark is next. -/
private theorem orderly_unlessAt (m : Mark) (hx : Orderly R start x) :
    Orderly R start (unlessAt m x) := by
  refine (orderly_sees m).bind fun seen => ?_
  split
  · exact orderly_pure none
  · exact hx.bind fun _ => orderly_pure _

/-! ### Declarations -/

/-- A name that is taken is not entered, and its token is blamed. -/
private theorem ends_enter (t : Token) (declare : Names → Option (α × Names)) (s : Cursor) :
    Ends (enter t declare) s (fun a s' => declare s.names = some (a, s'.names) ∧ s'.rest = s.rest)
      fun f s' => s.Moves R s' ∧ ∃ e, f = .error e := by
  simp only [Ends, enter]
  cases hfound : declare s.names with
  | none => exact ⟨.refl s, _, rfl⟩
  | some found => exact ⟨rfl, rfl⟩

/-- A variable of a known type is declared. -/
private theorem orderly_enter_variable {scope : Scope} [Names.Declaring scope R] (t : Token)
    {v : Variable} (hknown : start.names.Knows v.type) :
    Orderly R start (enter t fun names => names.declare scope v) :=
  fun s hs => (ends_enter t _ s).mono (fun _ _ hentered =>
    ⟨hentered.2 ▸ List.suffix_rfl,
      Names.Declaring.declare (hknown.mono hs.names) hentered.1⟩) fun _ _ hfailed => hfailed

end Rules

end Parse

namespace Grammar

open Parse

variable {R : Names → Names → Prop} [Names.Growth R] {start s : Cursor}

/-! ### Expressions -/

/-- A field of a place. -/
private theorem orderly_segment : Orderly R start segment :=
  orderly_behind .dot (orderly_ident.bind fun _ => orderly_pure _)

/-- A slot that a name resolves to has a type. -/
private theorem orderly_place (scope : Scope) : Orderly R start (place scope) := by
  refine orderly_ident.bind fun t => orderly_names.bind fun names => ?_
  cases hslot : names.resolve scope t.lexeme with
  | none => exact orderly_blame t .undeclared
  | some slot =>
    obtain ⟨type, constant, htype⟩ :=
      Names.exists_slotType? (Names.slotName?_of_resolve hslot)
    simp only [htype]
    refine (orderly_many orderly_segment).bind fun path => ?_
    cases names.fieldType? type path with
    | none => exact orderly_throw _
    | some found => exact orderly_pure _

/-- Whether a place may be assigned to is answered by the tables, which are not changed. -/
private theorem orderly_assignable (scope : Scope) (target : Place) (line : Nat) :
    Orderly R start (assignable scope target line) := by
  refine orderly_names.bind fun names => orderly_unless _ ?_
  split
  · exact orderly_pure ()
  · exact orderly_throw _

/-- A place in operand position, with a mark that changes it or without. -/
private theorem orderly_placeOperand (scope : Scope) : Orderly R start (placeOperand scope) := by
  refine (orderly_place scope).bind fun found => (orderly_take? _).bind fun mark => ?_
  cases mark with
  | none => exact orderly_pure _
  | some mark => exact (orderly_assignable scope _ _).bind fun _ => orderly_pure _

/-- A place behind a mark that changes it. -/
private theorem orderly_bumped (scope : Scope) (up : Bool) (line : Nat) :
    Orderly R start (bumped scope up line) :=
  (orderly_place scope).bind fun _ => (orderly_assignable scope _ _).bind fun _ => orderly_pure _

section Operands

variable {operand : Parse Expr} (hoperand : Orderly R start operand)

include hoperand

/-- An operation and the operand behind it. -/
private theorem orderly_link : Orderly R start (link operand) := by
  refine (orderly_take? _).bind fun found => ?_
  cases found with
  | none => exact orderly_pure none
  | some found => exact hoperand.bind fun _ => orderly_pure _

/-- Operands with operations between them. -/
private theorem orderly_chain : Orderly R start (chain operand) :=
  hoperand.bind fun _ => (orderly_many (orderly_link hoperand)).bind fun _ => orderly_pure _

/-- What stands behind the mark of an assignment. -/
private theorem orderly_assignment (target : Place) (op : Option Arithmetic) (line : Nat) :
    Orderly R start (assignment operand target op line) :=
  hoperand.bind fun _ => (orderly_many (orderly_link hoperand)).bind fun _ => orderly_pure _

/-- A position of a call, which may be empty. -/
private theorem orderly_position : Orderly R start (position operand) := by
  refine (orderly_sees .comma).bind fun comma => (orderly_sees .rightParen).bind fun closing => ?_
  split
  · exact orderly_pure none
  · exact (orderly_chain hoperand).bind fun _ => orderly_pure _

/-- The positions of a call between its parentheses. -/
private theorem orderly_positions : Orderly R start (positions operand) := by
  refine (orderly_accept .leftParen).bind fun opened => ?_
  split
  · refine (orderly_accept .rightParen).bind fun closed => ?_
    split
    · exact orderly_pure []
    · refine (orderly_position hoperand).bind fun first => ?_
      refine (orderly_many (orderly_behind .comma (orderly_position hoperand))).bind fun rest => ?_
      exact (orderly_expect .rightParen).bind fun _ => orderly_pure _
  · exact orderly_pure []

/-- A procedure that is registered in front of a call is registered behind it. -/
private theorem orderlyAt_call (hs : start.Moves Names.Grows s) {ordinal : Nat} {p : Signature}
    (hp : s.names.procedures[ordinal]? = some p) : OrderlyAt R s (call operand ordinal) := by
  refine (orderly_ident s hs).bind fun t s₁ _ h₁ => ?_
  refine (orderly_positions hoperand s₁ (hs.trans h₁.grows)).bind fun given s₂ _ h₂ => ?_
  obtain ⟨q, hq, -⟩ := (h₁.trans h₂).grows.names.procedures hp
  refine orderlyAt_names_bind ?_
  rw [hq]
  dsimp only
  split
  · exact (orderly_pure _).here
  · exact (orderly_blame t _).here

/-- A name in operand position is a procedure of the tables at hand, or else a place. -/
private theorem orderly_named (scope : Scope) (name : String) :
    Orderly R start (do
      match (← Parse.names).procedure? name with
      | some ordinal => call operand ordinal
      | none => placeOperand scope) := by
  intro s hs
  refine orderlyAt_names_bind ?_
  cases hfound : s.names.procedure? name with
  | none => exact orderly_placeOperand scope s hs
  | some ordinal =>
    obtain ⟨p, hp, -⟩ := Names.signature_of_procedure? hfound
    exact orderlyAt_call hoperand hs hp

/-- An operand behind its first token, whatever this token is. -/
private theorem orderly_operandFrom (scope : Scope) (t : Token) :
    Orderly R start (operandFrom scope operand t) := by
  obtain ⟨kind, lexeme, line⟩ := t
  have hliteral : ∀ e : Expr, Orderly R start (advance >>= fun _ => pure e : Parse Expr) :=
    fun e => orderly_advance.bind fun _ => orderly_pure e
  cases kind with
  | int v | float v | quoted raw => exact hliteral _
  | ident name => exact orderly_named hoperand scope name
  | keyword k =>
    cases k with
    | yes | no => exact hliteral _
    | _ => exact orderly_unexpected
  | mark m =>
    cases m with
    | minus => exact orderly_advance.bind fun _ => hoperand.bind fun _ => orderly_pure _
    | leftParen =>
      exact orderly_advance.bind fun _ => (orderly_chain hoperand).bind fun _ =>
        (orderly_expect _).bind fun _ => orderly_pure _
    | plusPlus | minusMinus => exact orderly_advance.bind fun _ => orderly_bumped scope _ _
    | _ => exact orderly_unexpected
  | _ => exact orderly_unexpected

/-- A term of a condition. -/
private theorem orderly_term : Orderly R start (term operand) := by
  refine orderly_peek.bind fun next => orderly_get.bind fun s => ?_
  refine (orderly_many (orderly_take? _)).bind fun bangs => (orderly_chain hoperand).bind
    fun left => (orderly_take? _).bind fun mark => ?_
  cases mark with
  | none => exact (orderly_pure none).bind fun _ => orderly_pure _
  | some mark =>
    exact (orderly_chain hoperand).bind fun _ => (orderly_pure _).bind fun _ => orderly_pure _

/-- A connective and the term behind it. -/
private theorem orderly_laterTerm : Orderly R start (laterTerm operand) := by
  refine (orderly_take? _).bind fun found => ?_
  cases found with
  | none => exact orderly_pure none
  | some found => exact (orderly_term hoperand).bind fun _ => orderly_pure _

/-- Terms with connectives between them. -/
private theorem orderly_condition : Orderly R start (condition operand) :=
  (orderly_term hoperand).bind fun _ => (orderly_many (orderly_laterTerm hoperand)).bind fun _ =>
    orderly_pure _

end Operands

/-- Operands enter nothing, at any depth of nesting. -/
private theorem orderly_operand (scope : Scope) (n : Nat) : Orderly R start (operand scope n) := by
  induction n with
  | zero => exact orderly_unexpected
  | succ n ih =>
    refine orderly_peek.bind fun next => ?_
    cases next with
    | none => exact orderly_unexpected
    | some t => exact orderly_operandFrom ih scope t

/-! ### Parts of statements -/

section Parts

variable {operand : Parse Expr} (hoperand : Orderly R start operand)

include hoperand

/-- A place that no assignment follows is forgotten: the chain is read from the cursor in front of
it, whatever was found on the way. -/
private theorem orderly_statementExpr (scope : Scope) :
    Orderly R start (statementExpr scope operand) := by
  refine orderly_peek.bind fun next => ?_
  split
  · exact orderly_chain hoperand
  · refine orderly_names.bind fun names => ?_
    split
    · exact orderly_chain hoperand
    · intro s hs
      refine Ends.bind (Q := fun front s' => s = front ∧ s = s') ⟨rfl, rfl⟩ ?_
      rintro _ _ ⟨rfl, rfl⟩
      refine Ends.bind (orderly_place scope s hs) fun found s₁ h₁ => ?_
      refine Ends.bind ((orderly_take? _ s₁ (hs.trans h₁.grows)).behind h₁) fun mark s₂ h₂ => ?_
      cases mark with
      | some mark =>
        have hwrite := (orderly_assignable scope found.1 found.2).bind
          fun _ => orderly_assignment hoperand found.1 mark.1 mark.2.line
        exact (hwrite s₂ (hs.trans h₂.grows)).behind h₂
      | none =>
        -- the cursor goes back to `s`, whatever the place has read
        refine Ends.bind (Q := fun _ s' => s = s') rfl ?_
        rintro - _ rfl
        exact orderly_chain hoperand s hs

/-- The arguments of a print statement. -/
private theorem orderly_print (template : String) (line : Nat) :
    Orderly R start (print operand template line) :=
  (orderly_many (orderly_behind .comma (orderly_chain hoperand))).bind fun _ =>
    (orderly_expect _).bind fun _ => orderly_pure _

/-- What a return gives back. -/
private theorem orderly_giveBack (line : Nat) : Orderly R start (giveBack operand line) :=
  (orderly_unlessAt .semicolon (orderly_chain hoperand)).bind fun _ =>
    (orderly_expect _).bind fun _ => orderly_pure _

/-- An assignment or a chain as a statement. -/
private theorem orderly_exprStmt (scope : Scope) : Orderly R start (exprStmt scope operand) :=
  (orderly_statementExpr hoperand scope).bind fun _ =>
    (orderly_expect _).bind fun _ => orderly_pure _

variable {scope : Scope} [Names.Declaring scope R] {type : CellType}
  (hknown : start.names.Knows type)

include hknown

/-- The name is entered in front of its initial value, and stays if that is refused. -/
private theorem orderly_declarator : Orderly R start (declarator scope operand type) := by
  refine orderly_ident.bind fun t => (orderly_enter_variable t hknown).bind fun slot => ?_
  cases type with
  | object number => exact orderly_pure _
  | scalar type =>
    refine (orderly_take? _).bind fun mark => ?_
    cases mark with
    | none => exact orderly_pure _
    | some mark => exact (orderly_assignment hoperand _ _ _).bind fun _ => orderly_pure _

/-- Declared names, each of them entered behind the ones before. -/
private theorem orderly_declarators : Orderly R start (declarators scope operand type) := by
  have hdeclarator : Orderly R start (declarator scope operand type) :=
    orderly_declarator hoperand hknown
  exact hdeclarator.bind fun _ => (orderly_many (orderly_behind .comma hdeclarator)).bind
    fun _ => (orderly_expect _).bind fun _ => orderly_pure _

/-- Declared names up to a semicolon. -/
private theorem orderly_declaration : Orderly R start (declaration scope operand type) :=
  (orderly_declarators hoperand hknown).bind fun _ => orderly_pure _

end Parts

/-- A procedure is told from a variable without moving on. -/
private theorem orderly_procedureHead : Orderly R start procedureHead := by
  rintro ⟨tokens, endLine, names⟩ -
  unfold OrderlyAt Ends procedureHead
  split
  · rename_i hresult
    split at hresult <;> (cases hresult; exact .refl _)
  · rename_i hresult
    split at hresult <;> cases hresult

/-! ### Statements -/

section Bodies

variable {operand : Parse Expr} {statement : Parse Stmt} (hoperand : Orderly R start operand)
  (hstatement : Orderly R start statement)

include hstatement

/-- Statements between braces, which stay in the scope of what is around them. -/
private theorem orderly_block : Orderly R start (block statement) :=
  (orderly_expect _).bind fun _ => (orderly_many (orderly_unlessAt .rightBrace hstatement)).bind
    fun _ => (orderly_expect _).bind fun _ => orderly_pure _

/-- A block or a single statement. -/
private theorem orderly_body : Orderly R start (body statement) := by
  refine (orderly_sees .leftBrace).bind fun braced => ?_
  split
  · exact orderly_block hstatement
  · exact hstatement.bind fun _ => orderly_pure _

include hoperand

/-- The head of a loop, which declares nothing, and its body. -/
private theorem orderly_loop (scope : Scope) : Orderly R start (loop scope operand statement) :=
  (orderly_expect _).bind fun _ =>
    (orderly_unlessAt _ (orderly_statementExpr hoperand scope)).bind fun _ =>
    (orderly_expect _).bind fun _ =>
    (orderly_unlessAt _ (orderly_condition hoperand)).bind fun _ =>
    (orderly_expect _).bind fun _ =>
    (orderly_unlessAt _ (orderly_statementExpr hoperand scope)).bind fun _ =>
    (orderly_expect _).bind fun _ => (orderly_body hstatement).bind fun _ => orderly_pure _

/-- The head of a branch and its bodies. -/
private theorem orderly_branch : Orderly R start (branch operand statement) := by
  refine (orderly_expect _).bind fun _ => (orderly_condition hoperand).bind fun test =>
    (orderly_expect _).bind fun _ => (orderly_body hstatement).bind fun yes =>
    (orderly_take? _).bind fun found => ?_
  cases found with
  | none => exact orderly_pure _
  | some found => exact (orderly_body hstatement).bind fun _ => orderly_pure _

end Bodies

/-- A statement declares variables of its scope, of classes that are known where it begins. -/
private theorem orderly_statement (scope : Scope) [Names.Declaring scope R] (n : Nat) :
    Orderly R start (statement scope n) := by
  induction n with
  | zero => exact orderly_unexpected
  | succ n ih =>
    have hoperand : ∀ {start : Cursor}, Orderly R start (operand scope (n + 1)) :=
      orderly_operand scope (n + 1)
    refine orderly_peek.bind fun next => ?_
    cases next with
    | none => exact orderly_unexpected
    | some t =>
      dsimp only
      split
      · refine orderly_procedureHead.bind fun opens => ?_
        split
        · exact orderly_advance.bind fun _ => orderly_refuse _
        · exact orderly_advance.bind fun _ =>
            orderly_declaration hoperand (start.names.knows_scalar _)
      · intro s hs
        refine orderlyAt_names_bind ?_
        split
        · rename_i number hfound
          exact (orderly_advance.bind fun _ =>
            orderly_declaration hoperand (Names.knows_of_class? hfound)).here
        · exact orderly_exprStmt hoperand scope s hs
      · exact orderly_advance.bind fun _ => orderly_print hoperand _ _
      · exact orderly_advance.bind fun _ => orderly_loop hoperand ih scope
      · exact orderly_advance.bind fun _ => orderly_branch hoperand ih
      · split
        · exact orderly_refuse _
        · exact orderly_advance.bind fun _ => orderly_giveBack hoperand _
      · exact orderly_advance.bind fun _ => orderly_pure _
      · exact orderly_unexpected
      · exact orderly_unexpected
      · exact orderly_exprStmt hoperand scope

/-! ### Heads of items -/

/-- A literal, with a sign or without. -/
private theorem orderly_literal : Orderly R start literal := by
  refine (orderly_accept .minus).bind fun negative => orderly_advance.bind fun t => ?_
  obtain ⟨kind, lexeme, line⟩ := t
  cases kind with
  | int n | float x => cases negative <;> exact orderly_pure _
  | quoted raw =>
    cases negative with
    | false => exact orderly_pure _
    | true => exact orderly_blame _ _
  | keyword k =>
    cases k with
    | yes | no =>
      cases negative with
      | false => exact orderly_pure _
      | true => exact orderly_blame _ _
    | _ => exact orderly_blame _ _
  | _ => exact orderly_blame _ _

/-- A parameter is kept aside until its procedure is entered. -/
private theorem orderly_parameter (earlier : List Parameter) :
    Orderly R start (parameter earlier) := by
  refine (orderly_take _).bind fun type => orderly_ident.bind fun t =>
    orderly_unless _ ((orderly_take? _).bind fun mark => ?_)
  cases mark with
  | none => exact orderly_pure _
  | some mark => exact orderly_literal.bind fun _ => orderly_pure _

/-- A comma and the parameter behind it. -/
private theorem orderly_laterParameter (earlier : List Parameter) :
    Orderly R start (laterParameter earlier) := by
  refine (orderly_behind .comma (orderly_parameter earlier)).bind fun found => ?_
  cases found with
  | none => exact orderly_pure none
  | some p => exact orderly_pure _

/-- The parameters of a procedure between its parentheses. -/
private theorem orderly_parameters : Orderly R start parameters := by
  refine (orderly_accept .rightParen).bind fun closed => ?_
  split
  · exact orderly_pure []
  · exact (orderly_parameter []).bind fun first => (orderly_fold orderly_laterParameter _).bind
      fun _ => (orderly_expect _).bind fun _ => orderly_pure _

/-- The type of fields is scalar, or that of a class that has been entered before. -/
private theorem orderly_fieldType : Orderly R start fieldType := by
  refine orderly_advance.bind fun t => ?_
  split
  · exact orderly_pure _
  · refine orderly_names.bind fun names => ?_
    split
    · exact orderly_pure _
    · exact orderly_blame t _
  · exact orderly_blame t _

/-- A field is kept aside until its class is entered. -/
private theorem orderly_field (type : CellType) (earlier : List Field) :
    Orderly R start (field type earlier) :=
  orderly_ident.bind fun _ => orderly_unless _ (orderly_pure _)

/-- The fields of one type. -/
private theorem orderly_fieldGroup (earlier : List Field) : Orderly R start (fieldGroup earlier) :=
  orderly_fieldType.bind fun type => (orderly_field type earlier).bind fun _ =>
    (orderly_fold (fun earlier => orderly_behind .comma (orderly_field type earlier)) _).bind
      fun _ => (orderly_expect _).bind fun _ => orderly_pure _

/-! ### Items -/

/-- The entry of a procedure is the last one while its body is read, and the only one that changes.
It is there when the body has been read. -/
private theorem orderly_procedure (n : Nat) :
    Orderly (Names.Adds start.rest) start (procedure n) := by
  refine (orderly_take _).bind fun returns => orderly_ident.bind fun t =>
    (orderly_expect _).bind fun _ => ?_
  intro s hs
  refine (orderly_parameters s hs).bind fun parameters s₁ hparameters h₁ => ?_
  obtain ⟨tree, closing, hpast, -, hread⟩ := parameters_sound hparameters
  have hdefaults : ∀ q ∈ parameters, DefaultWritten (· ∈ start.rest) q := by
    refine defaultsWritten_of_readingAll hread fun token htoken => hs.rest.subset ?_
    rw [hpast.1]
    exact List.mem_append_left _ (List.mem_append_left _ htoken)
  refine Ends.bind (ends_enter t _ s₁) ?_
  rintro ordinal s₂ ⟨hopened, hrest⟩
  -- from here on only the new entry changes, up to wherever the body ends or breaks off
  have hmoves : ∀ {s' : Cursor}, s₂.Moves (Names.Declares (.procedure ordinal)) s' →
      s₁.Moves (Names.Adds start.rest) s' := fun h =>
    ⟨h.rest.trans (hrest ▸ List.suffix_rfl), .single (.procedure hdefaults hopened h.names)⟩
  have hbody : Orderly (Names.Declares (.procedure ordinal)) s₂
      (block (statement (.procedure ordinal) n)) :=
    orderly_block (orderly_statement (.procedure ordinal) n)
  refine Ends.mono (hbody.here.bind fun body s₃ _ h₃ => orderlyAt_names_bind ?_)
    (fun _ _ => hmoves) fun _ _ hfailed => ⟨hmoves hfailed.1, hfailed.2⟩
  have hentry : s₂.names.procedures[ordinal]? = some ⟨t.lexeme, returns.1, parameters, []⟩ := by
    obtain ⟨rfl, hnames⟩ := Names.declareProcedure_eq_some hopened
    rw [hnames]
    exact List.getElem?_concat_length
  obtain ⟨q, hq, -⟩ := h₃.grows.names.procedures hentry
  rw [hq]
  exact (orderly_pure _).here

/-- Objects may be declared of a class that has been entered. -/
private theorem orderly_classObjects [Names.Declaring .top R] {number : Nat}
    (hknown : start.names.Knows (.object number)) (n : Nat) :
    Orderly R start (classObjects n number) := by
  refine orderly_peek.bind fun next => ?_
  split
  · exact orderly_declarators (orderly_operand .top n) hknown
  · exact (orderly_expect _).bind fun _ => orderly_pure _

/-- A class is entered with the fields between its braces, and objects of it are declared behind. -/
private theorem orderly_classDef (n : Nat) :
    Orderly (Names.Adds start.rest) start (classDef n) := by
  refine orderly_ident.bind fun t => (orderly_expect _).bind fun _ => ?_
  intro s hs
  refine (orderly_fold (fun earlier => orderly_unlessAt .rightBrace (orderly_fieldGroup earlier)) []
    s hs).bind fun fields s₁ hfields h₁ => ?_
  obtain ⟨groups, found, hpast, -, hread, rfl, -⟩ := fieldGroups_sound hfields
  have hs₁ := hs.trans h₁.grows
  refine (orderly_expect .rightBrace s₁ hs₁).bind fun _ s₂ _ h₂ => ?_
  have hfieldsOf : FieldsOf start.rest s₂.names found.flatten :=
    (fieldsOf_of_readings hread fun token htoken => hs.rest.subset
      (hpast.1 ▸ List.mem_append_left _ htoken)).mono (h₁.trans h₂).grows.names
  refine Ends.bind (ends_enter t _ s₂) ?_
  rintro number s₃ ⟨hentered, hrest⟩
  have h₃ : s₂.Moves (Names.Adds start.rest) s₃ :=
    ⟨hrest ▸ List.suffix_rfl, .single (.classDef hfieldsOf hentered)⟩
  have hknown : s₃.names.Knows (.object number) := by
    obtain ⟨rfl, hnames⟩ := Names.declareClass_eq_some hentered
    simp [hnames, Names.Knows]
  have hobjects : Orderly (Names.Adds start.rest) s₃ (classObjects n number) :=
    orderly_classObjects hknown n
  exact (hobjects.bind fun vars => orderly_pure (Stmt.classDef number vars)).here.behind h₃

/-- A constant is a global of a known type, so it may be entered. -/
private theorem orderly_define [Names.Declaring .top R] : Orderly R start define :=
  orderly_ident.bind fun t => orderly_literal.bind fun _ =>
    (orderly_accept .semicolon).bind fun _ =>
    (orderly_enter_variable t (start.names.knows_scalar _)).bind fun _ => orderly_pure _

/-- An item of a program makes entries of its own tokens. -/
private theorem orderly_topLevel (n : Nat) :
    Orderly (Names.Adds start.rest) start (topLevel n) := by
  refine orderly_peek.bind fun next => ?_
  cases next with
  | none => exact orderly_unexpected
  | some t =>
    dsimp only
    split
    · refine orderly_procedureHead.bind fun opens => ?_
      split
      · exact orderly_procedure n
      · exact orderly_statement .top n
    · exact orderly_advance.bind fun _ => orderly_classDef n
    · exact orderly_advance.bind fun _ => orderly_define
    · exact orderly_statement .top n

/-- An item, unless the text is at its end. -/
private theorem orderly_item (n : Nat) : Orderly (Names.Adds start.rest) start (item n) := by
  refine orderly_peek.bind fun next => ?_
  cases next with
  | none => exact orderly_pure none
  | some t => exact (orderly_topLevel n).bind fun _ => orderly_pure _

/-- All items of a text make entries, and blame the text if one of them fails. -/
private theorem orderly_program : Orderly (Names.Adds start.rest) start program :=
  orderly_get.bind fun _ => orderly_many (orderly_item _)

/-! ### Programs -/

variable {names later : Names} {stream : Stream}

/-- Whether a program parses or not, the tables behind it are those in front with entries that are
read from its tokens. -/
theorem parse_adds {outcome : Except ParseFailure (List Stmt)}
    (h : parse names stream = (outcome, later)) : names.Adds stream.tokens later := by
  have hprogram : Orderly (Names.Adds stream.tokens) ⟨stream.tokens, stream.endLine, names⟩
      program := orderly_program
  unfold parse at h
  split at h
  · rename_i hresult
    cases h
    exact (hprogram.here.of_ok hresult).names
  · rename_i hresult
    cases h
    exact (hprogram.here.of_error hresult).1.names

/-- A program that does not parse is at fault itself. -/
theorem parse_error {failure : ParseFailure} (h : parse names stream = (.error failure, later)) :
    ∃ e, failure = .error e := by
  have hprogram : Orderly (Names.Adds stream.tokens) ⟨stream.tokens, stream.endLine, names⟩
      program := orderly_program
  unfold parse at h
  split at h
  · cases h
  · rename_i hresult
    cases h
    exact (hprogram.here.of_error hresult).2

end Grammar

end Litany
