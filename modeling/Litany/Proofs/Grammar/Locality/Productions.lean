import Litany.Proofs.Grammar.Locality.Rules
import Litany.Proofs.Grammar.Readings
import Litany.Proofs.Grammar.Soundness.Expression

/-!
# The productions move on along their text

Every production of the grammar is alike to itself, and it stays alike when the parsers it takes as
arguments are exchanged for others that are alike. Where it calls them behind its first token only,
it is enough that they are alike there. A fault of a place is blamed on all of its tokens, every
other one on a single token or on the end of the text.

With two depths of nesting for these parsers this becomes `alike_operand` and `alike_statement`.
-/

namespace Litany

namespace Grammar

open Parse

variable {text : Stream} {tokens : List Token} {scope : Scope}

/-! ### Places -/

/-- A field behind a dot. -/
theorem alike_segment : Alike text tokens segment segment :=
  .behind .dot (alike_ident.bind fun _ => alike_pure _)

/-- A location with the line that it begins on, as it is written in a text. -/
def WrittenIn (text : Stream) (p : Place) (line : Nat) : Prop :=
  ∃ tree : PlaceTree, tree.yield <:+: text.tokens ∧ p.name = tree.name ∧
    line = tree.root.token.line

/-- A place is called what its tokens spell. -/
private theorem PlaceTree.name_of_reading {tree : PlaceTree} {names : Names} {p : Place}
    (h : tree.reading names scope = some p) : p.name = tree.name := by
  obtain ⟨slot, rootType, constant, type, -, -, -, rfl⟩ := reading_eq_some h
  rfl

/-- A place that cannot be followed is blamed as a whole, on the line of its root. -/
theorem alike_place : Alike text tokens (place scope) (place scope) := by
  intro s hs hrest
  refine AlikeAt.bind (alike_ident s hs hrest) fun t s₁ hident h₁ => ?_
  obtain ⟨root, rfl, hroot, -⟩ := ident_eq_ok hident
  have hs₁ := hs.onward h₁
  have ht : root.token ∈ text.tokens := (hs.taken hroot).subset List.mem_cons_self
  have hname : (Kind.ident? root.token.kind).isSome = true := by rw [root.fits]; rfl
  refine AlikeAt.bind (alike_names.here hs₁) fun names s₁' hnames _ => ?_
  obtain ⟨rfl, rfl⟩ := EStateM.Result.ok.inj hnames
  split
  · exact .of_error rfl rfl (located_blame_name ht hname (by decide))
  · split
    · exact .of_error rfl rfl (located_table _)
    · refine AlikeAt.bind (alike_segment.many.here hs₁) fun path s₂ hpath h₂ => ?_
      split
      · exact .of_ok rfl rfl (.refl s₂)
      · obtain ⟨fields, hfields, -, rfl⟩ := segments_sound hpath
        refine .of_error rfl rfl fun e he => ?_
        obtain rfl := ParseFailure.error.inj he
        have hyield : s.Past (PlaceTree.yield ⟨root, fields⟩) s₂ := hroot.cons hfields
        exact .place (hs.taken hyield) (.inl rfl)

/-- What follows a place knows where that place is written. -/
private theorem alike_place_bind {β : Type} {f g : Place × Nat → Parse β}
    (h : ∀ p line, WrittenIn text p line → Alike text tokens (f (p, line)) (g (p, line))) :
    Alike text tokens (place scope >>= f) (place scope >>= g) := by
  intro s hs hrest
  refine AlikeAt.bind (alike_place s hs hrest) fun found s' hplace hmoves => ?_
  obtain ⟨p, line⟩ := found
  obtain ⟨tree, hpast, -, hreading, hline⟩ := place_sound hplace
  exact h p line ⟨tree, hs.taken hpast, PlaceTree.name_of_reading hreading, hline⟩ s'
    (hs.onward hmoves) (hmoves.suffix.trans hrest)

/-- A place that may not be assigned to is blamed as a whole, where it is written. -/
private theorem alike_assignable {p : Place} {line : Nat} (hp : WrittenIn text p line) :
    Alike text tokens (assignable scope p line) (assignable scope p line) := by
  obtain ⟨tree, htree, hname, rfl⟩ := hp
  have hrefused : ∀ {cause : SyntaxCause}, cause = .unknownField ∨ cause = .assignToConstant →
      (ParseFailure.error ⟨cause, p.name, tree.root.token.line⟩).Located text := by
    intro cause hcause e he
    obtain rfl := ParseFailure.error.inj he
    rw [hname]
    exact .place htree hcause
  refine alike_names.bind fun names => alike_unless (hrefused (.inr rfl)) ?_
  split
  · exact alike_pure ()
  · exact alike_throw (hrefused (.inl rfl))

/-- A place in operand position: the mark behind it that would change it is the only use of where
the place is written. -/
private theorem alike_placeOperand :
    Alike text tokens (placeOperand scope) (placeOperand scope) := by
  refine alike_place_bind fun p line hp => (alike_take? _).bind fun mark => ?_
  cases mark with
  | none => exact alike_pure _
  | some mark => exact (alike_assignable hp).bind fun _ => alike_pure _

/-- A place behind a mark that changes it. -/
private theorem alike_bumped (up : Bool) (line : Nat) :
    Alike text tokens (bumped scope up line) (bumped scope up line) :=
  alike_place_bind fun _ _ hp => (alike_assignable hp).bind fun _ => alike_pure _

/-! ### Chains and calls -/

section Operands

variable {operand other : Parse Expr} (hoperand : Alike text tokens operand other)

include hoperand

/-- An operation, with operands that are alike. -/
theorem alike_link : Alike text tokens (link operand) (link other) := by
  refine (alike_take? _).bind fun found => ?_
  cases found with
  | none => exact alike_pure none
  | some found => exact hoperand.bind fun _ => alike_pure _

/-- Chains of operands that are alike. -/
theorem alike_chain : Alike text tokens (chain operand) (chain other) :=
  hoperand.bind fun _ => (alike_link hoperand).many.bind fun _ => alike_pure _

/-- Assigned chains of operands that are alike. -/
private theorem alike_assignment (target : Place) (op : Option Arithmetic) (line : Nat) :
    Alike text tokens (assignment operand target op line) (assignment other target op line) :=
  hoperand.bind fun _ => (alike_link hoperand).many.bind fun _ => alike_pure _

/-- Positions of a call that are read alike. -/
theorem alike_position : Alike text tokens (position operand) (position other) := by
  refine (alike_sees .comma).bind fun comma => (alike_sees .rightParen).bind fun closing => ?_
  split
  · exact alike_pure none
  · exact (alike_chain hoperand).bind fun _ => alike_pure _

/-- Between its parentheses a call is read alike. -/
private theorem alike_positions : Alike text tokens (positions operand) (positions other) := by
  refine (alike_accept .leftParen).bind fun opened => ?_
  split
  · refine (alike_accept .rightParen).bind fun closed => ?_
    split
    · exact alike_pure []
    · refine (alike_position hoperand).bind fun first => ?_
      refine (Alike.behind .comma (alike_position hoperand)).many.bind fun rest => ?_
      exact (alike_expect .rightParen).bind fun _ => alike_pure _
  · exact alike_pure []

end Operands

/-- The first parameter takes the first position, or else its default, or is missing. -/
private theorem arrange_cons (p : Parameter) (parameters : List Parameter)
    (given : List (Option Expr)) : arrange (p :: parameters) given =
      match given.head?.join <|> p.default.map Expr.literal with
      | some e => (arrange parameters given.tail).map (e :: ·)
      | none => .error (.missingArgument p.name) := by
  rcases given with _ | ⟨_ | e, given⟩
  · cases hdefault : p.default <;> simp only [arrange, hdefault] <;> rfl
  · cases hdefault : p.default <;> simp only [arrange, hdefault] <;> rfl
  · rfl

/-- Arguments are refused on account of the name of the procedure. -/
private theorem blamesName_of_arrange {parameters : List Parameter} {given : List (Option Expr)}
    {cause : SyntaxCause} (h : arrange parameters given = .error cause) :
    cause.blamesName = true := by
  induction parameters generalizing given with
  | nil => cases h
  | cons p parameters ih =>
    rw [arrange_cons] at h
    split at h
    · cases hlater : arrange parameters given.tail with
      | ok es =>
        rw [hlater] at h
        cases h
      | error cause' =>
        rw [hlater] at h
        obtain rfl := Except.error.inj h
        exact ih hlater
    · obtain rfl := Except.error.inj h
      rfl

/-- Too many arguments and too few are blamed on the name of the procedure. -/
private theorem blamesName_of_arguments {parameters : List Parameter} {given : List (Option Expr)}
    {cause : SyntaxCause} (h : arguments parameters given = .error cause) :
    cause.blamesName = true := by
  unfold arguments at h
  split at h
  · obtain rfl := Except.error.inj h
    rfl
  · exact blamesName_of_arrange h

/-! ### Operands -/

section Nested

variable {nested other : Parse Expr}
  (hnested : ∀ t rest, t :: rest <:+ tokens → Alike text rest nested other)

include hnested

/-- The positions of a call stand behind the name of its procedure. -/
theorem alike_call (ordinal : Nat) :
    Alike text tokens (call nested ordinal) (call other ordinal) := by
  refine alike_ident_bind fun t rest hrest ht hident => ?_
  refine (alike_positions (hnested t rest hrest)).bind fun given => alike_names.bind fun names => ?_
  split
  · exact alike_throw (located_table _)
  · split
    · exact alike_pure _
    · rename_i hrefused
      have hcause := blamesName_of_arguments hrefused
      refine alike_throw (located_blame_name ht hident ?_)
      rintro rfl
      cases hcause

/-- Behind its first token an operand depends on what is nested in it, which begins further on. -/
private theorem alike_operandFrom (t : Token) :
    Alike text tokens (operandFrom scope nested t) (operandFrom scope other t) := by
  obtain ⟨kind, lexeme, line⟩ := t
  cases kind with
  | int v | float v | quoted raw => exact alike_advance_bind fun _ _ _ _ => alike_pure _
  | ident name =>
    refine alike_names.bind fun names => ?_
    split
    · exact alike_call hnested _
    · exact alike_placeOperand
  | keyword k =>
    cases k with
    | yes | no => exact alike_advance_bind fun _ _ _ _ => alike_pure _
    | _ => exact alike_unexpected
  | mark m =>
    cases m with
    | minus =>
      exact alike_advance_bind fun t rest hrest _ =>
        (hnested t rest hrest).bind fun _ => alike_pure _
    | leftParen =>
      exact alike_advance_bind fun t rest hrest _ =>
        (alike_chain (hnested t rest hrest)).bind fun _ =>
          (alike_expect _).bind fun _ => alike_pure _
    | plusPlus | minusMinus => exact alike_advance_bind fun _ _ _ _ => alike_bumped _ _
    | _ => exact alike_unexpected
  | _ => exact alike_unexpected

end Nested

/-- An operand, with a parser of the operands nested in it. -/
def operandOf (scope : Scope) (nested : Parse Expr) : Parse Expr := do
  match ← peek with
  | none => unexpected
  | some t => operandFrom scope nested t

/-- An operand at some depth is one with operands of the next depth nested in it. -/
theorem operand_succ (scope : Scope) (n : Nat) :
    operand scope (n + 1) = operandOf scope (operand scope n) :=
  rfl

/-- An operand matters for nested operands only behind its first token. -/
theorem alike_operandOf {nested other : Parse Expr}
    (hnested : ∀ t rest, t :: rest <:+ tokens → Alike text rest nested other) :
    Alike text tokens (operandOf scope nested) (operandOf scope other) := by
  refine alike_peek.bind fun next => ?_
  cases next with
  | none => exact alike_unexpected
  | some t => exact alike_operandFrom hnested t

/-- At the end of a text there is no operand, nested or not. -/
private theorem operand_nil (scope : Scope) (n : Nat) (s : Cursor) (hs : s.rest = []) :
    operand scope n s = unexpected s := by
  obtain ⟨rest, endLine, names⟩ := s
  obtain rfl : rest = [] := hs
  cases n <;> rfl

/-- Two depths of nesting are as good as one another if they cover as many of the tokens left. -/
theorem alike_operand {n m : Nat} (h : min n tokens.length = min m tokens.length) :
    Alike text tokens (operand scope n) (operand scope m) :=
  alike_of_depth rfl (operand_nil scope) (fun _ hnested => alike_operandOf hnested) h

/-! ### Conditions and parts of statements -/

section Operands

variable {operand other : Parse Expr} (hoperand : Alike text tokens operand other)

include hoperand

/-- Terms of operands that are alike. -/
theorem alike_term : Alike text tokens (term operand) (term other) := by
  refine alike_peek.bind fun next => alike_get.bind fun s => ?_
  refine (alike_take? _).many.bind fun bangs => (alike_chain hoperand).bind fun left =>
    (alike_take? _).bind fun mark => ?_
  cases mark with
  | none => exact (alike_pure none).bind fun _ => alike_pure _
  | some mark =>
    exact (alike_chain hoperand).bind fun _ => (alike_pure _).bind fun _ => alike_pure _

/-- Connectives in front of terms that are alike. -/
theorem alike_laterTerm : Alike text tokens (laterTerm operand) (laterTerm other) := by
  refine (alike_take? _).bind fun found => ?_
  cases found with
  | none => exact alike_pure none
  | some found => exact (alike_term hoperand).bind fun _ => alike_pure _

/-- Conditions of operands that are alike. -/
theorem alike_condition : Alike text tokens (condition operand) (condition other) :=
  (alike_term hoperand).bind fun _ => (alike_laterTerm hoperand).many.bind fun _ => alike_pure _

/-- A place that no assignment follows is read again, from the cursor in front of it. -/
theorem alike_statementExpr :
    Alike text tokens (statementExpr scope operand) (statementExpr scope other) := by
  refine alike_peek.bind fun next => ?_
  split
  · exact alike_chain hoperand
  · refine alike_names.bind fun names => ?_
    split
    · exact alike_chain hoperand
    · intro s hs hrest
      refine AlikeAt.bind (alike_get s hs hrest) fun start s' hget _ => ?_
      obtain ⟨rfl, rfl⟩ := EStateM.Result.ok.inj hget
      by_cases hread : ∃ found s₁, place scope s = .ok found s₁ ∧ Lacks Kind.assignment? s₁.rest
      · obtain ⟨⟨p, line⟩, s₁, hplace, hlacks⟩ := hread
        have hnone : take? Kind.assignment? s₁ = .ok none s₁ := take?_lacks hlacks
        exact (alike_chain hoperand s hs hrest).congr
          ((bind_of_ok hplace _).trans (bind_of_ok hnone _))
          ((bind_of_ok hplace _).trans (bind_of_ok hnone _))
      · refine AlikeAt.bind (alike_place s hs hrest) fun found s₁ hplace h₁ => ?_
        have hs₁ := hs.onward h₁
        have hrest₁ := h₁.suffix.trans hrest
        refine AlikeAt.bind (alike_take? _ s₁ hs₁ hrest₁) fun mark s₂ htake h₂ => ?_
        cases mark with
        | none =>
          exact absurd ⟨found, s₁, hplace, lacks_of_take?_eq_none htake⟩ hread
        | some mark =>
          obtain ⟨p, line⟩ := found
          obtain ⟨tree, hpast, -, hreading, hline⟩ := place_sound hplace
          have hp : WrittenIn text p line :=
            ⟨tree, hs.taken hpast, PlaceTree.name_of_reading hreading, hline⟩
          exact ((alike_assignable hp).bind fun _ =>
            alike_assignment hoperand p mark.1 mark.2.line) s₂ (hs₁.onward h₂)
              (h₂.suffix.trans hrest₁)

/-- Declared names with initial values that are read alike. -/
theorem alike_declarator (type : CellType) :
    Alike text tokens (declarator scope operand type) (declarator scope other type) := by
  refine alike_ident_bind fun t rest hrest ht hident =>
    (alike_enter ht hident _).bind fun slot => ?_
  cases type with
  | object number => exact alike_pure _
  | scalar type =>
    refine (alike_take? _).bind fun mark => ?_
    cases mark with
    | none => exact alike_pure _
    | some mark =>
      exact (alike_assignment (hoperand.tail hrest) _ _ _).bind fun _ => alike_pure _

/-- Declared names in a row, read alike one by one. -/
theorem alike_declarators (type : CellType) :
    Alike text tokens (declarators scope operand type) (declarators scope other type) := by
  have hdeclarator : Alike text tokens (declarator scope operand type)
      (declarator scope other type) := alike_declarator hoperand type
  exact hdeclarator.bind fun _ => (Alike.behind .comma hdeclarator).many.bind fun _ =>
    (alike_expect _).bind fun _ => alike_pure _

/-- Declarations with initial values that are read alike. -/
private theorem alike_declaration (type : CellType) :
    Alike text tokens (declaration scope operand type) (declaration scope other type) :=
  (alike_declarators hoperand type).bind fun _ => alike_pure _

private theorem alike_print (template : String) (line : Nat) :
    Alike text tokens (print operand template line) (print other template line) :=
  (Alike.behind .comma (alike_chain hoperand)).many.bind fun _ =>
    (alike_expect _).bind fun _ => alike_pure _

private theorem alike_giveBack (line : Nat) :
    Alike text tokens (giveBack operand line) (giveBack other line) :=
  (Alike.unlessAt .semicolon (alike_chain hoperand)).bind fun _ =>
    (alike_expect _).bind fun _ => alike_pure _

private theorem alike_exprStmt :
    Alike text tokens (exprStmt scope operand) (exprStmt scope other) :=
  (alike_statementExpr hoperand).bind fun _ => (alike_expect _).bind fun _ => alike_pure _

end Operands

/-- What a type begins is told by the next two tokens, which are not taken. -/
private theorem alike_procedureHead : Alike text tokens procedureHead procedureHead := by
  rintro ⟨rest, endLine, names⟩ - -
  match rest with
  | _ :: _ :: _ :: _ => exact .of_ok rfl rfl (.refl _)
  | [] | [_] | [_, _] => exact .of_ok rfl rfl (.refl _)

/-! ### Statements -/

section Bodies

variable {nested other : Parse Stmt} (hnested : Alike text tokens nested other)

include hnested

/-- Blocks of statements that are alike. -/
theorem alike_block : Alike text tokens (block nested) (block other) :=
  (alike_expect _).bind fun _ => (Alike.unlessAt .rightBrace hnested).many.bind fun _ =>
    (alike_expect _).bind fun _ => alike_pure _

/-- Bodies of statements that are alike. -/
theorem alike_body : Alike text tokens (body nested) (body other) := by
  refine (alike_sees .leftBrace).bind fun braced => ?_
  split
  · exact alike_block hnested
  · exact hnested.bind fun _ => alike_pure _

variable {operand operand' : Parse Expr} (hoperand : Alike text tokens operand operand')

include hoperand

/-- Loops with heads and bodies that are alike. -/
theorem alike_loop : Alike text tokens (loop scope operand nested) (loop scope operand' other) :=
  (alike_expect _).bind fun _ => (Alike.unlessAt _ (alike_statementExpr hoperand)).bind fun _ =>
    (alike_expect _).bind fun _ => (Alike.unlessAt _ (alike_condition hoperand)).bind fun _ =>
    (alike_expect _).bind fun _ => (Alike.unlessAt _ (alike_statementExpr hoperand)).bind fun _ =>
    (alike_expect _).bind fun _ => (alike_body hnested).bind fun _ => alike_pure _

/-- Branches with tests and bodies that are alike. -/
theorem alike_branch : Alike text tokens (branch operand nested) (branch operand' other) := by
  refine (alike_expect _).bind fun _ => (alike_condition hoperand).bind fun test =>
    (alike_expect _).bind fun _ => (alike_body hnested).bind fun yes =>
    (alike_take? _).bind fun found => ?_
  cases found with
  | none => exact alike_pure _
  | some found => exact (alike_body hnested).bind fun _ => alike_pure _

end Bodies

/-- A statement, with parsers of its operands and of the statements nested in it. -/
def statementOf (scope : Scope) (operand : Parse Expr) (nested : Parse Stmt) : Parse Stmt := do
  match ← peek with
  | none => unexpected
  | some t =>
    match t.kind with
    | .scalar type => do
      if ← procedureHead then
        let _ ← advance
        refuse .nestedProcedure
      else
        let _ ← advance
        declaration scope operand (.scalar type)
    | .ident name => do
      match (← names).class? name with
      | some number => do
        let _ ← advance
        declaration scope operand (.object number)
      | none => exprStmt scope operand
    | .quoted template => do
      let _ ← advance
      print operand template t.line
    | .keyword .loop => do
      let _ ← advance
      loop scope operand nested
    | .keyword .branch => do
      let _ ← advance
      branch operand nested
    | .keyword .giveBack => do
      if scope = .top then refuse .returnOutside
      else
        let _ ← advance
        giveBack operand t.line
    | .foreign code => do
      let _ ← advance
      return .foreign code t.line
    | .keyword .classDef => unexpected
    | .define => unexpected
    | _ => exprStmt scope operand

/-- A statement at some depth is one with statements of the next depth nested in it. -/
theorem statement_succ (scope : Scope) (n : Nat) :
    statement scope (n + 1) = statementOf scope (operand scope (n + 1)) (statement scope n) :=
  rfl

/-- A statement matters for nested statements only behind its first token. -/
theorem alike_statementOf {operand operand' : Parse Expr} {nested other : Parse Stmt}
    (hoperand : Alike text tokens operand operand')
    (hnested : ∀ t rest, t :: rest <:+ tokens → Alike text rest nested other) :
    Alike text tokens (statementOf scope operand nested) (statementOf scope operand' other) := by
  have hdeclaration : ∀ type : CellType,
      Alike text tokens (advance >>= fun _ => declaration scope operand type)
        (advance >>= fun _ => declaration scope operand' type) := fun type =>
    alike_advance_bind fun _ _ hrest _ => alike_declaration (hoperand.tail hrest) type
  refine alike_peek.bind fun next => ?_
  cases next with
  | none => exact alike_unexpected
  | some t =>
    dsimp only
    split
    · refine alike_procedureHead.bind fun opens => ?_
      split
      · exact alike_advance_bind fun _ _ _ _ => alike_refuse (by decide) rfl
      · exact hdeclaration _
    · refine alike_names.bind fun names => ?_
      split
      · exact hdeclaration _
      · exact alike_exprStmt hoperand
    · exact alike_advance_bind fun _ _ hrest _ => alike_print (hoperand.tail hrest) _ _
    · exact alike_advance_bind fun t rest hrest _ =>
        alike_loop (hnested t rest hrest) (hoperand.tail hrest)
    · exact alike_advance_bind fun t rest hrest _ =>
        alike_branch (hnested t rest hrest) (hoperand.tail hrest)
    · split
      · exact alike_refuse (by decide) rfl
      · exact alike_advance_bind fun _ _ hrest _ => alike_giveBack (hoperand.tail hrest) _
    · exact alike_advance_bind fun _ _ _ _ => alike_pure _
    · exact alike_unexpected
    · exact alike_unexpected
    · exact alike_exprStmt hoperand

/-- At the end of a text there is no statement, nested or not. -/
private theorem statement_nil (scope : Scope) (n : Nat) (s : Cursor) (hs : s.rest = []) :
    statement scope n s = unexpected s := by
  obtain ⟨rest, endLine, names⟩ := s
  obtain rfl : rest = [] := hs
  cases n <;> rfl

/-- Two depths of nesting are as good as one another if they cover as many of the tokens left. -/
theorem alike_statement {n m : Nat} (h : min n tokens.length = min m tokens.length) :
    Alike text tokens (statement scope n) (statement scope m) :=
  alike_of_depth rfl (statement_nil scope)
    (fun hdepth hnested => alike_statementOf (alike_operand hdepth) hnested) h

/-! ### Programs -/

/-- A literal, with a sign or without. -/
theorem alike_literal : Alike text tokens literal literal := by
  refine (alike_accept .minus).bind fun negative => alike_advance_bind fun t rest _ ht => ?_
  have hblame : Alike text rest (throw (t.blame .unexpectedToken) : Parse Value)
      (throw (t.blame .unexpectedToken)) :=
    alike_throw (located_blame_token ht (by decide) rfl)
  cases t.kind with
  | int n | float x => cases negative <;> exact alike_pure _
  | quoted raw =>
    cases negative with
    | false => exact alike_pure _
    | true => exact hblame
  | keyword k =>
    cases k with
    | yes | no =>
      cases negative with
      | false => exact alike_pure _
      | true => exact hblame
    | _ => exact hblame
  | _ => exact hblame

/-- A parameter whose name is taken is blamed on that name. -/
theorem alike_parameter (earlier : List Parameter) :
    Alike text tokens (parameter earlier) (parameter earlier) := by
  refine (alike_take _).bind fun type => alike_ident_bind fun t rest _ ht hident => ?_
  refine alike_unless (located_blame_name ht hident (by decide))
    ((alike_take? _).bind fun mark => ?_)
  cases mark with
  | none => exact alike_pure _
  | some mark => exact alike_literal.bind fun _ => alike_pure _

/-- A comma and the parameter behind it. -/
theorem alike_laterParameter (earlier : List Parameter) :
    Alike text tokens (laterParameter earlier) (laterParameter earlier) := by
  refine (Alike.behind .comma (alike_parameter earlier)).bind fun found => ?_
  cases found with
  | none => exact alike_pure none
  | some p => exact alike_pure _

/-- Parameters between parentheses. -/
theorem alike_parameters : Alike text tokens parameters parameters := by
  refine (alike_accept .rightParen).bind fun closed => ?_
  split
  · exact alike_pure []
  · exact (alike_parameter []).bind fun first => (alike_fold alike_laterParameter _).bind
      fun _ => (alike_expect _).bind fun _ => alike_pure _

/-- A procedure at two depths that are as good for its body. -/
theorem alike_procedure {n m : Nat} (h : min n tokens.length = min m tokens.length) :
    Alike text tokens (procedure n) (procedure m) := by
  refine (alike_take _).bind fun returns => alike_ident_bind fun t rest hrest ht hident => ?_
  refine (alike_expect _).bind fun _ => alike_parameters.bind fun parameters =>
    (alike_enter ht hident _).bind fun ordinal =>
    (alike_block ((alike_statement h).tail hrest)).bind fun body => alike_names.bind fun names => ?_
  split
  · exact alike_throw (located_table _)
  · exact alike_pure _

/-- A type of fields that is not known is blamed on its name. -/
private theorem alike_fieldType : Alike text tokens fieldType fieldType := by
  refine alike_advance_bind fun t rest _ ht => ?_
  split
  · exact alike_pure _
  · rename_i name hkind
    refine alike_names.bind fun names => ?_
    split
    · exact alike_pure _
    · exact alike_throw (located_blame_name ht (by rw [hkind]; rfl) (by decide))
  · exact alike_throw (located_blame_token ht (by decide) rfl)

/-- A field whose name is taken is blamed on that name. -/
theorem alike_field (type : CellType) (earlier : List Field) :
    Alike text tokens (field type earlier) (field type earlier) :=
  alike_ident_bind fun _ _ _ ht hident =>
    alike_unless (located_blame_name ht hident (by decide)) (alike_pure _)

/-- The fields of one type. -/
theorem alike_fieldGroup (earlier : List Field) :
    Alike text tokens (fieldGroup earlier) (fieldGroup earlier) :=
  alike_fieldType.bind fun type => (alike_field type earlier).bind fun _ =>
    (alike_fold (fun earlier => .behind .comma (alike_field type earlier)) _).bind fun _ =>
      (alike_expect _).bind fun _ => alike_pure _

/-- Objects declared behind a class, with initial values at two depths that are as good. -/
private theorem alike_classObjects {n m : Nat} (h : min n tokens.length = min m tokens.length)
    (number : Nat) : Alike text tokens (classObjects n number) (classObjects m number) := by
  refine alike_peek.bind fun next => ?_
  split
  · exact alike_declarators (alike_operand h) _
  · exact (alike_expect _).bind fun _ => alike_pure _

/-- A class at two depths that are as good for what is declared behind it. -/
theorem alike_classDef {n m : Nat} (h : min n tokens.length = min m tokens.length) :
    Alike text tokens (classDef n) (classDef m) := by
  refine alike_ident_bind fun t rest hrest ht hident => (alike_expect _).bind fun _ =>
    (alike_fold (fun earlier => .unlessAt .rightBrace (alike_fieldGroup earlier)) _).bind
      fun fields => (alike_expect _).bind fun _ => (alike_enter ht hident _).bind fun number => ?_
  have hobjects : Alike text tokens (classObjects n number) (classObjects m number) :=
    alike_classObjects h number
  exact (hobjects.tail hrest).bind fun _ => alike_pure _

/-- A constant whose name is taken is blamed on that name. -/
theorem alike_define : Alike text tokens define define :=
  alike_ident_bind fun _ _ _ ht hident => alike_literal.bind fun _ =>
    (alike_accept .semicolon).bind fun _ => (alike_enter ht hident _).bind fun _ => alike_pure _

/-- An item at two depths that are as good for what is nested in it. -/
theorem alike_topLevel {n m : Nat} (h : min n tokens.length = min m tokens.length) :
    Alike text tokens (topLevel n) (topLevel m) := by
  refine alike_peek.bind fun next => ?_
  cases next with
  | none => exact alike_unexpected
  | some t =>
    dsimp only
    split
    · refine alike_procedureHead.bind fun opens => ?_
      split
      · exact alike_procedure h
      · exact alike_statement h
    · have hclass : Alike text tokens (classDef n) (classDef m) := alike_classDef h
      exact alike_advance_bind fun t rest hrest _ => hclass.tail hrest
    · exact alike_advance_bind fun _ _ _ _ => alike_define
    · exact alike_statement h

/-- An item, unless the text is at its end. -/
theorem alike_item {n m : Nat} (h : min n tokens.length = min m tokens.length) :
    Alike text tokens (item n) (item m) := by
  refine alike_peek.bind fun next => ?_
  cases next with
  | none => exact alike_pure none
  | some t => exact (alike_topLevel h).bind fun _ => alike_pure _

/-- A whole text blames itself if anything. -/
theorem alike_program : Alike text tokens program program :=
  alike_get.bind fun _ => (alike_item rfl).many

end Grammar

end Litany
