import Litany.Proofs.Grammar.Completeness.Expression
import Litany.Proofs.Grammar.Soundness.Statement

/-!
# Derived statements are parsed

Statements with a reading are parsed to it, whatever stands behind them, but for one thing: behind
a statement that ends in an open branch there is no `else`. An expression statement that begins
with a variable is read as a place first and then again as a chain; this ends well because the
place of a readable chain is readable, and no mark of assignment stands behind it.
-/

namespace Litany

namespace Grammar

open Parse

variable {names later : Names} {scope : Scope} {rest : List Token} {l : Nat}

/-! ### Parts of statements -/

/-- A readable operand that begins with a variable begins with a readable place, and neither a dot
nor an assignment stands behind that place. -/
theorem ExprTree.exists_place {t : ExprTree .operand} {e : Expr} {name : String}
    (hread : t.reading names scope = some e)
    (hname : (t.yield.head?.bind fun t => Kind.ident? t.kind) = some name)
    (hvariable : names.procedure? name = none) :
    ∃ (place : PlaceTree) (p : Place) (tokens : List Token), t.yield = place.yield ++ tokens ∧
      place.reading names scope = some p ∧ ∀ rest, Heads Kind.endsOperand rest →
        Lacks (Kind.mark? .dot) (tokens ++ rest) ∧ Lacks Kind.assignment? (tokens ++ rest) := by
  have hcall : ∀ {leaf : Name} {given : List (Option Expr)} {e : Expr}, leaf.value = name →
      callReading names leaf given ≠ some e := by
    rintro leaf given e rfl hcall
    obtain ⟨ordinal, -, -, hordinal, -⟩ := callReading_eq_some hcall
    rw [hvariable] at hordinal
    cases hordinal
  have hnotMark : ∀ {m : Mark} {t : Token}, t.kind = .mark m →
      (some t).bind (fun t => Kind.ident? t.kind) ≠ some name := by
    intro m t hkind
    rw [Option.bind_some, hkind]
    nofun
  cases t with
  | literal value =>
    have hfits := value.fits
    cases hkind : value.token.kind with
    | ident word =>
      rw [hkind] at hfits
      cases hfits
    | _ => simp [yield, hkind, Kind.ident?] at hname
  | negate minus inner => exact absurd hname (hnotMark minus.kind_mark)
  | group opening inner closing => exact absurd hname (hnotMark opening.kind_mark)
  | bareCall leaf =>
    exact absurd hread (hcall (by simpa [yield, leaf.fits] using hname))
  | emptyCall leaf opening closing =>
    exact absurd hread (hcall (by simpa [yield, leaf.fits] using hname))
  | call leaf opening first others closing =>
    obtain ⟨f, fs, -, -, hread, -⟩ := reading_call [] hread
    exact absurd hread (hcall (by simpa [yield, leaf.fits] using hname))
  | bumpBefore mark place =>
    have hfits := mark.fits
    cases hkind : mark.token.kind with
    | ident word =>
      rw [hkind] at hfits
      cases hfits
    | _ => simp [yield, hkind, Kind.ident?] at hname
  | read place =>
    obtain ⟨p, hp, -⟩ := reading_read hread
    obtain ⟨-, hplace⟩ := variableReading_eq_some hp
    refine ⟨place, p, [], by simp [yield], hplace, fun rest hrest => ?_⟩
    exact ⟨hrest.lacks Kind.dot_of_endsOperand, hrest.lacks Kind.assignment?_of_endsOperand⟩
  | bumpAfter place mark =>
    obtain ⟨p, hp, -⟩ := reading_bumpAfter hread
    obtain ⟨-, hplace⟩ := variableReading_eq_some hp
    refine ⟨place, p, [mark.token], rfl, hplace, fun rest _ => ?_⟩
    have hmark := Kind.isMark_of_bump? mark.isSome
    exact ⟨Lacks.of_cons (Kind.eq_none_of_isMark (by decide) hmark),
      Lacks.of_cons (Kind.eq_none_of_isMark (by decide) hmark)⟩

/-- A readable chain that begins with a variable begins with a readable place. -/
theorem ExprTree.exists_place_chain {t : ExprTree .chain} {e : Expr} {name : String}
    (hread : t.reading names scope = some e)
    (hname : (t.yield.head?.bind fun t => Kind.ident? t.kind) = some name)
    (hvariable : names.procedure? name = none) (hends : Heads Kind.endsChain rest) :
    ∃ (place : PlaceTree) (p : Place) (tokens : List Token),
      t.yield ++ rest = place.yield ++ tokens ∧ place.reading names scope = some p ∧
        Lacks (Kind.mark? .dot) tokens ∧ Lacks Kind.assignment? tokens := by
  cases t with
  | chain first links =>
    obtain ⟨v, -, hv, -⟩ := reading_chain hread
    obtain ⟨t, others, hyield, -⟩ := first.heads_operand
    rw [yield, hyield, List.cons_append, List.head?_cons] at hname
    have hfirst : (first.yield.head?.bind fun t => Kind.ident? t.kind) = some name := by
      rw [hyield]
      exact hname
    obtain ⟨place, p, tokens, hplaceYield, hplace, hstops⟩ := exists_place hv hfirst hvariable
    obtain ⟨hdot, hassign⟩ := hstops (links.yield ++ rest) (stops_links hends)
    refine ⟨place, p, tokens ++ (links.yield ++ rest), ?_, hplace, hdot, hassign⟩
    simp only [yield, hplaceYield, List.append_assoc]

/-- An assignment or a chain is read as what it is; a chain that begins with a place is read from
that place again. -/
private theorem statementExpr_complete {t : StmtExprTree} {n : Nat} {e : Expr}
    (hread : t.reading names scope = some e) (hdepth : t.yield.length ≤ n)
    (hends : Heads Kind.endsCondition rest) :
    statementExpr scope (operand scope n) ⟨t.yield ++ rest, l, names⟩ =
      .ok e ⟨rest, l, names⟩ := by
  have hchain : Heads Kind.endsChain rest :=
    (hends.imp Kind.endsTerm_of_endsCondition).imp Kind.endsChain_of_endsTerm
  rw [statementExpr, peek_bind]
  cases t with
  | assign target mark value =>
    obtain ⟨p, hp, hwritable, hassigned⟩ := StmtExprTree.reading_assign hread
    obtain ⟨hvariable, hplace⟩ := ExprTree.variableReading_eq_some hp
    have hhead : ((StmtExprTree.assign target mark value).yield ++ rest).head?.bind
        (fun t => Kind.ident? t.kind) = some target.root.value := target.root.fits
    have hdot : Lacks (Kind.mark? .dot) (mark.token :: (value.yield ++ rest)) :=
      Lacks.of_cons (Kind.eq_none_of_isMark (by decide) (Kind.isMark_of_assignment? mark.isSome))
    simp only [StmtExprTree.yield, List.length_append, List.length_cons] at hdepth
    simp only [hhead, names_bind, hvariable, Option.isSome_none]
    rw [if_neg (by simp), get_bind, StmtExprTree.yield, List.append_assoc, List.cons_append,
      bind_of_ok (place_complete hplace hdot)]
    simp only
    rw [bind_of_ok (take?_leaf mark)]
    simp only
    rw [bind_of_ok (assignable_complete hwritable)]
    exact assignment_complete hassigned (by omega) hchain
  | plain value =>
    have hrun := value.parses (l := l) (n := n) hread hdepth hchain
    simp only [StmtExprTree.yield]
    cases hname : (value.yield ++ rest).head?.bind fun t => Kind.ident? t.kind with
    | none => exact hrun
    | some name =>
      simp only [names_bind]
      cases hprocedure : names.procedure? name with
      | some ordinal => exact hrun
      | none =>
        have hfirst : (value.yield.head?.bind fun t => Kind.ident? t.kind) = some name := by
          obtain ⟨t, others, hyield, -⟩ := value.heads_chain
          rw [hyield] at hname ⊢
          exact hname
        obtain ⟨place, p, tokens, hyield, hplace, hdot, hassign⟩ :=
          ExprTree.exists_place_chain hread hfirst hprocedure hchain
        rw [if_neg (by simp), get_bind, hyield, bind_of_ok (place_complete hplace hdot)]
        simp only
        rw [bind_of_ok (take?_lacks hassign)]
        rw [hyield] at hrun
        exact hrun

/-- What may stand behind a declarator. -/
def endsDeclarator (k : Kind) : Bool :=
  k.isMark [.comma, .semicolon]

/-- A declared name is entered, and its initial value is read under the tables with the name. -/
theorem declarator_complete {t : DeclaratorTree} {n : Nat} {type : CellType} {d : Declarator}
    (hread : t.reading scope type names = some (d, later)) (hdepth : t.yield.length ≤ n)
    (hends : Heads endsDeclarator rest) :
    declarator scope (operand scope n) type ⟨t.yield ++ rest, l, names⟩ =
      .ok d ⟨rest, l, later⟩ := by
  obtain ⟨name, value⟩ := t
  obtain ⟨slot, initial, hdeclare, hinitial, rfl⟩ := DeclaratorTree.reading_eq_some hread
  rw [declarator, DeclaratorTree.yield, List.cons_append, bind_of_ok (ident_name name),
    bind_of_ok (enter_of_eq_some hdeclare)]
  cases value with
  | none =>
    obtain rfl := Option.some.inj hinitial
    cases type with
    | object number => rfl
    | scalar type =>
      have hequal : Lacks (Kind.mark? .equal) rest :=
        hends.lacks fun k hk => Kind.eq_none_of_isMark (by decide) hk
      simp only [List.nil_append]
      rw [bind_of_ok (take?_lacks hequal)]
      rfl
  | some value =>
    obtain ⟨mark, value⟩ := value
    cases type with
    | object number => cases hinitial
    | scalar type =>
      obtain ⟨e, he, hinitial⟩ := Option.bind_eq_some_iff.mp hinitial
      obtain rfl := Option.some.inj hinitial
      have hchain : Heads Kind.endsChain rest :=
        hends.imp fun k hk => Kind.isMark_of_subset (by decide) hk
      simp only [DeclaratorTree.yield, List.length_cons] at hdepth
      simp only [List.cons_append]
      rw [bind_of_ok (take?_leaf mark)]
      simp only
      rw [bind_of_ok (assignment_complete he (by omega) hchain)]
      rfl

/-- A declared name ends where a comma follows. -/
theorem stops_comma (comma : Punct .comma) (tokens : List Token) :
    Heads endsDeclarator (comma.token :: tokens) :=
  Heads.of_cons (by rw [comma.kind_mark]; rfl)

/-- A declared name ends where another follows or the declaration ends. -/
theorem stops_declarators (others : List (Punct .comma × DeclaratorTree))
    (semicolon : Punct .semicolon) (rest : List Token) :
    Heads endsDeclarator
      (yieldBehind DeclaratorTree.yield others ++ semicolon.token :: rest) := by
  cases others with
  | nil => exact Heads.of_cons (by rw [semicolon.kind_mark]; rfl)
  | cons other others => exact stops_comma other.1 _

/-- Declared names are read up to their semicolon. -/
theorem declarators_complete {t : DeclaratorsTree} {n : Nat} {type : CellType}
    {ds : List Declarator} (hread : t.reading scope type names = some (ds, later))
    (hdepth : t.yield.length ≤ n) :
    declarators scope (operand scope n) type ⟨t.yield ++ rest, l, names⟩ =
      .ok ds ⟨rest, l, later⟩ := by
  obtain ⟨first, others, semicolon⟩ := t
  obtain ⟨d, names', ds', hfirst, hothers, rfl⟩ := readAll_cons_eq_some.mp hread
  simp only [DeclaratorsTree.yield, List.length_append] at hdepth
  have hfirstDepth : first.yield.length ≤ n := by omega
  have hmany : many (behind .comma (declarator scope (operand scope n) type))
      ⟨yieldBehind DeclaratorTree.yield others ++ semicolon.token :: rest, l, names'⟩ =
        .ok ds' ⟨semicolon.token :: rest, l, later⟩ := by
    refine many_behind _ (Heads endsDeclarator) (fun hmem hread hends => ?_) stops_comma hothers
      (stops_declarators [] semicolon rest) (Lacks.of_cons (by rw [semicolon.kind_mark]; rfl))
    have hlength := length_lt_yieldBehind DeclaratorTree.yield hmem
    exact declarator_complete hread (by omega) hends
  rw [declarators, DeclaratorsTree.yield, List.append_assoc, List.append_assoc,
    List.singleton_append, bind_of_ok (declarator_complete hfirst hfirstDepth
    (stops_declarators others semicolon rest)), bind_of_ok hmany,
    bind_of_ok (expect_punct semicolon)]
  rfl

/-- An optional phrase in front of a mark that it does not begin with. -/
private theorem optional_complete {α β : Type} {m : Mark} {item : Parse α} {yield : β → List Token}
    {read : β → Option α} {tree : Option β} {r : Option α} (mark : Punct m)
    (hread : readOption read tree = some r)
    (hlacks : ∀ b ∈ tree, Lacks (Kind.mark? m) (yield b ++ mark.token :: rest))
    (hitem : ∀ b ∈ tree, ∀ a, read b = some a →
      item ⟨yield b ++ mark.token :: rest, l, names⟩ = .ok a ⟨mark.token :: rest, l, names⟩) :
    unlessAt m item ⟨StmtTree.yieldOption yield tree ++ mark.token :: rest, l, names⟩ =
      .ok r ⟨mark.token :: rest, l, names⟩ := by
  cases tree with
  | none =>
    obtain rfl := Option.some.inj hread
    exact unlessAt_punct mark
  | some b =>
    obtain ⟨a, ha, rfl⟩ := Option.map_eq_some_iff.mp hread
    exact unlessAt_lacks (hlacks b rfl) (hitem b rfl a ha)

/-- A type and a name begin no procedure unless a parenthesis opens behind them. -/
theorem procedureHead_eq_false {t name third : Token} {tokens : List Token} {m : Mark}
    (hkind : third.kind = .mark m) (hne : m ≠ .leftParen) :
    procedureHead ⟨t :: name :: third :: tokens, l, names⟩ =
      .ok false ⟨t :: name :: third :: tokens, l, names⟩ := by
  have hparen : Kind.mark? .leftParen third.kind = none := by
    rw [hkind, Kind.mark?, if_neg hne]
  simp [procedureHead, hparen]

/-- Between a type and the rest of its declarators no parenthesis opens. -/
theorem procedureHead_declarators (t : Token) (vars : DeclaratorsTree) :
    procedureHead ⟨t :: vars.yield ++ rest, l, names⟩ =
      .ok false ⟨t :: vars.yield ++ rest, l, names⟩ := by
  obtain ⟨⟨name, initial⟩, others, semicolon⟩ := vars
  cases initial with
  | some initial => exact procedureHead_eq_false initial.1.kind_mark (by decide)
  | none =>
    cases others with
    | cons other others => exact procedureHead_eq_false other.1.kind_mark (by decide)
    | nil => exact procedureHead_eq_false semicolon.kind_mark (by decide)

/-! ### Statements by their first token -/

section FirstToken

variable {n : Nat} {tokens : List Token}

/-- A scalar type begins a declaration, unless a procedure follows. -/
theorem statement_scalar (type : Leaf Kind.scalar?)
    (hhead : procedureHead ⟨type.token :: tokens, l, names⟩ =
      .ok false ⟨type.token :: tokens, l, names⟩) :
    statement scope (n + 1) ⟨type.token :: tokens, l, names⟩ =
      declaration scope (operand scope (n + 1)) (.scalar type.value) ⟨tokens, l, names⟩ := by
  rw [statement, peek_bind]
  simp only [List.head?_cons, type.kind_scalar]
  rw [bind_of_ok hhead, if_neg (by simp), bind_of_ok advance_cons]

/-- The name of a class begins a declaration. -/
theorem statement_object {number : Nat} (name : Name)
    (hclass : names.class? name.value = some number) :
    statement scope (n + 1) ⟨name.token :: tokens, l, names⟩ =
      declaration scope (operand scope (n + 1)) (.object number) ⟨tokens, l, names⟩ := by
  rw [statement, peek_bind]
  simp only [List.head?_cons, name.kind_ident, names_bind, hclass]
  rw [bind_of_ok advance_cons]

/-- A quoted text begins a print statement. -/
theorem statement_print (template : Leaf Kind.quoted?) :
    statement scope (n + 1) ⟨template.token :: tokens, l, names⟩ =
      print (operand scope (n + 1)) template.value template.token.line ⟨tokens, l, names⟩ := by
  rw [statement, peek_bind]
  simp only [List.head?_cons, template.kind_quoted]
  rw [bind_of_ok advance_cons]

/-- The word in front of a loop begins one. -/
theorem statement_loop (word : Word .loop) :
    statement scope (n + 1) ⟨word.token :: tokens, l, names⟩ =
      loop scope (operand scope (n + 1)) (statement scope n) ⟨tokens, l, names⟩ := by
  rw [statement, peek_bind]
  simp only [List.head?_cons, word.kind_keyword]
  rw [bind_of_ok advance_cons]

/-- The word in front of a branch begins one. -/
theorem statement_branch (word : Word .branch) :
    statement scope (n + 1) ⟨word.token :: tokens, l, names⟩ =
      branch (operand scope (n + 1)) (statement scope n) ⟨tokens, l, names⟩ := by
  rw [statement, peek_bind]
  simp only [List.head?_cons, word.kind_keyword]
  rw [bind_of_ok advance_cons]

/-- Inside of a procedure the word of a return begins one. -/
theorem statement_giveBack (word : Word .giveBack) (hscope : scope ≠ .top) :
    statement scope (n + 1) ⟨word.token :: tokens, l, names⟩ =
      giveBack (operand scope (n + 1)) word.token.line ⟨tokens, l, names⟩ := by
  rw [statement, peek_bind]
  simp only [List.head?_cons, word.kind_keyword]
  rw [if_neg hscope, bind_of_ok advance_cons]

/-- A block of foreign code is a statement by itself. -/
private theorem statement_foreign (code : Leaf Kind.foreign?) :
    statement scope (n + 1) ⟨code.token :: tokens, l, names⟩ =
      .ok (.foreign code.value code.token.line) ⟨tokens, l, names⟩ := by
  rw [statement, peek_bind]
  simp only [List.head?_cons, code.kind_foreign]
  rw [bind_of_ok advance_cons]
  rfl

/-- What begins an expression and is no name of a class begins an assignment or a chain. -/
theorem statement_expr {t : Token} (hchain : t.kind.opensChain = true)
    (hopens : opensExpression names t.kind = true) :
    statement scope (n + 1) ⟨t :: tokens, l, names⟩ =
      exprStmt scope (operand scope (n + 1)) ⟨t :: tokens, l, names⟩ := by
  rw [statement, peek_bind]
  cases hkind : t.kind with
  | int v | float v | mark m => simp only [List.head?_cons, hkind]
  | quoted raw =>
    rw [hkind] at hopens
    cases hopens
  | ident name =>
    have hclass : names.class? name = none := by simpa [hkind, opensExpression] using hopens
    simp only [List.head?_cons, hkind, names_bind, hclass]
  | keyword k =>
    rw [hkind] at hchain
    cases k with
    | yes | no => simp only [List.head?_cons, hkind]
    | _ => cases hchain
  | _ =>
    rw [hkind] at hchain
    cases hchain

end FirstToken

/-! ### Statements -/

/-- What may stand behind a phrase: no `else` behind an open branch, and behind the statements of a
block its closing brace. -/
def StmtTree.Stops : {k : StmtSort} → StmtTree k → List Token → Prop
  | .statement, t, rest => t.dangles = true → Lacks (Kind.keyword? .otherwise) rest
  | .body, t, rest => t.dangles = true → Lacks (Kind.keyword? .otherwise) rest
  | .statements, _, rest => Heads (fun k => k.isMark [.rightBrace]) rest

/-- The parser of a sort, given that of the nested statements, goes from one cursor to the other. -/
def StmtSort.Parses (statement : Parse Stmt) :
    (k : StmtSort) → Cursor → StmtReading k → Cursor → Prop
  | .statement, s, a, s' => statement s = .ok a s'
  | .body, s, b, s' => Grammar.body statement s = .ok b s'
  | .statements, s, b, s' => Repeats (unlessAt .rightBrace statement) s b s'

/-- Neither a statement nor the end of a block begins with `else`. -/
theorem StmtTree.lacks_otherwise {t : StmtTree .statements}
    (h : Heads (fun k => k.isMark [.rightBrace]) rest) :
    Lacks (Kind.keyword? .otherwise) (t.yield ++ rest) := by
  cases t with
  | noStatement => exact h.lacks fun k hk => Kind.eq_none_of_isMark (by decide) hk
  | statement first others =>
    have hopens := first.heads_statement.imp Kind.opensItem_of_opensStatement
    exact ((hopens.append others.yield).append rest).lacks Kind.otherwise_of_opensItem

/-- No statement begins with a closing mark. -/
theorem lacks_of_opensStatement {m : Mark} (hm : m ∈ Kind.closers) {tokens : List Token}
    (h : Heads Kind.opensStatement tokens) : Lacks (Kind.mark? m) tokens :=
  (h.imp Kind.opensItem_of_opensStatement).lacks (Kind.mark?_of_opensItem hm)

/-- A declaration is read behind its type. -/
private theorem declaration_complete {vars : DeclaratorsTree} {n : Nat} {type : CellType}
    {ds : List Declarator} (hread : vars.reading scope type names = some (ds, later))
    (hdepth : vars.yield.length ≤ n) :
    declaration scope (operand scope n) type ⟨vars.yield ++ rest, l, names⟩ =
      .ok (.declare ds) ⟨rest, l, later⟩ := by
  rw [declaration, bind_of_ok (declarators_complete hread hdepth)]
  rfl

/-- The arguments of a print statement are read up to its semicolon. -/
private theorem print_complete {arguments : List (Punct .comma × ExprTree .chain)} {n : Nat}
    {template : String} {line : Nat} {es : List Expr} (semicolon : Punct .semicolon)
    (hread : (arguments.mapM fun a => a.2.reading names scope) = some es)
    (hdepth : (yieldBehind ExprTree.yield arguments).length ≤ n) :
    print (operand scope n) template line
      ⟨yieldBehind ExprTree.yield arguments ++ semicolon.token :: rest, l, names⟩ =
        .ok (.print template es line) ⟨rest, l, names⟩ := by
  have hends : ∀ {m : Mark} (mark : Punct m) (tokens : List Token), m = .comma ∨ m = .semicolon →
      Heads Kind.endsChain (mark.token :: tokens) := by
    rintro m mark tokens (rfl | rfl) <;> exact Heads.of_cons (by rw [mark.kind_mark]; rfl)
  have hall : readAll (fun (a : ExprTree .chain) names => (a.reading names scope).map (·, names))
      (arguments.map (·.2)) names = some (es, names) := by
    rw [readAll_map]
    exact readAll_of_mapM (fun names (a : Punct .comma × ExprTree .chain) =>
      a.2.reading names scope) hread
  have hmany : many (behind .comma (chain (operand scope n)))
      ⟨yieldBehind ExprTree.yield arguments ++ semicolon.token :: rest, l, names⟩ =
        .ok es ⟨semicolon.token :: rest, l, names⟩ := by
    refine many_behind _ (Heads Kind.endsChain)
      (fun {mark a e names' later' rest'} hmem hread hends => ?_)
      (fun mark tokens => hends mark tokens (.inl rfl)) hall (hends semicolon rest (.inr rfl))
      (Lacks.of_cons (by rw [semicolon.kind_mark]; rfl))
    obtain ⟨e', he, hsome⟩ := Option.map_eq_some_iff.mp hread
    cases hsome
    have hlength : a.yield.length ≤ n := by
      have hlt := length_lt_yieldBehind ExprTree.yield hmem
      omega
    exact a.parses he hlength hends
  rw [print, bind_of_ok hmany, bind_of_ok (expect_punct semicolon)]
  rfl

/-- A return is read with its value or without. -/
private theorem giveBack_complete {value : Option (ExprTree .chain)} {n : Nat} {line : Nat}
    {e : Option Expr} (semicolon : Punct .semicolon)
    (hread : readOption (ExprTree.reading names scope) value = some e)
    (hdepth : (StmtTree.yieldOption ExprTree.yield value).length ≤ n) :
    giveBack (operand scope n) line
      ⟨StmtTree.yieldOption ExprTree.yield value ++ semicolon.token :: rest, l, names⟩ =
        .ok (.giveBack e line) ⟨rest, l, names⟩ := by
  have hends : Heads Kind.endsChain (semicolon.token :: rest) :=
    Heads.of_cons (by rw [semicolon.kind_mark]; rfl)
  have hvalue : unlessAt .semicolon (chain (operand scope n))
      ⟨StmtTree.yieldOption ExprTree.yield value ++ semicolon.token :: rest, l, names⟩ =
        .ok e ⟨semicolon.token :: rest, l, names⟩ := by
    refine optional_complete semicolon hread (fun t _ => ?_) (fun t ht a ha => ?_)
    · exact lacks_of_opensStatement (by decide)
        ((t.heads_chain.imp Kind.opensStatement_of_opensChain).append _)
    · obtain rfl : value = some t := ht
      exact t.parses ha hdepth hends
  rw [giveBack, bind_of_ok hvalue, bind_of_ok (expect_punct semicolon)]
  rfl

/-- An assignment or a chain is read up to its semicolon. -/
private theorem exprStmt_complete {e : StmtExprTree} {n : Nat} {a : Expr}
    (semicolon : Punct .semicolon)
    (hread : e.reading names scope = some a) (hdepth : e.yield.length ≤ n) :
    exprStmt scope (operand scope n) ⟨e.yield ++ semicolon.token :: rest, l, names⟩ =
      .ok (.expr a) ⟨rest, l, names⟩ := by
  have hends : Heads Kind.endsCondition (semicolon.token :: rest) :=
    Heads.of_cons (by rw [semicolon.kind_mark]; rfl)
  rw [exprStmt, bind_of_ok (statementExpr_complete hread hdepth hends),
    bind_of_ok (expect_punct semicolon)]
  rfl

/-- A semicolon and a closing parenthesis end a condition. -/
theorem endsCondition_mark {m : Mark} (hm : m = .semicolon ∨ m = .rightParen) (mark : Punct m)
    (tokens : List Token) : Heads Kind.endsCondition (mark.token :: tokens) := by
  rcases hm with rfl | rfl <;> exact Heads.of_cons (by rw [mark.kind_mark]; rfl)

/-- The first or the last part of the head of a loop, which may be missing. -/
theorem loopExpr_complete {n : Nat} {m : Mark} (hm : m = .semicolon ∨ m = .rightParen)
    (mark : Punct m) {tree : Option StmtExprTree} {e : Option Expr}
    (hread : readOption (StmtExprTree.reading names scope) tree = some e)
    (hdepth : (StmtTree.yieldOption StmtExprTree.yield tree).length ≤ n) :
    unlessAt m (statementExpr scope (operand scope n))
      ⟨StmtTree.yieldOption StmtExprTree.yield tree ++ mark.token :: rest, l, names⟩ =
        .ok e ⟨mark.token :: rest, l, names⟩ := by
  refine optional_complete mark hread (fun t _ => ?_) (fun t ht a ha => ?_)
  · exact lacks_of_opensStatement (by rcases hm with rfl | rfl <;> decide)
      ((t.heads.imp Kind.opensStatement_of_opensChain).append _)
  · obtain rfl : tree = some t := ht
    exact statementExpr_complete ha hdepth (endsCondition_mark hm mark rest)

/-- The condition of a loop, which may be missing. -/
theorem loopTest_complete {n : Nat} (mark : Punct .semicolon) {test : Option ConditionTree}
    {c : Option Condition}
    (hread : readOption (ConditionTree.reading names scope) test = some c)
    (hdepth : (StmtTree.yieldOption ConditionTree.yield test).length ≤ n) :
    unlessAt .semicolon (condition (operand scope n))
      ⟨StmtTree.yieldOption ConditionTree.yield test ++ mark.token :: rest, l, names⟩ =
        .ok c ⟨mark.token :: rest, l, names⟩ := by
  refine optional_complete mark hread (fun t _ => ?_) (fun t ht a ha => ?_)
  · exact (t.heads.append _).lacks (Kind.mark?_of_opensTerm (by decide))
  · obtain rfl : test = some t := ht
    exact condition_complete ha hdepth (endsCondition_mark (.inl rfl) mark rest)

/-- The head of a loop in front of its body. -/
private theorem loop_complete {statement : Parse Stmt} {n : Nat} {opening : Punct .leftParen}
    {initial step : Option StmtExprTree} {first second : Punct .semicolon}
    {test : Option ConditionTree} {closing : Punct .rightParen} {tokens : List Token} {s : Cursor}
    {e₁ e₂ : Option Expr} {c : Option Condition} {b : List Stmt}
    (hinitial : readOption (StmtExprTree.reading names scope) initial = some e₁)
    (htest : readOption (ConditionTree.reading names scope) test = some c)
    (hstep : readOption (StmtExprTree.reading names scope) step = some e₂)
    (hdepth : (StmtTree.yieldOption StmtExprTree.yield initial).length +
      (StmtTree.yieldOption ConditionTree.yield test).length +
      (StmtTree.yieldOption StmtExprTree.yield step).length ≤ n)
    (hbody : body statement ⟨tokens, l, names⟩ = .ok b s) :
    loop scope (operand scope n) statement
      ⟨opening.token :: (StmtTree.yieldOption StmtExprTree.yield initial ++
        first.token :: (StmtTree.yieldOption ConditionTree.yield test ++
        second.token :: (StmtTree.yieldOption StmtExprTree.yield step ++
        closing.token :: tokens))), l, names⟩ = .ok (.loop e₁ c e₂ b) s := by
  rw [loop, bind_of_ok (expect_punct opening),
    bind_of_ok (loopExpr_complete (.inl rfl) first hinitial (by omega)),
    bind_of_ok (expect_punct first), bind_of_ok (loopTest_complete second htest (by omega)),
    bind_of_ok (expect_punct second),
    bind_of_ok (loopExpr_complete (.inr rfl) closing hstep (by omega)),
    bind_of_ok (expect_punct closing), bind_of_ok hbody]
  rfl

/-- The head of a branch in front of its first body. -/
private theorem branch_complete {statement : Parse Stmt} {n : Nat} {opening : Punct .leftParen}
    {test : ConditionTree} {closing : Punct .rightParen} {tokens : List Token} {c : Condition}
    {yes : List Stmt} {s s' : Cursor} {a : Stmt}
    (htest : test.reading names scope = some c) (hdepth : test.yield.length ≤ n)
    (hyes : body statement ⟨tokens, l, names⟩ = .ok yes s)
    (hno : (do
      match ← take? (Kind.keyword? .otherwise) with
      | none => return .branch c yes none
      | some _ => return .branch c yes (some (← body statement)) : Parse Stmt) s = .ok a s') :
    branch (operand scope n) statement
      ⟨opening.token :: (test.yield ++ closing.token :: tokens), l, names⟩ = .ok a s' := by
  have hends : Heads Kind.endsCondition (closing.token :: tokens) :=
    Heads.of_cons (by rw [closing.kind_mark]; rfl)
  rw [branch, bind_of_ok (expect_punct opening),
    bind_of_ok (condition_complete htest hdepth hends), bind_of_ok (expect_punct closing),
    bind_of_ok hyes]
  exact hno

/-! ### Phrases of statements

One lemma for each production, with what holds of the parts as its hypotheses. -/

namespace StmtTree

variable (scope l) in
/-- A phrase of statements is parsed to its reading wherever it stops, given enough depth for the
nesting. -/
def Parsed {k : StmtSort} (t : StmtTree k) : Prop :=
  ∀ ⦃n : Nat⦄ ⦃names later : Names⦄ ⦃a : StmtReading k⦄ ⦃rest : List Token⦄,
    t.reading scope names = some (a, later) → t.yield.length ≤ n → t.Stops rest →
      k.Parses (Grammar.statement scope n) ⟨t.yield ++ rest, l, names⟩ a ⟨rest, l, later⟩

/-- A declaration begins with a type, and is no procedure because of what stands behind its first
name. -/
private theorem parsed_declare (type : TypeTree) (vars : DeclaratorsTree) :
    (declare type vars).Parsed scope l := by
  intro n names later a rest hread hdepth hstops
  obtain ⟨cell, ds, htype, hvars, rfl⟩ := reading_declare hread
  simp only [yield, List.length_cons] at hdepth
  obtain _ | n := n
  · omega
  · cases type with
    | scalar type =>
      obtain rfl := Option.some.inj htype
      exact (statement_scalar type (procedureHead_declarators type.token vars)).trans
        (declaration_complete hvars (by omega))
    | object name =>
      obtain ⟨number, hclass, rfl⟩ := Option.map_eq_some_iff.mp htype
      exact (statement_object name hclass).trans (declaration_complete hvars (by omega))

/-- A quoted literal begins a print. -/
private theorem parsed_print (template : Leaf Kind.quoted?)
    (arguments : List (Punct .comma × ExprTree .chain)) (semicolon : Punct .semicolon) :
    (print template arguments semicolon).Parsed scope l := by
  intro n names later a rest hread hdepth hstops
  obtain ⟨es, hes, rfl, rfl⟩ := reading_print hread
  simp only [yield, List.length_append, List.length_cons, List.length_nil] at hdepth
  obtain _ | n := n
  · omega
  · rw [yield, List.append_assoc]
    exact (statement_print template).trans (print_complete semicolon hes (by omega))

/-- The head of a loop is parsed, and then its body. -/
private theorem parsed_loop (word : Word .loop) (opening : Punct .leftParen)
    (initial : Option StmtExprTree) (first : Punct .semicolon) (test : Option ConditionTree)
    (second : Punct .semicolon) (step : Option StmtExprTree) (closing : Punct .rightParen)
    {body : StmtTree .body} (ih : body.Parsed scope l) :
    (loop word opening initial first test second step closing body).Parsed scope l := by
  intro n names later a rest hread hdepth hstops
  obtain ⟨e₁, c, e₂, b, hinitial, htest, hstep, hbody, rfl⟩ := reading_loop hread
  simp only [yield, List.length_append, List.length_cons] at hdepth
  obtain _ | n := n
  · omega
  · have hrun := ih (n := n) hbody (by omega) hstops
    simp only [yield, List.cons_append, List.append_assoc]
    exact (statement_loop word).trans
      (loop_complete hinitial htest hstep (by omega) hrun)

/-- A branch that no `else` follows ends with its body. -/
private theorem parsed_branch (word : Word .branch) (opening : Punct .leftParen)
    (test : ConditionTree) (closing : Punct .rightParen) {yes : StmtTree .body}
    (ih : yes.Parsed scope l) : (branch word opening test closing yes).Parsed scope l := by
  intro n names later a rest hread hdepth hstops
  obtain ⟨c, b, htest, hyes, rfl⟩ := reading_branch hread
  simp only [yield, List.length_append, List.length_cons] at hdepth
  have hlacks : Lacks (Kind.keyword? .otherwise) rest := hstops rfl
  obtain _ | n := n
  · omega
  · have hrun := ih (n := n) hyes (by omega) (fun _ => hlacks)
    simp only [yield, List.cons_append, List.append_assoc]
    refine (statement_branch word).trans (branch_complete htest (by omega) hrun ?_)
    rw [bind_of_ok (take?_lacks hlacks)]
    rfl

/-- The body in front of an `else` is not open, so that the `else` is left to the branch. -/
private theorem parsed_branchElse (word : Word .branch) (opening : Punct .leftParen)
    (test : ConditionTree) (closing : Punct .rightParen) {yes : StmtTree .body}
    (otherwise : Word .otherwise) {no : StmtTree .body} (ihYes : yes.Parsed scope l)
    (ihNo : no.Parsed scope l) :
    (branchElse word opening test closing yes otherwise no).Parsed scope l := by
  intro n names later a rest hread hdepth hstops
  obtain ⟨hclosed, c, b, names', d, htest, hyes, hno, rfl⟩ := reading_branchElse hread
  simp only [yield, List.length_append, List.length_cons] at hdepth
  obtain _ | n := n
  · omega
  · have hyesStops : yes.Stops (otherwise.token :: (no.yield ++ rest)) :=
      fun hopen => absurd hopen hclosed
    have hyesRun := ihYes (n := n) hyes (by omega) hyesStops
    have hnoRun := ihNo (n := n) hno (by omega) hstops
    simp only [yield, List.cons_append, List.append_assoc]
    refine (statement_branch word).trans (branch_complete htest (by omega) hyesRun ?_)
    rw [bind_of_ok (take?_leaf otherwise)]
    change (Grammar.body _ >>= fun b => _) _ = _
    rw [bind_of_ok hnoRun]
    rfl

/-- A `return` inside a procedure is parsed with its value. -/
private theorem parsed_giveBack (word : Word .giveBack) (value : Option (ExprTree .chain))
    (semicolon : Punct .semicolon) : (giveBack word value semicolon).Parsed scope l := by
  intro n names later a rest hread hdepth hstops
  obtain ⟨hscope, e, he, rfl, rfl⟩ := reading_giveBack hread
  simp only [yield, List.length_append, List.length_cons, List.length_nil] at hdepth
  obtain _ | n := n
  · omega
  · rw [yield, List.append_assoc]
    exact (statement_giveBack word hscope).trans (giveBack_complete semicolon he (by omega))

/-- A block of foreign code is taken at once. -/
private theorem parsed_foreign (code : Leaf Kind.foreign?) : (foreign code).Parsed scope l := by
  intro n names later a rest hread hdepth hstops
  cases hread
  obtain _ | n := n
  · simp [yield] at hdepth
  · exact statement_foreign code

/-- An expression statement begins with nothing that begins another statement. -/
private theorem parsed_expr (e : StmtExprTree) (semicolon : Punct .semicolon) :
    (expr e semicolon).Parsed scope l := by
  intro n names later a rest hread hdepth hstops
  obtain ⟨hopens, v, hv, rfl, rfl⟩ := reading_expr hread
  simp only [yield, List.length_append, List.length_cons, List.length_nil] at hdepth
  obtain _ | n := n
  · omega
  · obtain ⟨t, tokens, hyield, hchain⟩ := e.heads
    have hrun : exprStmt scope (operand scope (n + 1))
        ⟨e.yield ++ semicolon.token :: rest, l, names⟩ = .ok (.expr v) ⟨rest, l, names⟩ :=
      exprStmt_complete semicolon hv (by omega)
    rw [hyield] at hopens hrun
    rw [yield, List.append_assoc, hyield]
    exact (statement_expr hchain hopens).trans hrun

/-- A body without a brace is a single statement. -/
private theorem parsed_single {s : StmtTree .statement} (ih : s.Parsed scope l) :
    (single s).Parsed scope l := by
  intro n names later a rest hread hdepth hstops
  obtain ⟨b, hs, rfl⟩ := reading_single hread
  have hrun := ih hs hdepth hstops
  have hbrace : Lacks (Kind.mark? .leftBrace) (s.yield ++ rest) :=
    lacks_of_opensStatement (by decide) (s.heads_statement.append rest)
  change Grammar.body _ ⟨s.yield ++ rest, l, names⟩ = _
  rw [Grammar.body, bind_of_ok (sees_lacks hbrace), if_neg (by simp), bind_of_ok hrun]
  rfl

/-- The statements in braces are parsed up to the closing one. -/
private theorem parsed_block (opening : Punct .leftBrace) {statements : StmtTree .statements}
    (closing : Punct .rightBrace) (ih : statements.Parsed scope l) :
    (block opening statements closing).Parsed scope l := by
  intro n names later a rest hread hdepth hstops
  have hclosing : Heads (fun k => k.isMark [.rightBrace]) (closing.token :: rest) :=
    Heads.of_cons (by rw [closing.kind_mark]; rfl)
  simp only [yield, List.length_append, List.length_cons, List.length_nil] at hdepth
  have hrun := ih (n := n) hread (by omega) hclosing
  change Grammar.body _ _ = _
  rw [yield, List.append_assoc, List.cons_append, List.singleton_append, Grammar.body,
    bind_of_ok (sees_punct opening), if_pos rfl, Grammar.block, bind_of_ok (expect_punct opening),
    bind_of_ok hrun.many_eq_ok, bind_of_ok (expect_punct closing)]
  rfl

/-- At the closing brace no further statement is parsed. -/
private theorem parsed_noStatement : noStatement.Parsed scope l := by
  intro n names later a rest hread hdepth hstops
  cases hread
  obtain ⟨t, tokens, rfl, hmark⟩ := hstops
  obtain ⟨m, hm, hkind⟩ := Kind.exists_of_isMark hmark
  obtain rfl : m = .rightBrace := by simpa using hm
  exact .done (unlessAt_punct ⟨t, (), by rw [hkind]; rfl⟩)

/-- A statement is parsed, and then the statements behind it. -/
private theorem parsed_statement {first : StmtTree .statement} {others : StmtTree .statements}
    (ihFirst : first.Parsed scope l) (ihOthers : others.Parsed scope l) :
    (statement first others).Parsed scope l := by
  intro n names later a rest hread hdepth hstops
  obtain ⟨s, names', b, hs, hb, rfl⟩ := reading_statement hread
  simp only [yield, List.length_append] at hdepth
  have hfirst := ihFirst (n := n) hs (by omega) (fun _ => lacks_otherwise (t := others) hstops)
  have hothers := ihOthers (n := n) hb (by omega) hstops
  have hbrace : Lacks (Kind.mark? .rightBrace) (first.yield ++ (others.yield ++ rest)) :=
    lacks_of_opensStatement (by decide) (first.heads_statement.append _)
  rw [yield, List.append_assoc]
  refine .item (unlessAt_lacks hbrace hfirst) ?_ hothers
  have hpos := first.heads_statement.length_pos
  simp only [List.length_append]
  omega

/-- Every phrase of statements is parsed to its reading. -/
theorem parsed {k : StmtSort} (t : StmtTree k) : t.Parsed scope l := by
  induction t with
  | declare type vars => exact parsed_declare type vars
  | print template arguments semicolon => exact parsed_print template arguments semicolon
  | loop word opening initial first test second step closing body ih =>
    exact parsed_loop word opening initial first test second step closing ih
  | branch word opening test closing yes ih => exact parsed_branch word opening test closing ih
  | branchElse word opening test closing yes otherwise no ihYes ihNo =>
    exact parsed_branchElse word opening test closing otherwise ihYes ihNo
  | giveBack word value semicolon => exact parsed_giveBack word value semicolon
  | foreign code => exact parsed_foreign code
  | expr e semicolon => exact parsed_expr e semicolon
  | single s ih => exact parsed_single ih
  | block opening statements closing ih => exact parsed_block opening closing ih
  | noStatement => exact parsed_noStatement
  | statement first others ihFirst ihOthers => exact parsed_statement ihFirst ihOthers

/-- A phrase with a reading is parsed to it, given enough depth for the nesting. -/
theorem parses {k : StmtSort} (t : StmtTree k) {n : Nat} {a : StmtReading k}
    (hread : t.reading scope names = some (a, later)) (hdepth : t.yield.length ≤ n)
    (hstops : t.Stops rest) :
    k.Parses (Grammar.statement scope n) ⟨t.yield ++ rest, l, names⟩ a ⟨rest, l, later⟩ :=
  t.parsed hread hdepth hstops

end StmtTree

end Grammar

end Litany
