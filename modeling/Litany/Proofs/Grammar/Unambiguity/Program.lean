import Litany.Proofs.Grammar.Completeness.Program
import Litany.Proofs.Grammar.Unambiguity.Expression

/-!
# A program has one derivation

Statements and items are told apart by their first token, a procedure and a declaration by the
third. A branch with an `else` and one without differ in what stands behind the first body: an
open branch is not followed by an `else`, and the body in front of an `else` is not open.

The conclusion `parse_eq_ok_iff_derivation` puts the three parts of the theory together: the parser
accepts what has a derivation, answers its reading, and there is only one.
-/

namespace Litany

namespace Grammar

open Parse

variable {names later later' : Names} {scope : Scope} {r r' : List Token}

/-! ### Parts of statements -/

theorem DeclaratorTree.unique {t t' : DeclaratorTree} {type : CellType} {d d' : Declarator}
    (hread : t.reading scope type names = some (d, later))
    (hread' : t'.reading scope type names = some (d', later'))
    (hends : Heads endsDeclarator r) (hends' : Heads endsDeclarator r')
    (h : t.yield ++ r = t'.yield ++ r') : t = t' ∧ r = r' := by
  have hequal : ∀ {r : List Token}, Heads endsDeclarator r → Lacks (Kind.mark? .equal) r :=
    fun hr => hr.lacks fun k hk => Kind.eq_none_of_isMark (by decide) hk
  have hchain : ∀ {r : List Token}, Heads endsDeclarator r → Heads Kind.endsChain r :=
    fun hr => hr.imp fun k hk => Kind.isMark_of_subset (by decide) hk
  obtain ⟨name, initial⟩ := t
  obtain ⟨name', initial'⟩ := t'
  obtain ⟨slot, e, hdeclare, he, -⟩ := reading_eq_some hread
  obtain ⟨slot', e', hdeclare', he', -⟩ := reading_eq_some hread'
  obtain ⟨htoken, hinitial⟩ := List.cons.inj h
  obtain rfl := Leaf.ext_token htoken
  obtain ⟨rfl, rfl⟩ : slot = slot' ∧ later = later' := by simpa [hdeclare] using hdeclare'
  cases initial with
  | none =>
    cases initial' with
    | none => exact ⟨rfl, hinitial⟩
    | some initial' =>
      obtain rfl : r = _ := hinitial
      exact absurd (hequal hends) (not_lacks_leaf initial'.1)
  | some initial =>
    cases initial' with
    | none =>
      obtain rfl : _ = r' := hinitial
      exact absurd (hequal hends') (not_lacks_leaf initial.1)
    | some initial' =>
      obtain ⟨mark, value⟩ := initial
      obtain ⟨mark', value'⟩ := initial'
      cases type with
      | object number => cases he
      | scalar type =>
        obtain ⟨v, hv, -⟩ := Option.bind_eq_some_iff.mp he
        obtain ⟨v', hv', -⟩ := Option.bind_eq_some_iff.mp he'
        obtain ⟨w, hw⟩ := ExprTree.reading_of_assigned hv
        obtain ⟨w', hw'⟩ := ExprTree.reading_of_assigned hv'
        obtain ⟨htoken, hvalue⟩ := List.cons.inj hinitial
        obtain rfl := Leaf.ext_token htoken
        obtain ⟨rfl, rfl⟩ := ExprTree.unique hw hw' (hchain hends) (hchain hends') hvalue
        exact ⟨rfl, rfl⟩

theorem DeclaratorsTree.unique {t t' : DeclaratorsTree} {type : CellType}
    {ds ds' : List Declarator} (hread : t.reading scope type names = some (ds, later))
    (hread' : t'.reading scope type names = some (ds', later'))
    (h : t.yield ++ r = t'.yield ++ r') : t = t' ∧ r = r' := by
  obtain ⟨first, others, semicolon⟩ := t
  obtain ⟨first', others', semicolon'⟩ := t'
  obtain ⟨d, names₁, ds, hfirst, hothers, rfl⟩ := readAll_cons_eq_some.mp hread
  obtain ⟨d', names₁', ds', hfirst', hothers', rfl⟩ := readAll_cons_eq_some.mp hread'
  simp only [yield, List.append_assoc, List.singleton_append] at h
  obtain ⟨rfl, hbehind⟩ := DeclaratorTree.unique hfirst hfirst'
    (stops_declarators others semicolon r) (stops_declarators others' semicolon' r') h
  obtain ⟨rfl, rfl⟩ : d = d' ∧ names₁ = names₁' := by simpa [hfirst] using hfirst'
  rw [readAll_map] at hothers hothers'
  have hcomma : ∀ (semicolon : Punct .semicolon) (r : List Token),
      Lacks (Kind.mark? .comma) (semicolon.token :: r) :=
    fun semicolon r => Lacks.of_cons (by rw [semicolon.kind_mark]; rfl)
  obtain ⟨rfl, hsemicolon⟩ := yieldBehind_unique _ (Heads endsDeclarator)
    (fun hread hread' hends hends' h => DeclaratorTree.unique hread hread' hends hends' h)
    stops_comma hothers hothers' (stops_declarators [] semicolon r)
    (stops_declarators [] semicolon' r') (hcomma semicolon r) (hcomma semicolon' r') hbehind
  obtain ⟨htoken, rfl⟩ := List.cons.inj hsemicolon
  obtain rfl := Leaf.ext_token htoken
  exact ⟨rfl, rfl⟩

/-- Optional phrases in front of a mark that none of them begins with. -/
private theorem yieldOption_unique {α β : Type} {m : Mark} {yield : α → List Token}
    {read : α → Option β} {tree tree' : Option α} {v v' : Option β} {mark mark' : Punct m}
    (hlacks : ∀ a r, Lacks (Kind.mark? m) (yield a ++ r))
    (hitem : ∀ {a a' b b'}, read a = some b → read a' = some b' →
      yield a ++ mark.token :: r = yield a' ++ mark'.token :: r' →
      a = a' ∧ mark.token :: r = mark'.token :: r')
    (hread : readOption read tree = some v) (hread' : readOption read tree' = some v')
    (h : StmtTree.yieldOption yield tree ++ mark.token :: r =
      StmtTree.yieldOption yield tree' ++ mark'.token :: r') :
    tree = tree' ∧ mark = mark' ∧ r = r' := by
  have hmark : mark.token :: r = mark'.token :: r' → mark = mark' ∧ r = r' := by
    intro h
    obtain ⟨htoken, rfl⟩ := List.cons.inj h
    exact ⟨Leaf.ext_token htoken, rfl⟩
  cases tree with
  | none =>
    cases tree' with
    | none => exact ⟨rfl, hmark h⟩
    | some a' =>
      have hlack := hlacks a' (mark'.token :: r')
      rw [← show mark.token :: r = yield a' ++ mark'.token :: r' from h] at hlack
      exact absurd hlack (not_lacks_leaf mark)
  | some a =>
    cases tree' with
    | none =>
      have hlack := hlacks a (mark.token :: r)
      rw [show yield a ++ mark.token :: r = mark'.token :: r' from h] at hlack
      exact absurd hlack (not_lacks_leaf mark')
    | some a' =>
      obtain ⟨b, hb, -⟩ := Option.map_eq_some_iff.mp hread
      obtain ⟨b', hb', -⟩ := Option.map_eq_some_iff.mp hread'
      obtain ⟨rfl, hbehind⟩ := hitem hb hb' h
      exact ⟨rfl, hmark hbehind⟩

/-- A type is determined by its token. -/
theorem TypeTree.ext_token {t t' : TypeTree} (h : t.token = t'.token) : t = t' := by
  cases t with
  | scalar type =>
    cases t' with
    | scalar type' => rw [Leaf.ext_token h]
    | object name' =>
      have hkind := type.kind_scalar
      rw [show type.token = name'.token from h, name'.kind_ident] at hkind
      cases hkind
  | object name =>
    cases t' with
    | scalar type' =>
      have hkind := type'.kind_scalar
      rw [← show name.token = type'.token from h, name.kind_ident] at hkind
      cases hkind
    | object name' => rw [Leaf.ext_token h]

/-! ### Statements -/

/-- The productions of a statement, branches with and without an `else` taken together. -/
inductive StatementShape where
  | declare
  | print
  | loop
  | branch
  | giveBack
  | foreign
  | expr

/-- The production of a tree. -/
def StmtTree.shape : StmtTree .statement → StatementShape
  | declare _ _ => .declare
  | print _ _ _ => .print
  | loop _ _ _ _ _ _ _ _ _ => .loop
  | branch _ _ _ _ _ => .branch
  | branchElse _ _ _ _ _ _ _ => .branch
  | giveBack _ _ _ => .giveBack
  | foreign _ => .foreign
  | expr _ _ => .expr

/-- The production of the statement that begins with a token of the given kind. -/
def statementShape (names : Names) : Kind → StatementShape
  | .scalar _ => .declare
  | .ident name => if (names.class? name).isSome then .declare else .expr
  | .quoted _ => .print
  | .keyword .loop => .loop
  | .keyword .branch => .branch
  | .keyword .giveBack => .giveBack
  | .foreign _ => .foreign
  | _ => .expr

/-- The production of a readable statement can be told from its first token. -/
theorem StmtTree.shape_eq {t : StmtTree .statement} {a : Stmt}
    (hread : t.reading scope names = some (a, later)) :
    ∃ first tokens, t.yield = first :: tokens ∧ t.shape = statementShape names first.kind := by
  cases t with
  | declare type vars =>
    refine ⟨_, _, rfl, ?_⟩
    obtain ⟨cell, ds, htype, -⟩ := reading_declare hread
    cases type with
    | scalar type => rw [TypeTree.token, type.kind_scalar]; rfl
    | object name =>
      obtain ⟨number, hclass, -⟩ := Option.map_eq_some_iff.mp htype
      rw [TypeTree.token, name.kind_ident, statementShape, hclass]
      rfl
  | print template => exact ⟨_, _, rfl, by rw [template.kind_quoted]; rfl⟩
  | loop word => exact ⟨_, _, rfl, by rw [word.kind_keyword]; rfl⟩
  | branch word => exact ⟨_, _, rfl, by rw [word.kind_keyword]; rfl⟩
  | branchElse word => exact ⟨_, _, rfl, by rw [word.kind_keyword]; rfl⟩
  | giveBack word => exact ⟨_, _, rfl, by rw [word.kind_keyword]; rfl⟩
  | foreign code => exact ⟨_, _, rfl, by rw [code.kind_foreign]; rfl⟩
  | expr e semicolon =>
    obtain ⟨t, tokens, hyield, hchain⟩ := e.heads
    refine ⟨t, tokens ++ [semicolon.token], by rw [yield, hyield]; rfl, ?_⟩
    obtain ⟨hopens, -⟩ := reading_expr hread
    rw [hyield, List.head?_cons, Option.any_some] at hopens
    cases hkind : t.kind with
    | ident name =>
      have hclass : names.class? name = none := by simpa [hkind, opensExpression] using hopens
      rw [statementShape, hclass]
      rfl
    | quoted raw =>
      rw [hkind] at hopens
      cases hopens
    | scalar type =>
      rw [hkind] at hchain
      cases hchain
    | foreign code =>
      rw [hkind] at hchain
      cases hchain
    | keyword k =>
      rw [hkind] at hchain
      cases k <;> first | rfl | cases hchain
    | _ => rfl

/-- Readable statements in front of the same tokens are of the same production. -/
theorem StmtTree.shape_unique {t t' : StmtTree .statement} {a a' : Stmt}
    (hread : t.reading scope names = some (a, later))
    (hread' : t'.reading scope names = some (a', later')) (h : t.yield ++ r = t'.yield ++ r') :
    t.shape = t'.shape := by
  obtain ⟨first, tokens, hyield, hshape⟩ := shape_eq hread
  obtain ⟨first', tokens', hyield', hshape'⟩ := shape_eq hread'
  rw [hyield, hyield'] at h
  obtain ⟨rfl, -⟩ := List.cons.inj h
  rw [hshape, hshape']

private theorem print_unique {arguments arguments' : List (Punct .comma × ExprTree .chain)}
    {es es' : List Expr} {semicolon semicolon' : Punct .semicolon}
    (hread : (arguments.mapM fun a => a.2.reading names scope) = some es)
    (hread' : (arguments'.mapM fun a => a.2.reading names scope) = some es')
    (h : yieldBehind ExprTree.yield arguments ++ semicolon.token :: r =
      yieldBehind ExprTree.yield arguments' ++ semicolon'.token :: r') :
    arguments = arguments' ∧ semicolon = semicolon' ∧ r = r' := by
  have hends : ∀ {m : Mark} (mark : Punct m) (tokens : List Token), m = .comma ∨ m = .semicolon →
      Heads Kind.endsChain (mark.token :: tokens) := by
    rintro m mark tokens (rfl | rfl) <;> exact Heads.of_cons (by rw [mark.kind_mark]; rfl)
  have hcomma : ∀ (semicolon : Punct .semicolon) (r : List Token),
      Lacks (Kind.mark? .comma) (semicolon.token :: r) :=
    fun semicolon r => Lacks.of_cons (by rw [semicolon.kind_mark]; rfl)
  have hall : ∀ {arguments : List (Punct .comma × ExprTree .chain)} {es : List Expr},
      (arguments.mapM fun a => a.2.reading names scope) = some es →
      readAll (fun (a : Punct .comma × ExprTree .chain) names =>
        (a.2.reading names scope).map (·, names)) arguments names = some (es, names) :=
    readAll_of_mapM (fun names (a : Punct .comma × ExprTree .chain) => a.2.reading names scope)
  have hrest : arguments = arguments' ∧ semicolon.token :: r = semicolon'.token :: r' := by
    refine yieldBehind_unique _ (Heads Kind.endsChain) ?_
      (fun mark tokens => hends mark tokens (.inl rfl)) (hall hread) (hall hread')
      (hends semicolon r (.inr rfl)) (hends semicolon' r' (.inr rfl)) (hcomma semicolon r)
      (hcomma semicolon' r') h
    intro mark t t' b b' names _ _ r r' hread hread' hends hends' h
    obtain ⟨v, hv, -⟩ := Option.map_eq_some_iff.mp hread
    obtain ⟨v', hv', -⟩ := Option.map_eq_some_iff.mp hread'
    exact ExprTree.unique hv hv' hends hends' h
  obtain ⟨rfl, hbehind⟩ := hrest
  obtain ⟨htoken, rfl⟩ := List.cons.inj hbehind
  exact ⟨rfl, Leaf.ext_token htoken, rfl⟩

/-- An optional assignment or chain in front of a semicolon or a closing parenthesis. -/
private theorem optionalExpr_unique {m : Mark} (hm : m = .semicolon ∨ m = .rightParen)
    {t t' : Option StmtExprTree} {v v' : Option Expr} {mark mark' : Punct m}
    (hread : readOption (StmtExprTree.reading names scope) t = some v)
    (hread' : readOption (StmtExprTree.reading names scope) t' = some v')
    (h : StmtTree.yieldOption StmtExprTree.yield t ++ mark.token :: r =
      StmtTree.yieldOption StmtExprTree.yield t' ++ mark'.token :: r') :
    t = t' ∧ mark = mark' ∧ r = r' := by
  have hends : ∀ (mark : Punct m) (r : List Token), Heads Kind.endsCondition (mark.token :: r) := by
    intro mark r
    rcases hm with rfl | rfl <;> exact Heads.of_cons (by rw [mark.kind_mark]; rfl)
  refine yieldOption_unique (fun e r => ?_) (fun hb hb' h => ?_) hread hread' h
  · exact lacks_of_opensStatement (by rcases hm with rfl | rfl <;> decide)
      ((e.heads.imp Kind.opensStatement_of_opensChain).append r)
  · exact StmtExprTree.unique hb hb' (hends mark r) (hends mark' r') h

private theorem optionalCondition_unique {t t' : Option ConditionTree} {v v' : Option Condition}
    {mark mark' : Punct .semicolon}
    (hread : readOption (ConditionTree.reading names scope) t = some v)
    (hread' : readOption (ConditionTree.reading names scope) t' = some v')
    (h : StmtTree.yieldOption ConditionTree.yield t ++ mark.token :: r =
      StmtTree.yieldOption ConditionTree.yield t' ++ mark'.token :: r') :
    t = t' ∧ mark = mark' ∧ r = r' := by
  have hends : ∀ (mark : Punct .semicolon) (r : List Token),
      Heads Kind.endsCondition (mark.token :: r) :=
    fun mark r => Heads.of_cons (by rw [mark.kind_mark]; rfl)
  refine yieldOption_unique (fun c r => ?_) (fun hb hb' h => ?_) hread hread' h
  · exact (c.heads.append r).lacks (Kind.mark?_of_opensTerm (by decide))
  · exact ConditionTree.unique hb hb' (hends mark r) (hends mark' r') h

private theorem optionalChain_unique {t t' : Option (ExprTree .chain)} {v v' : Option Expr}
    {mark mark' : Punct .semicolon}
    (hread : readOption (ExprTree.reading names scope) t = some v)
    (hread' : readOption (ExprTree.reading names scope) t' = some v')
    (h : StmtTree.yieldOption ExprTree.yield t ++ mark.token :: r =
      StmtTree.yieldOption ExprTree.yield t' ++ mark'.token :: r') :
    t = t' ∧ mark = mark' ∧ r = r' := by
  have hends : ∀ (mark : Punct .semicolon) (r : List Token),
      Heads Kind.endsChain (mark.token :: r) :=
    fun mark r => Heads.of_cons (by rw [mark.kind_mark]; rfl)
  refine yieldOption_unique (fun e r => ?_) (fun hb hb' h => ?_) hread hread' h
  · exact lacks_of_opensStatement (by decide)
      ((e.heads_chain.imp Kind.opensStatement_of_opensChain).append r)
  · exact ExprTree.unique hb hb' (hends mark r) (hends mark' r') h

/-- The heads of two branches in front of the same tokens are the same. -/
private theorem branchHead_unique {word word' : Word .branch} {opening opening' : Punct .leftParen}
    {test test' : ConditionTree} {closing closing' : Punct .rightParen} {c c' : Condition}
    (hread : test.reading names scope = some c) (hread' : test'.reading names scope = some c')
    (h : word.token :: opening.token :: (test.yield ++ closing.token :: r) =
      word'.token :: opening'.token :: (test'.yield ++ closing'.token :: r')) :
    word = word' ∧ opening = opening' ∧ test = test' ∧ closing = closing' ∧ r = r' := by
  have hends : ∀ (closing : Punct .rightParen) (r : List Token),
      Heads Kind.endsCondition (closing.token :: r) :=
    fun closing r => Heads.of_cons (by rw [closing.kind_mark]; rfl)
  obtain ⟨hword, h⟩ := List.cons.inj h
  obtain ⟨hopening, htest⟩ := List.cons.inj h
  obtain ⟨rfl, hclosing⟩ := ConditionTree.unique hread hread' (hends closing r) (hends closing' r')
    htest
  obtain ⟨hclosingToken, rfl⟩ := List.cons.inj hclosing
  exact ⟨Leaf.ext_token hword, Leaf.ext_token hopening, rfl, Leaf.ext_token hclosingToken, rfl⟩

private theorem not_lacks_rightBrace (h : Heads (fun k => k.isMark [.rightBrace]) r) :
    ¬ Lacks (Kind.mark? .rightBrace) r := by
  obtain ⟨t, rest, rfl, hmark⟩ := h
  obtain ⟨m, hm, hkind⟩ := Kind.exists_of_isMark hmark
  obtain rfl : m = .rightBrace := by simpa using hm
  exact not_lacks_leaf ⟨t, (), by rw [hkind]; rfl⟩

/-! ### Phrases of statements

One lemma for each production, with what holds of the parts as its hypotheses. -/

namespace StmtTree

variable (scope) in
/-- A phrase of statements is fixed by the tokens it is in front of: where it can be read and
stops, no other phrase of its sort can be read and stop. -/
def Determined {k : StmtSort} (t : StmtTree k) : Prop :=
  ∀ ⦃t' : StmtTree k⦄ ⦃names later later' : Names⦄ ⦃a a' : StmtReading k⦄ ⦃r r' : List Token⦄,
    t.reading scope names = some (a, later) → t'.reading scope names = some (a', later') →
      t.Stops r → t'.Stops r' → t.yield ++ r = t'.yield ++ r' → t = t' ∧ r = r'

/-- A statement has to be told from statements of its own production only. -/
private theorem Determined.of_shape {t : StmtTree .statement}
    (h : ∀ ⦃t' : StmtTree .statement⦄ ⦃names later later' : Names⦄ ⦃a a' : Stmt⦄
      ⦃r r' : List Token⦄, t.shape = t'.shape →
      t.reading scope names = some (a, later) → t'.reading scope names = some (a', later') →
      t.Stops r → t'.Stops r' → t.yield ++ r = t'.yield ++ r' → t = t' ∧ r = r') :
    t.Determined scope :=
  fun _ _ _ _ _ _ _ _ hread hread' hstops hstops' hyield =>
    h (shape_unique hread hread' hyield) hread hread' hstops hstops' hyield

/-- A declaration is a type and declarators up to their semicolon. -/
private theorem determined_declare (type : TypeTree) (vars : DeclaratorsTree) :
    (declare type vars).Determined scope := by
  refine Determined.of_shape fun t' names later later' a a' r r' hshape hread hread' hstops
    hstops' h => ?_
  cases t' with
  | declare type' vars' =>
    obtain ⟨cell, ds, htype, hvars, -⟩ := reading_declare hread
    obtain ⟨cell', ds', htype', hvars', -⟩ := reading_declare hread'
    obtain ⟨htoken, hbehind⟩ := List.cons.inj h
    obtain rfl := TypeTree.ext_token htoken
    obtain rfl : cell = cell' := by simpa [htype] using htype'
    obtain ⟨rfl, rfl⟩ := DeclaratorsTree.unique hvars hvars' hbehind
    exact ⟨rfl, rfl⟩
  | _ => cases hshape

/-- The arguments of a print end at commas and at the semicolon. -/
private theorem determined_print (template : Leaf Kind.quoted?)
    (arguments : List (Punct .comma × ExprTree .chain)) (semicolon : Punct .semicolon) :
    (print template arguments semicolon).Determined scope := by
  refine Determined.of_shape fun t' names later later' a a' r r' hshape hread hread' hstops
    hstops' h => ?_
  cases t' with
  | print template' arguments' semicolon' =>
    obtain ⟨es, hes, -⟩ := reading_print hread
    obtain ⟨es', hes', -⟩ := reading_print hread'
    simp only [yield, List.cons_append, List.append_assoc, List.nil_append,
      List.cons.injEq] at h
    obtain ⟨htoken, hbehind⟩ := h
    obtain rfl := Leaf.ext_token htoken
    obtain ⟨rfl, rfl, rfl⟩ := print_unique hes hes' hbehind
    exact ⟨rfl, rfl⟩
  | _ => cases hshape

/-- The three optional parts of a loop end at its semicolons and at the closing parenthesis. -/
private theorem determined_loop (word : Word .loop) (opening : Punct .leftParen)
    (initial : Option StmtExprTree) (first : Punct .semicolon) (test : Option ConditionTree)
    (second : Punct .semicolon) (step : Option StmtExprTree) (closing : Punct .rightParen)
    {body : StmtTree .body} (ih : body.Determined scope) :
    (loop word opening initial first test second step closing body).Determined scope := by
  refine Determined.of_shape fun t' names later later' a a' r r' hshape hread hread' hstops
    hstops' h => ?_
  cases t' with
  | loop word' opening' initial' first' test' second' step' closing' body' =>
    obtain ⟨e₁, c, e₂, b, hinitial, htest, hstep, hbody, -⟩ := reading_loop hread
    obtain ⟨e₁', c', e₂', b', hinitial', htest', hstep', hbody', -⟩ := reading_loop hread'
    simp only [yield, List.cons_append, List.append_assoc, List.cons.injEq] at h
    obtain ⟨hword, hopening, hrest⟩ := h
    obtain rfl := Leaf.ext_token hword
    obtain rfl := Leaf.ext_token hopening
    obtain ⟨rfl, rfl, htestEq⟩ := optionalExpr_unique (.inl rfl) hinitial hinitial' hrest
    obtain ⟨rfl, rfl, hstepEq⟩ := optionalCondition_unique htest htest' htestEq
    obtain ⟨rfl, rfl, hbodyEq⟩ := optionalExpr_unique (.inr rfl) hstep hstep' hstepEq
    obtain ⟨rfl, rfl⟩ := ih hbody hbody' hstops hstops' hbodyEq
    exact ⟨rfl, rfl⟩
  | _ => cases hshape

/-- A branch without an `else` is not followed by one, which tells it from a branch that has one. -/
private theorem determined_branch (word : Word .branch) (opening : Punct .leftParen)
    (test : ConditionTree) (closing : Punct .rightParen) {yes : StmtTree .body}
    (ih : yes.Determined scope) : (branch word opening test closing yes).Determined scope := by
  refine Determined.of_shape fun t' names later later' a a' r r' hshape hread hread' hstops
    hstops' h => ?_
  obtain ⟨c, b, htest, hyes, -⟩ := reading_branch hread
  have hlacks : Lacks (Kind.keyword? .otherwise) r := hstops rfl
  cases t' with
  | branch word' opening' test' closing' yes' =>
    obtain ⟨c', b', htest', hyes', -⟩ := reading_branch hread'
    simp only [yield, List.cons_append, List.append_assoc] at h
    obtain ⟨rfl, rfl, rfl, rfl, hbody⟩ := branchHead_unique htest htest' h
    obtain ⟨rfl, rfl⟩ := ih hyes hyes' (fun _ => hlacks) (fun _ => hstops' rfl) hbody
    exact ⟨rfl, rfl⟩
  | branchElse word' opening' test' closing' yes' otherwise' no' =>
    obtain ⟨hclosed, c', b', _, _, htest', hyes', -⟩ := reading_branchElse hread'
    simp only [yield, List.cons_append, List.append_assoc] at h
    obtain ⟨rfl, rfl, rfl, rfl, hbody⟩ := branchHead_unique htest htest' h
    obtain ⟨-, rfl⟩ := ih hyes hyes' (fun _ => hlacks) (fun hopen => absurd hopen hclosed) hbody
    exact absurd hlacks (not_lacks_leaf otherwise')
  | _ => cases hshape

/-- The body in front of an `else` is not open, so that it stops there. -/
private theorem determined_branchElse (word : Word .branch) (opening : Punct .leftParen)
    (test : ConditionTree) (closing : Punct .rightParen) {yes : StmtTree .body}
    (otherwise : Word .otherwise) {no : StmtTree .body} (ihYes : yes.Determined scope)
    (ihNo : no.Determined scope) :
    (branchElse word opening test closing yes otherwise no).Determined scope := by
  refine Determined.of_shape fun t' names later later' a a' r r' hshape hread hread' hstops
    hstops' h => ?_
  obtain ⟨hclosed, c, b, names₁, d, htest, hyes, hno, -⟩ := reading_branchElse hread
  have hyesStops : ∀ r, yes.Stops r := fun r hopen => absurd hopen hclosed
  cases t' with
  | branch word' opening' test' closing' yes' =>
    obtain ⟨c', b', htest', hyes', -⟩ := reading_branch hread'
    have hlacks : Lacks (Kind.keyword? .otherwise) r' := hstops' rfl
    simp only [yield, List.cons_append, List.append_assoc] at h
    obtain ⟨rfl, rfl, rfl, rfl, hbody⟩ := branchHead_unique htest htest' h
    obtain ⟨-, rfl⟩ := ihYes hyes hyes' (hyesStops _) (fun _ => hlacks) hbody
    exact absurd hlacks (not_lacks_leaf otherwise)
  | branchElse word' opening' test' closing' yes' otherwise' no' =>
    obtain ⟨hclosed', c', b', names₁', d', htest', hyes', hno', -⟩ := reading_branchElse hread'
    simp only [yield, List.cons_append, List.append_assoc] at h
    obtain ⟨rfl, rfl, rfl, rfl, hbody⟩ := branchHead_unique htest htest' h
    obtain ⟨rfl, hrest⟩ := ihYes hyes hyes' (hyesStops _) (fun hopen => absurd hopen hclosed') hbody
    obtain ⟨rfl, rfl⟩ : b = b' ∧ names₁ = names₁' := by simpa [hyes] using hyes'
    obtain ⟨htoken, hnoEq⟩ := List.cons.inj hrest
    obtain rfl := Leaf.ext_token htoken
    obtain ⟨rfl, rfl⟩ := ihNo hno hno' hstops hstops' hnoEq
    exact ⟨rfl, rfl⟩
  | _ => cases hshape

/-- A returned value ends at the semicolon. -/
private theorem determined_giveBack (word : Word .giveBack) (value : Option (ExprTree .chain))
    (semicolon : Punct .semicolon) : (giveBack word value semicolon).Determined scope := by
  refine Determined.of_shape fun t' names later later' a a' r r' hshape hread hread' hstops
    hstops' h => ?_
  cases t' with
  | giveBack word' value' semicolon' =>
    obtain ⟨-, e, he, -⟩ := reading_giveBack hread
    obtain ⟨-, e', he', -⟩ := reading_giveBack hread'
    simp only [yield, List.cons_append, List.append_assoc, List.nil_append,
      List.cons.injEq] at h
    obtain ⟨htoken, hbehind⟩ := h
    obtain rfl := Leaf.ext_token htoken
    obtain ⟨rfl, rfl, rfl⟩ := optionalChain_unique he he' hbehind
    exact ⟨rfl, rfl⟩
  | _ => cases hshape

/-- A block of foreign code is a single token. -/
private theorem determined_foreign (code : Leaf Kind.foreign?) :
    (foreign code).Determined scope := by
  refine Determined.of_shape fun t' names later later' a a' r r' hshape hread hread' hstops
    hstops' h => ?_
  cases t' with
  | foreign code' =>
    obtain ⟨htoken, rfl⟩ := List.cons.inj h
    obtain rfl := Leaf.ext_token htoken
    exact ⟨rfl, rfl⟩
  | _ => cases hshape

/-- An expression statement ends at its semicolon. -/
private theorem determined_expr (e : StmtExprTree) (semicolon : Punct .semicolon) :
    (expr e semicolon).Determined scope := by
  refine Determined.of_shape fun t' names later later' a a' r r' hshape hread hread' hstops
    hstops' h => ?_
  cases t' with
  | expr e' semicolon' =>
    obtain ⟨-, v, hv, -⟩ := reading_expr hread
    obtain ⟨-, v', hv', -⟩ := reading_expr hread'
    have hends : ∀ (semicolon : Punct .semicolon) (r : List Token),
        Heads Kind.endsCondition (semicolon.token :: r) :=
      fun semicolon r => Heads.of_cons (by rw [semicolon.kind_mark]; rfl)
    simp only [yield, List.append_assoc, List.singleton_append] at h
    obtain ⟨rfl, hbehind⟩ := StmtExprTree.unique hv hv' (hends semicolon r)
      (hends semicolon' r') h
    obtain ⟨htoken, rfl⟩ := List.cons.inj hbehind
    obtain rfl := Leaf.ext_token htoken
    exact ⟨rfl, rfl⟩
  | _ => cases hshape

/-- A body that is a single statement begins with no brace. -/
private theorem determined_single {s : StmtTree .statement} (ih : s.Determined scope) :
    (single s).Determined scope := by
  intro t' names later later' a a' r r' hread hread' hstops hstops' h
  obtain ⟨b, hs, -⟩ := reading_single hread
  cases t' with
  | single s' =>
    obtain ⟨b', hs', -⟩ := reading_single hread'
    obtain ⟨rfl, rfl⟩ := ih hs hs' hstops hstops' h
    exact ⟨rfl, rfl⟩
  | block opening' statements' closing' =>
    have hbrace : Lacks (Kind.mark? .leftBrace) (s.yield ++ r) :=
      lacks_of_opensStatement (by decide) (s.heads_statement.append r)
    rw [show s.yield ++ r = _ from h] at hbrace
    exact absurd hbrace (not_lacks_leaf opening')

/-- The statements in braces stop at the closing one. -/
private theorem determined_block (opening : Punct .leftBrace) {statements : StmtTree .statements}
    (closing : Punct .rightBrace) (ih : statements.Determined scope) :
    (block opening statements closing).Determined scope := by
  intro t' names later later' a a' r r' hread hread' hstops hstops' h
  cases t' with
  | single s' =>
    have hbrace : Lacks (Kind.mark? .leftBrace) (s'.yield ++ r') :=
      lacks_of_opensStatement (by decide) (s'.heads_statement.append r')
    rw [← show _ = s'.yield ++ r' from h] at hbrace
    exact absurd hbrace (not_lacks_leaf opening)
  | block opening' statements' closing' =>
    have hends : ∀ (closing : Punct .rightBrace) (r : List Token),
        Heads (fun k => k.isMark [.rightBrace]) (closing.token :: r) :=
      fun closing r => Heads.of_cons (by rw [closing.kind_mark]; rfl)
    simp only [yield, List.cons_append, List.append_assoc, List.nil_append,
      List.cons.injEq] at h
    obtain ⟨htoken, hstatements⟩ := h
    obtain rfl := Leaf.ext_token htoken
    obtain ⟨rfl, hclosing⟩ := ih hread hread' (hends closing r) (hends closing' r') hstatements
    obtain ⟨htoken, rfl⟩ := List.cons.inj hclosing
    obtain rfl := Leaf.ext_token htoken
    exact ⟨rfl, rfl⟩

/-- At the closing brace there is no further statement. -/
private theorem determined_noStatement : noStatement.Determined scope := by
  intro t' names later later' a a' r r' hread hread' hstops hstops' h
  cases t' with
  | noStatement => exact ⟨rfl, h⟩
  | statement first' others' =>
    have hbrace : Lacks (Kind.mark? .rightBrace) ((statement first' others').yield ++ r') :=
      lacks_of_opensStatement (by decide) ((first'.heads_statement.append _).append r')
    rw [← show r = _ from h] at hbrace
    exact absurd hbrace (not_lacks_rightBrace hstops)

/-- A statement in a row stops at the next one or at the closing brace. -/
private theorem determined_statement {first : StmtTree .statement} {others : StmtTree .statements}
    (ihFirst : first.Determined scope) (ihOthers : others.Determined scope) :
    (statement first others).Determined scope := by
  intro t' names later later' a a' r r' hread hread' hstops hstops' h
  cases t' with
  | noStatement =>
    have hbrace : Lacks (Kind.mark? .rightBrace) ((statement first others).yield ++ r) :=
      lacks_of_opensStatement (by decide) ((first.heads_statement.append _).append r)
    rw [show _ = r' from h] at hbrace
    exact absurd hbrace (not_lacks_rightBrace hstops')
  | statement first' others' =>
    obtain ⟨s, names₁, b, hs, hb, -⟩ := reading_statement hread
    obtain ⟨s', names₁', b', hs', hb', -⟩ := reading_statement hread'
    simp only [yield, List.append_assoc] at h
    obtain ⟨rfl, hothers⟩ := ihFirst hs hs' (fun _ => lacks_otherwise hstops)
      (fun _ => lacks_otherwise hstops') h
    obtain ⟨rfl, rfl⟩ : s = s' ∧ names₁ = names₁' := by simpa [hs] using hs'
    obtain ⟨rfl, rfl⟩ := ihOthers hb hb' hstops hstops' hothers
    exact ⟨rfl, rfl⟩

/-- Every phrase of statements is fixed by the tokens it is in front of. -/
theorem determined {k : StmtSort} (t : StmtTree k) : t.Determined scope := by
  induction t with
  | declare type vars => exact determined_declare type vars
  | print template arguments semicolon => exact determined_print template arguments semicolon
  | loop word opening initial first test second step closing body ih =>
    exact determined_loop word opening initial first test second step closing ih
  | branch word opening test closing yes ih => exact determined_branch word opening test closing ih
  | branchElse word opening test closing yes otherwise no ihYes ihNo =>
    exact determined_branchElse word opening test closing otherwise ihYes ihNo
  | giveBack word value semicolon => exact determined_giveBack word value semicolon
  | foreign code => exact determined_foreign code
  | expr e semicolon => exact determined_expr e semicolon
  | single s ih => exact determined_single ih
  | block opening statements closing ih => exact determined_block opening closing ih
  | noStatement => exact determined_noStatement
  | statement first others ihFirst ihOthers => exact determined_statement ihFirst ihOthers

/-- A readable phrase is determined by the tokens it is in front of. -/
theorem unique {k : StmtSort} {t t' : StmtTree k} {a a' : StmtReading k}
    (hread : t.reading scope names = some (a, later))
    (hread' : t'.reading scope names = some (a', later')) (hstops : t.Stops r)
    (hstops' : t'.Stops r') (h : t.yield ++ r = t'.yield ++ r') : t = t' ∧ r = r' :=
  t.determined hread hread' hstops hstops' h

end StmtTree

/-! ### Parts of items -/

theorem LiteralTree.unique {t t' : LiteralTree} (h : t.yield ++ r = t'.yield ++ r') :
    t = t' ∧ r = r' := by
  have hminus : ∀ (value : Leaf Kind.literal?) (minus : Punct .minus),
      value.token ≠ minus.token := by
    intro value minus htoken
    have hfits := value.fits
    rw [htoken, minus.kind_mark] at hfits
    cases hfits
  cases t with
  | plain value =>
    cases t' with
    | plain value' =>
      obtain ⟨htoken, rfl⟩ := List.cons.inj h
      rw [Leaf.ext_token htoken]
      exact ⟨rfl, rfl⟩
    | negated minus' number' => exact absurd (List.cons.inj h).1 (hminus value minus')
  | negated minus number =>
    cases t' with
    | plain value' => exact absurd (List.cons.inj h).1.symm (hminus value' minus)
    | negated minus' number' =>
      obtain ⟨hminusToken, hbehind⟩ := List.cons.inj h
      obtain ⟨hnumberToken, rfl⟩ := List.cons.inj hbehind
      rw [Leaf.ext_token hminusToken, Leaf.ext_token hnumberToken]
      exact ⟨rfl, rfl⟩

theorem ParameterTree.unique {t t' : ParameterTree} (hequal : Lacks (Kind.mark? .equal) r)
    (hequal' : Lacks (Kind.mark? .equal) r') (h : t.yield ++ r = t'.yield ++ r') :
    t = t' ∧ r = r' := by
  obtain ⟨type, name, value⟩ := t
  obtain ⟨type', name', value'⟩ := t'
  obtain ⟨htype, hbehind⟩ := List.cons.inj h
  obtain ⟨hname, hvalue⟩ := List.cons.inj hbehind
  obtain rfl := Leaf.ext_token htype
  obtain rfl := Leaf.ext_token hname
  cases value with
  | none =>
    cases value' with
    | none => exact ⟨rfl, hvalue⟩
    | some value' =>
      obtain rfl : r = _ := hvalue
      exact absurd hequal (not_lacks_leaf value'.1)
  | some value =>
    cases value' with
    | none =>
      obtain rfl : _ = r' := hvalue
      exact absurd hequal' (not_lacks_leaf value.1)
    | some value' =>
      obtain ⟨mark, value⟩ := value
      obtain ⟨mark', value'⟩ := value'
      obtain ⟨htoken, hliteral⟩ := List.cons.inj hvalue
      obtain rfl := Leaf.ext_token htoken
      obtain ⟨rfl, rfl⟩ := LiteralTree.unique hliteral
      exact ⟨rfl, rfl⟩

private theorem ParameterTree.unique_all
    {t t' : Option (ParameterTree × List (Punct .comma × ParameterTree))}
    {closing closing' : Punct .rightParen}
    (h : yieldAll t ++ closing.token :: r = yieldAll t' ++ closing'.token :: r') :
    t = t' ∧ closing = closing' ∧ r = r' := by
  have hclosing : closing.token :: r = closing'.token :: r' → closing = closing' ∧ r = r' := by
    intro h
    obtain ⟨htoken, rfl⟩ := List.cons.inj h
    exact ⟨Leaf.ext_token htoken, rfl⟩
  have htype : ∀ (type : Leaf Kind.scalar?) (closing : Punct .rightParen),
      type.token ≠ closing.token := by
    intro type closing htoken
    have hkind := type.kind_scalar
    rw [htoken, closing.kind_mark] at hkind
    cases hkind
  have hequal : ∀ {m : Mark} (mark : Punct m) (tokens : List Token), m ≠ .equal →
      Lacks (Kind.mark? .equal) (mark.token :: tokens) := by
    intro m mark tokens hm
    exact Lacks.of_cons (by rw [mark.kind_mark, Kind.mark?, if_neg hm])
  have hnext : ∀ (others : List (Punct .comma × ParameterTree)) (closing : Punct .rightParen)
      (r : List Token),
      Lacks (Kind.mark? .equal) (yieldBehind yield others ++ closing.token :: r) := by
    intro others closing r
    cases others with
    | nil => exact hequal closing r (by decide)
    | cons other others => exact hequal other.1 _ (by decide)
  cases t with
  | none =>
    cases t' with
    | none => exact ⟨rfl, hclosing h⟩
    | some t' => exact absurd (List.cons.inj h).1.symm (htype t'.1.type closing)
  | some t =>
    cases t' with
    | none => exact absurd (List.cons.inj h).1 (htype t.1.type closing')
    | some t' =>
      obtain ⟨first, others⟩ := t
      obtain ⟨first', others'⟩ := t'
      simp only [yieldAll, List.append_assoc] at h
      obtain ⟨rfl, hothers⟩ := unique (hnext others closing r) (hnext others' closing' r') h
      have hrest : others = others' ∧ closing.token :: r = closing'.token :: r' := by
        refine yieldBehind_unique_of_forall (Lacks (Kind.mark? .equal)) unique
          (fun comma tokens => hequal comma tokens (by decide)) (hequal closing r (by decide))
          (hequal closing' r' (by decide)) ?_ ?_ hothers
        · exact Lacks.of_cons (by rw [closing.kind_mark]; rfl)
        · exact Lacks.of_cons (by rw [closing'.kind_mark]; rfl)
      obtain ⟨rfl, hbehind⟩ := hrest
      exact ⟨rfl, hclosing hbehind⟩

theorem FieldGroupTree.unique {t t' : FieldGroupTree} (h : t.yield ++ r = t'.yield ++ r') :
    t = t' ∧ r = r' := by
  obtain ⟨type, first, others, semicolon⟩ := t
  obtain ⟨type', first', others', semicolon'⟩ := t'
  simp only [yield, List.cons_append, List.append_assoc, List.nil_append, List.cons.injEq] at h
  obtain ⟨htype, hfirst, hothers⟩ := h
  obtain rfl := TypeTree.ext_token htype
  obtain rfl := Leaf.ext_token hfirst
  have hrest : others = others' ∧ semicolon.token :: r = semicolon'.token :: r' := by
    refine yieldBehind_unique_of_forall (fun _ => True) ?_ (fun _ _ => trivial) trivial trivial
      (Lacks.of_cons (by rw [semicolon.kind_mark]; rfl))
      (Lacks.of_cons (by rw [semicolon'.kind_mark]; rfl)) hothers
    intro name name' r r' _ _ h
    simp only [List.cons_append, List.nil_append, List.cons.injEq] at h
    exact ⟨Leaf.ext_token h.1, h.2⟩
  obtain ⟨rfl, hbehind⟩ := hrest
  obtain ⟨htoken, rfl⟩ := List.cons.inj hbehind
  rw [Leaf.ext_token htoken]
  exact ⟨rfl, rfl⟩

private theorem fieldGroups_unique {groups groups' : List FieldGroupTree}
    {closing closing' : Punct .rightBrace}
    (h : groups.flatMap FieldGroupTree.yield ++ closing.token :: r =
      groups'.flatMap FieldGroupTree.yield ++ closing'.token :: r') :
    groups = groups' ∧ closing = closing' ∧ r = r' := by
  have htype : ∀ (type : TypeTree) (closing : Punct .rightBrace), type.token ≠ closing.token := by
    intro type closing htoken
    have hkind := closing.kind_mark
    rw [← htoken] at hkind
    cases type with
    | scalar type => rw [TypeTree.token, type.kind_scalar] at hkind; cases hkind
    | object name => rw [TypeTree.token, name.kind_ident] at hkind; cases hkind
  induction groups generalizing groups' with
  | nil =>
    cases groups' with
    | nil =>
      obtain ⟨htoken, rfl⟩ := List.cons.inj h
      exact ⟨rfl, Leaf.ext_token htoken, rfl⟩
    | cons group' groups' => exact absurd (List.cons.inj h).1.symm (htype group'.type closing)
  | cons group groups ih =>
    cases groups' with
    | nil => exact absurd (List.cons.inj h).1 (htype group.type closing')
    | cons group' groups' =>
      rw [List.flatMap_cons, List.flatMap_cons, List.append_assoc, List.append_assoc] at h
      obtain ⟨rfl, hbehind⟩ := FieldGroupTree.unique h
      obtain ⟨rfl, rfl, rfl⟩ := ih hbehind
      exact ⟨rfl, rfl, rfl⟩

/-! ### Items -/

/-- The kinds of items, classes with and without objects behind them taken together. -/
inductive ItemShape where
  | procedure
  | classDef
  | define
  | statement

/-- The kind of a tree. -/
def ItemTree.shape : ItemTree → ItemShape
  | procedure _ _ _ _ _ _ _ _ => .procedure
  | classDef _ _ _ _ _ _ => .classDef
  | classDefWith _ _ _ _ _ _ => .classDef
  | define _ _ _ _ => .define
  | statement _ => .statement

/-- The kind of the item that some tokens begin with. A procedure is told from a declaration by
its third token. -/
def itemShape : List Token → ItemShape
  | [] => .statement
  | t :: rest =>
    match t.kind with
    | .scalar _ => if begins .leftParen rest.tail then .procedure else .statement
    | .keyword .classDef => .classDef
    | .define => .define
    | _ => .statement

theorem ItemTree.shape_eq (t : ItemTree) : t.shape = itemShape (t.yield ++ r) := by
  cases t with
  | procedure type name opening parameters closing begins body ends =>
    simp only [yield, List.cons_append, itemShape, type.kind_scalar, List.tail_cons,
      begins_punct opening]
    rfl
  | classDef word =>
    rw [yield, List.cons_append, List.cons_append, itemShape, word.kind_keyword]
    rfl
  | classDefWith word =>
    rw [yield, List.cons_append, List.cons_append, itemShape, word.kind_keyword]
    rfl
  | define directive =>
    rw [yield, List.cons_append, List.cons_append, itemShape, directive.kind_define]
    rfl
  | statement s =>
    by_cases hscalar : ∃ type vars, s = .declare (.scalar type) vars
    · obtain ⟨type, vars, rfl⟩ := hscalar
      have hparen : begins .leftParen (vars.yield ++ r).tail = false := by
        obtain ⟨⟨name, initial⟩, others, semicolon⟩ := vars
        cases initial with
        | some initial => exact begins_of_lacks (Lacks.of_cons (by rw [initial.1.kind_mark]; rfl))
        | none =>
          cases others with
          | cons other others =>
            exact begins_of_lacks (Lacks.of_cons (by rw [other.1.kind_mark]; rfl))
          | nil => exact begins_of_lacks (Lacks.of_cons (by rw [semicolon.kind_mark]; rfl))
      simp only [yield, StmtTree.yield, TypeTree.token, List.cons_append, itemShape,
        type.kind_scalar, hparen]
      rfl
    · obtain ⟨t, tokens, hyield, hkind⟩ :=
        StmtTree.head_not_scalar fun type vars heq => hscalar ⟨type, vars, heq⟩
      rw [Bool.and_eq_true] at hkind
      rw [yield, hyield, List.cons_append, itemShape]
      cases hkindEq : t.kind with
      | scalar type => simp [hkindEq, Kind.scalar?] at hkind
      | keyword k =>
        cases k with
        | classDef =>
          rw [hkindEq] at hkind
          cases hkind.1
        | _ => rfl
      | define =>
        rw [hkindEq] at hkind
        cases hkind.1
      | _ => rfl

/-- Two classes: an object behind the closing brace is a name, and no name is a semicolon. -/
private theorem semicolon_ne_declarators {semicolon : Punct .semicolon} {vars : DeclaratorsTree} :
    semicolon.token :: r ≠ vars.yield ++ r' := by
  intro h
  have hkind := vars.first.name.kind_ident
  rw [← (List.cons.inj h).1, semicolon.kind_mark] at hkind
  cases hkind

/-- The class in front of what follows its closing brace. -/
private theorem classHead_unique {word word' : Word .classDef} {name name' : Name}
    {opening opening' : Punct .leftBrace} {groups groups' : List FieldGroupTree}
    {closing closing' : Punct .rightBrace}
    (h : word.token :: name.token :: opening.token ::
        (groups.flatMap FieldGroupTree.yield ++ closing.token :: r) =
      word'.token :: name'.token :: opening'.token ::
        (groups'.flatMap FieldGroupTree.yield ++ closing'.token :: r')) :
    word = word' ∧ name = name' ∧ opening = opening' ∧ groups = groups' ∧ closing = closing' ∧
      r = r' := by
  obtain ⟨hword, h⟩ := List.cons.inj h
  obtain ⟨hname, h⟩ := List.cons.inj h
  obtain ⟨hopening, h⟩ := List.cons.inj h
  obtain ⟨rfl, rfl, rfl⟩ := fieldGroups_unique h
  exact ⟨Leaf.ext_token hword, Leaf.ext_token hname, Leaf.ext_token hopening, rfl, rfl, rfl⟩

namespace ItemTree

/-- Among the items of its production an item is fixed by the tokens it is in front of: where it can
be read and an item or the end of the text follows, no other can be read and be followed so. -/
def Determined (t : ItemTree) : Prop :=
  ∀ ⦃t' : ItemTree⦄ ⦃names later later' : Names⦄ ⦃a a' : Stmt⦄ ⦃r r' : List Token⦄,
    t.shape = t'.shape → t.reading names = some (a, later) → t'.reading names = some (a', later') →
      AtItem r → AtItem r' → t.yield ++ r = t'.yield ++ r' → t = t' ∧ r = r'

/-- A procedure ends at the closing brace of its body. -/
private theorem determined_procedure (type : Leaf Kind.scalar?) (name : Name)
    (opening : Punct .leftParen)
    (parameters : Option (ParameterTree × List (Punct .comma × ParameterTree)))
    (closing : Punct .rightParen) (begins : Punct .leftBrace) (body : StmtTree .statements)
    (ends : Punct .rightBrace) :
    (procedure type name opening parameters closing begins body ends).Determined := by
  intro t' names later later' a a' r r' hshape hread hread' hnext hnext' h
  cases t' with
  | procedure type' name' opening' parameters' closing' begins' body' ends' =>
    obtain ⟨ps, ordinal, declared, b, _, hps, hdeclare, hb, -⟩ := reading_procedure hread
    obtain ⟨ps', ordinal', declared', b', _, hps', hdeclare', hb', -⟩ := reading_procedure hread'
    simp only [yield, List.cons_append, List.append_assoc, List.nil_append,
      List.cons.injEq] at h
    obtain ⟨htype, hname, hopening, hparameters⟩ := h
    obtain rfl := Leaf.ext_token htype
    obtain rfl := Leaf.ext_token hname
    obtain rfl := Leaf.ext_token hopening
    obtain ⟨rfl, rfl, hbehind⟩ := ParameterTree.unique_all hparameters
    obtain rfl : ps = ps' := by simpa [hps] using hps'
    obtain ⟨rfl, rfl⟩ : ordinal = ordinal' ∧ declared = declared' := by
      simpa [hdeclare] using hdeclare'
    obtain ⟨hbegins, hbody⟩ := List.cons.inj hbehind
    obtain rfl := Leaf.ext_token hbegins
    have hends : ∀ (ends : Punct .rightBrace) (r : List Token),
        Heads (fun k => k.isMark [.rightBrace]) (ends.token :: r) :=
      fun ends r => Heads.of_cons (by rw [ends.kind_mark]; rfl)
    obtain ⟨rfl, hrest⟩ := StmtTree.unique hb hb' (hends ends r) (hends ends' r') hbody
    obtain ⟨htoken, rfl⟩ := List.cons.inj hrest
    obtain rfl := Leaf.ext_token htoken
    exact ⟨rfl, rfl⟩
  | _ => cases hshape

/-- A class without declarators is followed by a semicolon, which no declarator begins with. -/
private theorem determined_classDef (word : Word .classDef) (name : Name)
    (opening : Punct .leftBrace)
    (groups : List FieldGroupTree) (closing : Punct .rightBrace) (semicolon : Punct .semicolon) :
    (classDef word name opening groups closing semicolon).Determined := by
  intro t' names later later' a a' r r' hshape hread hread' hnext hnext' h
  cases t' with
  | classDef word' name' opening' groups' closing' semicolon' =>
    simp only [yield, List.cons_append, List.append_assoc, List.nil_append] at h
    obtain ⟨rfl, rfl, rfl, rfl, rfl, hbehind⟩ := classHead_unique h
    obtain ⟨htoken, rfl⟩ := List.cons.inj hbehind
    obtain rfl := Leaf.ext_token htoken
    exact ⟨rfl, rfl⟩
  | classDefWith word' name' opening' groups' closing' vars' =>
    simp only [yield, List.cons_append, List.append_assoc, List.nil_append] at h
    obtain ⟨-, -, -, -, -, hbehind⟩ := classHead_unique h
    exact absurd hbehind semicolon_ne_declarators
  | _ => cases hshape

/-- A class with declarators ends where these do. -/
private theorem determined_classDefWith (word : Word .classDef) (name : Name)
    (opening : Punct .leftBrace)
    (groups : List FieldGroupTree) (closing : Punct .rightBrace) (vars : DeclaratorsTree) :
    (classDefWith word name opening groups closing vars).Determined := by
  intro t' names later later' a a' r r' hshape hread hread' hnext hnext' h
  obtain ⟨fields, number, declared, ds, hfields, hdeclare, hds, -⟩ := reading_classDefWith hread
  cases t' with
  | classDef word' name' opening' groups' closing' semicolon' =>
    simp only [yield, List.cons_append, List.append_assoc, List.nil_append] at h
    obtain ⟨-, -, -, -, -, hbehind⟩ := classHead_unique h
    exact absurd hbehind.symm semicolon_ne_declarators
  | classDefWith word' name' opening' groups' closing' vars' =>
    obtain ⟨fields', number', declared', ds', hfields', hdeclare', hds', -⟩ :=
      reading_classDefWith hread'
    simp only [yield, List.cons_append, List.append_assoc] at h
    obtain ⟨rfl, rfl, rfl, rfl, rfl, hbehind⟩ := classHead_unique h
    obtain rfl : fields = fields' := by simpa [hfields] using hfields'
    obtain ⟨rfl, rfl⟩ : number = number' ∧ declared = declared' := by
      simpa [hdeclare] using hdeclare'
    obtain ⟨rfl, rfl⟩ := DeclaratorsTree.unique hds hds' hbehind
    exact ⟨rfl, rfl⟩
  | _ => cases hshape

/-- No item begins with a semicolon, so that one behind a constant belongs to it. -/
private theorem determined_define (directive : Leaf Kind.define?) (name : Name)
    (value : LiteralTree) (semicolon : Option (Punct .semicolon)) :
    (define directive name value semicolon).Determined := by
  intro t' names later later' a a' r r' hshape hread hread' hnext hnext' h
  cases t' with
  | define directive' name' value' semicolon' =>
    simp only [yield, List.cons_append, List.append_assoc, List.cons.injEq] at h
    obtain ⟨hdirective, hname, hvalue⟩ := h
    obtain rfl := Leaf.ext_token hdirective
    obtain rfl := Leaf.ext_token hname
    obtain ⟨rfl, hbehind⟩ := LiteralTree.unique hvalue
    have hlacks : ∀ {r : List Token}, AtItem r → Lacks (Kind.mark? .semicolon) r :=
      fun hr => hr.lacks (Kind.mark?_of_opensItem (by decide))
    cases semicolon with
    | none =>
      cases semicolon' with
      | none => exact ⟨rfl, hbehind⟩
      | some mark' =>
        obtain rfl : r = _ := hbehind
        exact absurd (hlacks hnext) (not_lacks_leaf mark')
    | some mark =>
      cases semicolon' with
      | none =>
        obtain rfl : _ = r' := hbehind
        exact absurd (hlacks hnext') (not_lacks_leaf mark)
      | some mark' =>
        obtain ⟨htoken, rfl⟩ := List.cons.inj hbehind
        obtain rfl := Leaf.ext_token htoken
        exact ⟨rfl, rfl⟩
  | _ => cases hshape

/-- A statement at top level is not followed by an `else`. -/
private theorem determined_statement (s : StmtTree .statement) : (statement s).Determined := by
  intro t' names later later' a a' r r' hshape hread hread' hnext hnext' h
  cases t' with
  | statement s' =>
    obtain ⟨rfl, rfl⟩ := StmtTree.unique hread hread'
      (fun _ => hnext.lacks Kind.otherwise_of_opensItem)
      (fun _ => hnext'.lacks Kind.otherwise_of_opensItem) h
    exact ⟨rfl, rfl⟩
  | _ => cases hshape

/-- Every item is fixed by the tokens it is in front of. -/
theorem determined (t : ItemTree) : t.Determined := by
  cases t with
  | procedure type name opening parameters closing begins body ends =>
    exact determined_procedure type name opening parameters closing begins body ends
  | classDef word name opening groups closing semicolon =>
    exact determined_classDef word name opening groups closing semicolon
  | classDefWith word name opening groups closing vars =>
    exact determined_classDefWith word name opening groups closing vars
  | define directive name value semicolon => exact determined_define directive name value semicolon
  | statement s => exact determined_statement s

/-- A readable item is determined by the tokens it is in front of. -/
theorem unique {t t' : ItemTree} {a a' : Stmt} (hread : t.reading names = some (a, later))
    (hread' : t'.reading names = some (a', later')) (hnext : AtItem r) (hnext' : AtItem r')
    (h : t.yield ++ r = t'.yield ++ r') : t = t' ∧ r = r' := by
  have hshape : t.shape = t'.shape := by
    rw [shape_eq (r := r), shape_eq (r := r'), h]
  exact t.determined hshape hread hread' hnext hnext' h

end ItemTree

/-! ### Programs -/

private theorem items_unique {items items' : List ItemTree} {as as' : List Stmt}
    (hread : readAll ItemTree.reading items names = some (as, later))
    (hread' : readAll ItemTree.reading items' names = some (as', later'))
    (h : items.flatMap ItemTree.yield = items'.flatMap ItemTree.yield) : items = items' := by
  induction items generalizing items' names as as' with
  | nil =>
    cases items' with
    | nil => rfl
    | cons item' items' =>
      rw [List.flatMap_cons] at h
      exact absurd h.symm (item'.heads.append _).ne_nil
  | cons item items ih =>
    cases items' with
    | nil =>
      rw [List.flatMap_cons] at h
      exact absurd h (item.heads.append _).ne_nil
    | cons item' items' =>
      obtain ⟨a, names₁, as, hfirst, hrest, rfl⟩ := readAll_cons_eq_some.mp hread
      obtain ⟨a', names₁', as', hfirst', hrest', rfl⟩ := readAll_cons_eq_some.mp hread'
      rw [List.flatMap_cons, List.flatMap_cons] at h
      obtain ⟨rfl, hbehind⟩ := ItemTree.unique hfirst hfirst' (atItem_items items)
        (atItem_items items') h
      obtain ⟨rfl, rfl⟩ : a = a' ∧ names₁ = names₁' := by simpa [hfirst] using hfirst'
      rw [ih hrest hrest' hbehind]

/-- Tokens have at most one derivation under given tables. -/
theorem Derivation.eq {tokens : List Token} (d d' : Derivation names tokens) : d = d' := by
  obtain ⟨items, as, later, hyields, hreads⟩ := d
  obtain ⟨items', as', later', hyields', hreads'⟩ := d'
  obtain rfl := items_unique hreads hreads' (hyields.trans hyields'.symm)
  obtain ⟨rfl, rfl⟩ : as = as' ∧ later = later' := by simpa [hreads] using hreads'
  rfl

end Grammar

end Litany
