import Litany.Proofs.Grammar.Completeness.Program
import Litany.Proofs.Grammar.Reaching.Expression

/-!
# Texts that reach a refused place

A text is read up to a place if the items in front are accepted, and the item with the place in it
is read up to it: a statement, or the body of a procedure. If the place is refused, so is the text,
and the refusal names the place and its line (`parse_of_reaches`).
-/

namespace Litany

namespace Grammar

open Parse

/-! ### Parts of statements -/

/-- An assignment or a chain is read up to a place. -/
inductive StmtExprReaches (spot : Spot) : List Token → Prop where
  | target {rest : List Token} (hvariable : spot.names.procedure? spot.place.root.value = none)
      (hwritten : spot.written = true) (mark : Leaf Kind.assignment?) :
      StmtExprReaches spot (spot.place.yield ++ mark.token :: rest)
  | value {tokens : List Token} (target : PlaceTree) {p : Place}
      (htarget : ExprTree.variableReading spot.names spot.scope target = some p)
      (hwritable : writable spot.names spot.scope p = true) (mark : Leaf Kind.assignment?)
      (h : ExprSort.chain.Reaches spot tokens) :
      StmtExprReaches spot (target.yield ++ mark.token :: tokens)
  | plain {tokens : List Token} (h : ExprSort.chain.Reaches spot tokens) :
      StmtExprReaches spot tokens

/-- A declared name with its initial value is read up to a place in that value. -/
inductive DeclaratorReaches (spot : Spot) : CellType → Names → List Token → Prop where
  | initial {names : Names} {tokens : List Token} (name : Name) {type : Scalar} {slot : Slot}
      (hdeclare : names.declare spot.scope ⟨name.lexeme, .scalar type, false⟩ =
        some (slot, spot.names)) (mark : Punct .equal) (h : ExprSort.chain.Reaches spot tokens) :
      DeclaratorReaches spot (.scalar type) names (name.token :: mark.token :: tokens)

/-- Declared names of one type are read up to a place. -/
inductive DeclaratorsReach (spot : Spot) (type : CellType) (names : Names) : List Token → Prop where
  | first {tokens : List Token} (h : DeclaratorReaches spot type names tokens) :
      DeclaratorsReach spot type names tokens
  | later {middle : Names} {tokens : List Token} (first : DeclaratorTree)
      (others : List (Punct .comma × DeclaratorTree)) {ds : List Declarator}
      (hfront : readAll (DeclaratorTree.reading spot.scope type) (first :: others.map (·.2)) names =
        some (ds, middle)) (comma : Punct .comma) (h : DeclaratorReaches spot type middle tokens) :
      DeclaratorsReach spot type names
        (first.yield ++ (yieldBehind DeclaratorTree.yield others ++ comma.token :: tokens))

section Parts

variable {spot : Spot} {tokens : List Token} {n l : Nat}

private theorem assignment_fails (h : ExprSort.chain.Reaches spot tokens) (hrefused : spot.Refused)
    (hdepth : tokens.length ≤ n) (target : Place) (op : Option Arithmetic) (line : Nat) :
    Parse.Fails (assignment (operand spot.scope n) target op line) ⟨tokens, l, spot.names⟩
      (.error spot.fault) := by
  cases h with
  | first h => exact (h.fails (n := n) hrefused hdepth).bind _
  | later first hfirst h =>
    simp only [List.length_append] at hdepth
    have hlinks := h.fails (l := l) (n := n) hrefused (by omega)
    exact .of_ok (first.parses hfirst (by omega) h.stops_links) (hlinks.many.bind _)

/-- A chain that begins with a variable is read as a place first. If this ends well, no assignment
stands behind it. -/
private theorem ExprSort.Reaches.place_first (h : ExprSort.chain.Reaches spot tokens)
    (hrefused : spot.Refused) {name : String}
    (hname : (tokens.head?.bind fun t => Kind.ident? t.kind) = some name)
    (hvariable : spot.names.procedure? name = none) :
    Parse.Fails (place spot.scope) ⟨tokens, l, spot.names⟩ (.error spot.fault) ∨
      ∃ found rest, place spot.scope ⟨tokens, l, spot.names⟩ = .ok found ⟨rest, l, spot.names⟩ ∧
        Lacks Kind.assignment? rest := by
  have hnotMark : ∀ {m : Mark} {t : Token} {ts : List Token}, t.kind = .mark m →
      ((t :: ts).head?.bind fun t => Kind.ident? t.kind) ≠ some name := by
    intro m t ts hkind
    rw [List.head?_cons, Option.bind_some, hkind]
    nofun
  cases h with
  | first h =>
    cases h with
    | negate mark | group mark => exact absurd hname (hnotMark mark.kind_mark)
    | @firstPosition _ leaf _ hprocedure | @laterPositions _ leaf _ hprocedure =>
      obtain rfl : leaf.value = name := by simpa [leaf.fits] using hname
      rw [hvariable] at hprocedure
      cases hprocedure
    | bumpBefore mark =>
      obtain ⟨m, -, hkind⟩ := Kind.exists_of_isMark (Kind.isMark_of_bump? mark.isSome)
      exact absurd hname (hnotMark hkind)
    | read _ hwritten hdot =>
      rcases hrefused.place (l := l) hdot with hfails | ⟨hwritten', -⟩
      · exact .inl hfails
      · rw [hwritten] at hwritten'
        cases hwritten'
    | bumpAfter _ _ mark =>
      have hmark := Kind.isMark_of_bump? mark.isSome
      rcases hrefused.place (l := l) (.of_cons (Kind.eq_none_of_isMark (by decide) hmark)) with
        hfails | ⟨-, p, hplace, -⟩
      · exact .inl hfails
      · exact .inr ⟨_, _, hplace, .of_cons (Kind.eq_none_of_isMark (by decide) hmark)⟩
  | @later tokens first e hfirst h =>
    have hfirstName : (first.yield.head?.bind fun t => Kind.ident? t.kind) = some name := by
      obtain ⟨t, others, hyield, -⟩ := first.heads_operand
      rw [hyield] at hname ⊢
      exact hname
    obtain ⟨tree, p, others, hyield, hread, hstops⟩ :=
      ExprTree.exists_place hfirst hfirstName hvariable
    obtain ⟨hdot, hassign⟩ := hstops tokens h.stops_links
    rw [hyield, List.append_assoc]
    exact .inr ⟨_, _, place_complete hread hdot, hassign⟩

theorem StmtExprReaches.heads (h : StmtExprReaches spot tokens) : Heads Kind.opensChain tokens := by
  cases h with
  | target => exact spot.place.heads.append _
  | value target => exact target.heads.append _
  | plain h => exact h.heads

theorem StmtExprReaches.fails (h : StmtExprReaches spot tokens) (hrefused : spot.Refused)
    (hdepth : tokens.length ≤ n) :
    Parse.Fails (statementExpr spot.scope (operand spot.scope n)) ⟨tokens, l, spot.names⟩
      (.error spot.fault) := by
  refine .of_ok (x := peek) rfl ?_
  cases h with
  | @target rest hvariable hwritten mark =>
    have hhead : (spot.place.yield ++ mark.token :: rest).head?.bind
        (fun t => Kind.ident? t.kind) = some spot.place.root.value := spot.place.root.fits
    have hdot : Kind.mark? .dot mark.token.kind = none :=
      Kind.eq_none_of_isMark (by decide) (Kind.isMark_of_assignment? mark.isSome)
    simp only [hhead]
    refine .of_ok (x := Parse.names) rfl ?_
    rw [if_neg (by simp [hvariable])]
    refine .of_ok (x := get) rfl ?_
    rcases hrefused.place (l := l) (.of_cons hdot) with hfails | ⟨-, p, hplace, hassignable⟩
    · exact hfails.bind _
    · exact .of_ok hplace (.of_ok (take?_leaf mark) ((hassignable _ rfl).bind _))
  | @value tokens target p htarget hwritable mark h =>
    obtain ⟨hvariable, hplace⟩ := ExprTree.variableReading_eq_some htarget
    have hhead : (target.yield ++ mark.token :: tokens).head?.bind
        (fun t => Kind.ident? t.kind) = some target.root.value := target.root.fits
    have hdot : Kind.mark? .dot mark.token.kind = none :=
      Kind.eq_none_of_isMark (by decide) (Kind.isMark_of_assignment? mark.isSome)
    simp only [List.length_append, List.length_cons] at hdepth
    simp only [hhead]
    refine .of_ok (x := Parse.names) rfl ?_
    rw [if_neg (by simp [hvariable])]
    refine .of_ok (x := get) rfl (.of_ok (place_complete hplace (.of_cons hdot)) ?_)
    refine .of_ok (take?_leaf mark) (.of_ok (assignable_complete hwritable) ?_)
    exact assignment_fails h hrefused (by omega) _ _ _
  | plain h =>
    have hrun : Parse.Fails (chain (operand spot.scope n)) ⟨tokens, l, spot.names⟩
        (.error spot.fault) := h.fails (n := n) hrefused hdepth
    cases hname : tokens.head?.bind fun t => Kind.ident? t.kind with
    | none => exact hrun
    | some name =>
      refine .of_ok (x := Parse.names) rfl ?_
      cases hprocedure : spot.names.procedure? name with
      | some ordinal => exact hrun
      | none =>
        rw [if_neg (by simp)]
        refine .of_ok (x := get) rfl ?_
        rcases h.place_first (l := l) hrefused hname hprocedure with
          hfails | ⟨found, rest, hplace, hassign⟩
        · exact hfails.bind _
        · refine .of_ok hplace (.of_ok (take?_lacks hassign) ?_)
          exact .of_ok (x := set _) rfl hrun

theorem DeclaratorReaches.fails {type : CellType} {names : Names}
    (h : DeclaratorReaches spot type names tokens) (hrefused : spot.Refused)
    (hdepth : tokens.length ≤ n) :
    Parse.Fails (declarator spot.scope (operand spot.scope n) type) ⟨tokens, l, names⟩
      (.error spot.fault) := by
  obtain ⟨name, hdeclare, mark, h⟩ := h
  simp only [List.length_cons] at hdepth
  refine .of_ok (ident_name name) (.of_ok (enter_of_eq_some hdeclare) ?_)
  exact .of_ok (take?_leaf mark) ((assignment_fails h hrefused (by omega) _ _ _).bind _)

theorem DeclaratorsReach.fails {type : CellType} {names : Names}
    (h : DeclaratorsReach spot type names tokens) (hrefused : spot.Refused)
    (hdepth : tokens.length ≤ n) :
    Parse.Fails (declarators spot.scope (operand spot.scope n) type) ⟨tokens, l, names⟩
      (.error spot.fault) := by
  cases h with
  | first h => exact (h.fails hrefused hdepth).bind _
  | @later middle tokens first others ds hfront comma h =>
    simp only [List.length_append, List.length_cons] at hdepth
    obtain ⟨d, names', ds', hfirst, hothers, rfl⟩ := readAll_cons_eq_some.mp hfront
    rw [readAll_map] at hothers
    have hends : Heads endsDeclarator
        (yieldBehind DeclaratorTree.yield others ++ comma.token :: tokens) := by
      cases others with
      | nil => exact stops_comma comma tokens
      | cons other others => exact stops_comma other.1 _
    have hdeclarator := (h.fails (l := l) (n := n) hrefused (by omega)).behind comma
    refine .of_ok (declarator_complete hfirst (by omega) hends) (.bind ?_ _)
    refine (stumbles_yieldBehind _ (Heads endsDeclarator) ?_ stops_comma hothers comma
      hdeclarator).many
    intro mark tree d names later rest hmem hread hends
    have hlength := length_lt_yieldBehind DeclaratorTree.yield hmem
    exact behind_punct mark (declarator_complete hread (by omega) hends)

end Parts

/-! ### Statements -/

/-- A phrase of statements is read up to a place. -/
inductive StmtSort.Reaches (spot : Spot) : StmtSort → Names → List Token → Prop where
  | declare {names : Names} {tokens : List Token} (type : TypeTree) {cell : CellType}
      (htype : type.reading names = some cell) (h : DeclaratorsReach spot cell names tokens) :
      Reaches spot .statement names (type.token :: tokens)
  | print {tokens : List Token} (template : Leaf Kind.quoted?)
      (front : List (Punct .comma × ExprTree .chain)) {es : List Expr}
      (hfront : (front.mapM fun a => a.2.reading spot.names spot.scope) = some es)
      (comma : Punct .comma) (h : ExprSort.chain.Reaches spot tokens) :
      Reaches spot .statement spot.names
        (template.token :: (yieldBehind ExprTree.yield front ++ comma.token :: tokens))
  | initial {tokens : List Token} (word : Word .loop) (opening : Punct .leftParen)
      (h : StmtExprReaches spot tokens) :
      Reaches spot .statement spot.names (word.token :: opening.token :: tokens)
  | test {tokens : List Token} (word : Word .loop) (opening : Punct .leftParen)
      {initial : Option StmtExprTree} {e : Option Expr}
      (hinitial : readOption (StmtExprTree.reading spot.names spot.scope) initial = some e)
      (first : Punct .semicolon) (h : ConditionReaches spot tokens) :
      Reaches spot .statement spot.names (word.token :: opening.token ::
        (StmtTree.yieldOption StmtExprTree.yield initial ++ first.token :: tokens))
  | step {tokens : List Token} (word : Word .loop) (opening : Punct .leftParen)
      {initial : Option StmtExprTree} {e : Option Expr}
      (hinitial : readOption (StmtExprTree.reading spot.names spot.scope) initial = some e)
      (first : Punct .semicolon) {test : Option ConditionTree} {c : Option Condition}
      (htest : readOption (ConditionTree.reading spot.names spot.scope) test = some c)
      (second : Punct .semicolon) (h : StmtExprReaches spot tokens) :
      Reaches spot .statement spot.names (word.token :: opening.token ::
        (StmtTree.yieldOption StmtExprTree.yield initial ++ first.token ::
          (StmtTree.yieldOption ConditionTree.yield test ++ second.token :: tokens)))
  | loop {names : Names} {tokens : List Token} (word : Word .loop) (opening : Punct .leftParen)
      {initial : Option StmtExprTree} {e : Option Expr}
      (hinitial : readOption (StmtExprTree.reading names spot.scope) initial = some e)
      (first : Punct .semicolon) {test : Option ConditionTree} {c : Option Condition}
      (htest : readOption (ConditionTree.reading names spot.scope) test = some c)
      (second : Punct .semicolon) {step : Option StmtExprTree} {e' : Option Expr}
      (hstep : readOption (StmtExprTree.reading names spot.scope) step = some e')
      (closing : Punct .rightParen) (h : Reaches spot .body names tokens) :
      Reaches spot .statement names (word.token :: opening.token ::
        (StmtTree.yieldOption StmtExprTree.yield initial ++ first.token ::
          (StmtTree.yieldOption ConditionTree.yield test ++ second.token ::
            (StmtTree.yieldOption StmtExprTree.yield step ++ closing.token :: tokens))))
  | condition {tokens : List Token} (word : Word .branch) (opening : Punct .leftParen)
      (h : ConditionReaches spot tokens) :
      Reaches spot .statement spot.names (word.token :: opening.token :: tokens)
  | yes {names : Names} {tokens : List Token} (word : Word .branch) (opening : Punct .leftParen)
      (test : ConditionTree) {c : Condition} (htest : test.reading names spot.scope = some c)
      (closing : Punct .rightParen) (h : Reaches spot .body names tokens) :
      Reaches spot .statement names
        (word.token :: opening.token :: (test.yield ++ closing.token :: tokens))
  | no {names middle : Names} {tokens : List Token} (word : Word .branch)
      (opening : Punct .leftParen) (test : ConditionTree) {c : Condition}
      (htest : test.reading names spot.scope = some c) (closing : Punct .rightParen)
      (yes : StmtTree .body) {b : List Stmt}
      (hyes : yes.reading spot.scope names = some (b, middle))
      (hclosed : yes.dangles = false) (otherwise : Word .otherwise)
      (h : Reaches spot .body middle tokens) :
      Reaches spot .statement names (word.token :: opening.token ::
        (test.yield ++ closing.token :: (yes.yield ++ otherwise.token :: tokens)))
  | giveBack {tokens : List Token} (word : Word .giveBack) (hscope : spot.scope ≠ .top)
      (h : ExprSort.chain.Reaches spot tokens) :
      Reaches spot .statement spot.names (word.token :: tokens)
  | expr {tokens : List Token}
      (hopens : (tokens.head?.any fun t => opensExpression spot.names t.kind) = true)
      (h : StmtExprReaches spot tokens) : Reaches spot .statement spot.names tokens
  | single {names : Names} {tokens : List Token} (h : Reaches spot .statement names tokens) :
      Reaches spot .body names tokens
  | block {names : Names} {tokens : List Token} (opening : Punct .leftBrace)
      (h : Reaches spot .statements names tokens) :
      Reaches spot .body names (opening.token :: tokens)
  | first {names : Names} {tokens : List Token} (h : Reaches spot .statement names tokens) :
      Reaches spot .statements names tokens
  | later {names middle : Names} {tokens : List Token} (first : StmtTree .statement) {a : Stmt}
      (hfirst : first.reading spot.scope names = some (a, middle))
      (h : Reaches spot .statements middle tokens) :
      Reaches spot .statements names (first.yield ++ tokens)

section Statements

variable {spot : Spot} {k : StmtSort} {names : Names} {tokens : List Token} {n l : Nat}

/-- The kinds that a phrase begins with, where it is not empty. -/
def StmtSort.opens : StmtSort → Kind → Bool
  | .statement => Kind.opensStatement
  | .body => fun k => k.opensStatement || k.isMark [.leftBrace]
  | .statements => Kind.opensStatement

theorem StmtSort.Reaches.heads (h : k.Reaches spot names tokens) : Heads k.opens tokens := by
  induction h with
  | declare type htype h =>
    cases type with
    | scalar type => exact Heads.of_leaf type fun k hk => by simp [opens, Kind.opensStatement, hk]
    | object name =>
      exact Heads.of_leaf name fun k hk => by
        simp [opens, Kind.opensStatement, Kind.opensChain, hk]
  | print template => exact Heads.of_cons (by rw [template.kind_quoted]; rfl)
  | initial word | test word | step word | loop word | condition word | yes word | no word
  | giveBack word => exact Heads.of_cons (by rw [word.kind_keyword]; rfl)
  | expr hopens h => exact h.heads.imp Kind.opensStatement_of_opensChain
  | single h ih => exact ih.imp fun k hk => by simp only [opens] at hk; simp [opens, hk]
  | block opening => exact Heads.of_cons (by rw [opening.kind_mark]; rfl)
  | first h ih => exact ih
  | later first hfirst h => exact first.heads_statement.append _

/-- The parser of a sort, given that of the nested statements, fails as said. -/
def StmtSort.Fails (statement : Parse Stmt) (f : ParseFailure) : StmtSort → Cursor → Prop
  | .statement, s => Parse.Fails statement s f
  | .body, s => Parse.Fails (Grammar.body statement) s f
  | .statements, s => Stumbles (unlessAt .rightBrace statement) f s

/-- Between a type and a name with an initial value no parenthesis opens. -/
theorem DeclaratorsReach.procedureHead {type : CellType}
    (h : DeclaratorsReach spot type names tokens) (t : Token) :
    procedureHead ⟨t :: tokens, l, names⟩ = .ok false ⟨t :: tokens, l, names⟩ := by
  cases h with
  | first h =>
    obtain ⟨name, hdeclare, mark, h⟩ := h
    exact procedureHead_eq_false mark.kind_mark (by decide)
  | later first others hfront comma h =>
    obtain ⟨name, initial⟩ := first
    cases initial with
    | some initial => exact procedureHead_eq_false initial.1.kind_mark (by decide)
    | none =>
      cases others with
      | cons other others => exact procedureHead_eq_false other.1.kind_mark (by decide)
      | nil => exact procedureHead_eq_false comma.kind_mark (by decide)

private theorem print_fails {front : List (Punct .comma × ExprTree .chain)} {es : List Expr}
    (hfront : (front.mapM fun a => a.2.reading spot.names spot.scope) = some es)
    (comma : Punct .comma) (h : ExprSort.chain.Reaches spot tokens) (hrefused : spot.Refused)
    (hdepth : (yieldBehind ExprTree.yield front).length + tokens.length ≤ n) (template : String)
    (line : Nat) :
    Parse.Fails (print (operand spot.scope n) template line)
      ⟨yieldBehind ExprTree.yield front ++ comma.token :: tokens, l, spot.names⟩
      (.error spot.fault) := by
  have hends : ∀ (mark : Punct .comma) (tokens : List Token),
      Heads Kind.endsChain (mark.token :: tokens) := fun mark tokens =>
    Heads.of_cons (by rw [mark.kind_mark]; rfl)
  have hchain : Parse.Fails (chain (operand spot.scope n)) ⟨tokens, l, spot.names⟩
      (.error spot.fault) := h.fails (n := n) hrefused (by omega)
  refine .bind ?_ _
  refine (stumbles_yieldBehind _ (Heads Kind.endsChain) ?_ hends
    (readAll_of_mapM (fun names (a : Punct .comma × ExprTree .chain) =>
      a.2.reading names spot.scope) hfront) comma (hchain.behind comma)).many
  intro mark a e names later rest hmem hread hends
  obtain ⟨e', he, hsome⟩ := Option.map_eq_some_iff.mp hread
  cases hsome
  have hlength := length_lt_yieldBehind ExprTree.yield hmem
  exact behind_punct mark (a.parses (n := n) he (by omega) hends)

variable (spot l) in
/-- A text is refused at the place when it is read as a phrase of the given sort, given enough depth
for the nesting. -/
def StmtSort.Refuses (k : StmtSort) (names : Names) (tokens : List Token) : Prop :=
  ∀ ⦃n : Nat⦄, tokens.length ≤ n →
    k.Fails (Grammar.statement spot.scope n) (.error spot.fault) ⟨tokens, l, names⟩

/-- A declaration is refused at a place in its declarators. -/
private theorem refuses_declare (type : TypeTree) {cell : CellType}
    (htype : type.reading names = some cell) (h : DeclaratorsReach spot cell names tokens)
    (hrefused : spot.Refused) : StmtSort.statement.Refuses spot l names (type.token :: tokens) := by
  intro n hdepth
  simp only [List.length_cons] at hdepth
  obtain _ | n := n
  · omega
  · have hvars := h.fails (l := l) (n := n + 1) hrefused (by omega)
    cases type with
    | scalar type =>
      obtain rfl := Option.some.inj htype
      exact .of_eq (statement_scalar type (h.procedureHead type.token)) (hvars.bind _)
    | object name =>
      obtain ⟨number, hclass, rfl⟩ := Option.map_eq_some_iff.mp htype
      exact .of_eq (statement_object name hclass) (hvars.bind _)

/-- A print is refused at a place in an argument, the arguments in front being read. -/
private theorem refuses_print (template : Leaf Kind.quoted?)
    (front : List (Punct .comma × ExprTree .chain)) {es : List Expr}
    (hfront : (front.mapM fun a => a.2.reading spot.names spot.scope) = some es)
    (comma : Punct .comma) (h : ExprSort.chain.Reaches spot tokens) (hrefused : spot.Refused) :
    StmtSort.statement.Refuses spot l spot.names
      (template.token :: (yieldBehind ExprTree.yield front ++ comma.token :: tokens)) := by
  intro n hdepth
  simp only [List.length_append, List.length_cons] at hdepth
  obtain _ | n := n
  · omega
  · exact .of_eq (statement_print template) (print_fails hfront comma h hrefused (by omega) _ _)

/-- A loop is refused at a place in the first part of its head. -/
private theorem refuses_initial (word : Word .loop) (opening : Punct .leftParen)
    (h : StmtExprReaches spot tokens) (hrefused : spot.Refused) :
    StmtSort.statement.Refuses spot l spot.names (word.token :: opening.token :: tokens) := by
  intro n hdepth
  simp only [List.length_cons] at hdepth
  obtain _ | n := n
  · omega
  · have hlacks := lacks_of_opensStatement (m := .semicolon) (by decide)
      (h.heads.imp Kind.opensStatement_of_opensChain)
    have hinitial := (h.fails (l := l) (n := n + 1) hrefused (by omega)).unlessAt hlacks
    exact .of_eq (statement_loop word) (.of_ok (expect_punct opening) (hinitial.bind _))

/-- A loop is refused at a place in its condition, the part in front being read. -/
private theorem refuses_test (word : Word .loop) (opening : Punct .leftParen)
    {initial : Option StmtExprTree} {e : Option Expr}
    (hinitial : readOption (StmtExprTree.reading spot.names spot.scope) initial = some e)
    (first : Punct .semicolon) (h : ConditionReaches spot tokens) (hrefused : spot.Refused) :
    StmtSort.statement.Refuses spot l spot.names (word.token :: opening.token ::
      (StmtTree.yieldOption StmtExprTree.yield initial ++ first.token :: tokens)) := by
  intro n hdepth
  simp only [List.length_append, List.length_cons] at hdepth
  obtain _ | n := n
  · omega
  · have hlacks := h.heads.lacks (Kind.mark?_of_opensTerm (m := .semicolon) (by decide))
    have htest := (h.fails (l := l) (n := n + 1) hrefused (by omega)).unlessAt hlacks
    refine .of_eq (statement_loop word) (.of_ok (expect_punct opening) ?_)
    refine .of_ok (loopExpr_complete (.inl rfl) first hinitial (by omega)) ?_
    exact .of_ok (expect_punct first) (htest.bind _)

/-- A loop is refused at a place in the last part of its head, the parts in front being read. -/
private theorem refuses_step (word : Word .loop) (opening : Punct .leftParen)
    {initial : Option StmtExprTree} {e : Option Expr}
    (hinitial : readOption (StmtExprTree.reading spot.names spot.scope) initial = some e)
    (first : Punct .semicolon) {test : Option ConditionTree} {c : Option Condition}
    (htest : readOption (ConditionTree.reading spot.names spot.scope) test = some c)
    (second : Punct .semicolon) (h : StmtExprReaches spot tokens) (hrefused : spot.Refused) :
    StmtSort.statement.Refuses spot l spot.names (word.token :: opening.token ::
      (StmtTree.yieldOption StmtExprTree.yield initial ++ first.token ::
        (StmtTree.yieldOption ConditionTree.yield test ++ second.token :: tokens))) := by
  intro n hdepth
  simp only [List.length_append, List.length_cons] at hdepth
  obtain _ | n := n
  · omega
  · have hlacks := lacks_of_opensStatement (m := .rightParen) (by decide)
      (h.heads.imp Kind.opensStatement_of_opensChain)
    have hstep := (h.fails (l := l) (n := n + 1) hrefused (by omega)).unlessAt hlacks
    refine .of_eq (statement_loop word) (.of_ok (expect_punct opening) ?_)
    refine .of_ok (loopExpr_complete (.inl rfl) first hinitial (by omega)) ?_
    refine .of_ok (expect_punct first) (.of_ok (loopTest_complete second htest (by omega)) ?_)
    exact .of_ok (expect_punct second) (hstep.bind _)

/-- A loop with a readable head is refused where its body is. -/
private theorem refuses_loop (word : Word .loop) (opening : Punct .leftParen)
    {initial : Option StmtExprTree} {e : Option Expr}
    (hinitial : readOption (StmtExprTree.reading names spot.scope) initial = some e)
    (first : Punct .semicolon) {test : Option ConditionTree} {c : Option Condition}
    (htest : readOption (ConditionTree.reading names spot.scope) test = some c)
    (second : Punct .semicolon) {step : Option StmtExprTree} {e' : Option Expr}
    (hstep : readOption (StmtExprTree.reading names spot.scope) step = some e')
    (closing : Punct .rightParen) (ih : StmtSort.body.Refuses spot l names tokens) :
    StmtSort.statement.Refuses spot l names (word.token :: opening.token ::
      (StmtTree.yieldOption StmtExprTree.yield initial ++ first.token ::
        (StmtTree.yieldOption ConditionTree.yield test ++ second.token ::
          (StmtTree.yieldOption StmtExprTree.yield step ++ closing.token :: tokens)))) := by
  intro n hdepth
  simp only [List.length_append, List.length_cons] at hdepth
  obtain _ | n := n
  · omega
  · have hbody := ih (n := n) (by omega)
    refine .of_eq (statement_loop word) (.of_ok (expect_punct opening) ?_)
    refine .of_ok (loopExpr_complete (.inl rfl) first hinitial (by omega)) ?_
    refine .of_ok (expect_punct first) (.of_ok (loopTest_complete second htest (by omega)) ?_)
    refine .of_ok (expect_punct second) ?_
    refine .of_ok (loopExpr_complete (.inr rfl) closing hstep (by omega)) ?_
    exact .of_ok (expect_punct closing) (hbody.bind _)

/-- A branch is refused at a place in its condition. -/
private theorem refuses_condition (word : Word .branch) (opening : Punct .leftParen)
    (h : ConditionReaches spot tokens) (hrefused : spot.Refused) :
    StmtSort.statement.Refuses spot l spot.names (word.token :: opening.token :: tokens) := by
  intro n hdepth
  simp only [List.length_cons] at hdepth
  obtain _ | n := n
  · omega
  · have htest := h.fails (l := l) (n := n + 1) hrefused (by omega)
    exact .of_eq (statement_branch word) (.of_ok (expect_punct opening) (htest.bind _))

/-- A branch with a readable condition is refused where its first body is. -/
private theorem refuses_yes (word : Word .branch) (opening : Punct .leftParen)
    (test : ConditionTree) {c : Condition} (htest : test.reading names spot.scope = some c)
    (closing : Punct .rightParen) (ih : StmtSort.body.Refuses spot l names tokens) :
    StmtSort.statement.Refuses spot l names
      (word.token :: opening.token :: (test.yield ++ closing.token :: tokens)) := by
  intro n hdepth
  simp only [List.length_append, List.length_cons] at hdepth
  obtain _ | n := n
  · omega
  · have hbody := ih (n := n) (by omega)
    refine .of_eq (statement_branch word) (.of_ok (expect_punct opening) ?_)
    refine .of_ok (condition_complete htest (by omega)
      (endsCondition_mark (.inr rfl) closing _)) ?_
    exact .of_ok (expect_punct closing) (hbody.bind _)

/-- A branch is refused where its second body is, the first being read. -/
private theorem refuses_no {middle : Names} (word : Word .branch)
    (opening : Punct .leftParen) (test : ConditionTree) {c : Condition}
    (htest : test.reading names spot.scope = some c) (closing : Punct .rightParen)
    (yes : StmtTree .body) {b : List Stmt} (hyes : yes.reading spot.scope names = some (b, middle))
    (hclosed : yes.dangles = false) (otherwise : Word .otherwise)
    (ih : StmtSort.body.Refuses spot l middle tokens) :
    StmtSort.statement.Refuses spot l names (word.token :: opening.token ::
      (test.yield ++ closing.token :: (yes.yield ++ otherwise.token :: tokens))) := by
  intro n hdepth
  simp only [List.length_append, List.length_cons] at hdepth
  obtain _ | n := n
  · omega
  · have hbody := ih (n := n) (by omega)
    have hstops : ∀ rest, yes.Stops rest := fun rest hopen => by
      rw [hclosed] at hopen
      cases hopen
    refine .of_eq (statement_branch word) (.of_ok (expect_punct opening) ?_)
    refine .of_ok (condition_complete htest (by omega)
      (endsCondition_mark (.inr rfl) closing _)) ?_
    refine .of_ok (expect_punct closing) ?_
    refine .of_ok (yes.parses hyes (by omega) (hstops _)) ?_
    exact .of_ok (take?_leaf otherwise) (hbody.bind _)

/-- A `return` is refused at a place in its value. -/
private theorem refuses_giveBack (word : Word .giveBack) (hscope : spot.scope ≠ .top)
    (h : ExprSort.chain.Reaches spot tokens) (hrefused : spot.Refused) :
    StmtSort.statement.Refuses spot l spot.names (word.token :: tokens) := by
  intro n hdepth
  simp only [List.length_cons] at hdepth
  obtain _ | n := n
  · omega
  · have hlacks := lacks_of_opensStatement (m := .semicolon) (by decide)
      (h.heads.imp Kind.opensStatement_of_opensChain)
    have hvalue : Parse.Fails (chain (operand spot.scope (n + 1))) ⟨_, l, spot.names⟩
        (.error spot.fault) := h.fails (n := n + 1) hrefused (by omega)
    exact .of_eq (statement_giveBack word hscope) ((hvalue.unlessAt hlacks).bind _)

/-- An expression statement is refused at a place in it. -/
private theorem refuses_expr
    (hopens : (tokens.head?.any fun t => opensExpression spot.names t.kind) = true)
    (h : StmtExprReaches spot tokens) (hrefused : spot.Refused) :
    StmtSort.statement.Refuses spot l spot.names tokens := by
  intro n hdepth
  obtain ⟨t, rest, rfl, hchain⟩ := h.heads
  obtain _ | n := n
  · simp at hdepth
  · exact .of_eq (statement_expr hchain hopens) ((h.fails (n := n + 1) hrefused hdepth).bind _)

/-- A body that is a single statement is refused where the statement is. -/
private theorem refuses_single (h : StmtSort.statement.Reaches spot names tokens)
    (ih : StmtSort.statement.Refuses spot l names tokens) :
    StmtSort.body.Refuses spot l names tokens := by
  intro n hdepth
  have hlacks := lacks_of_opensStatement (m := .leftBrace) (by decide) h.heads
  exact .of_ok (sees_lacks hlacks) ((ih hdepth).bind _)

/-- A body in braces is refused where its statements are. -/
private theorem refuses_block (opening : Punct .leftBrace)
    (ih : StmtSort.statements.Refuses spot l names tokens) :
    StmtSort.body.Refuses spot l names (opening.token :: tokens) := by
  intro n hdepth
  simp only [List.length_cons] at hdepth
  have hbody := ih (n := n) (by omega)
  exact .of_ok (sees_punct opening) (.of_ok (expect_punct opening) (hbody.many.bind _))

/-- A row of statements is refused where its first statement is. -/
private theorem refuses_first (h : StmtSort.statement.Reaches spot names tokens)
    (ih : StmtSort.statement.Refuses spot l names tokens) :
    StmtSort.statements.Refuses spot l names tokens := by
  intro n hdepth
  have hlacks := lacks_of_opensStatement (m := .rightBrace) (by decide) h.heads
  exact .here ((ih hdepth).unlessAt hlacks)

/-- A row of statements is refused where one behind its first is, the first being read. -/
private theorem refuses_later {middle : Names} (first : StmtTree .statement) {a : Stmt}
    (hfirst : first.reading spot.scope names = some (a, middle))
    (h : StmtSort.statements.Reaches spot middle tokens)
    (ih : StmtSort.statements.Refuses spot l middle tokens) :
    StmtSort.statements.Refuses spot l names (first.yield ++ tokens) := by
  intro n hdepth
  simp only [List.length_append] at hdepth
  have hotherwise : first.Stops tokens := fun _ =>
    (h.heads.imp Kind.opensItem_of_opensStatement).lacks Kind.otherwise_of_opensItem
  have hbrace := lacks_of_opensStatement (m := .rightBrace) (by decide)
    (first.heads_statement.append tokens)
  have hstatement := first.parses (l := l) (n := n) hfirst (by omega) hotherwise
  refine .item (unlessAt_lacks hbrace hstatement) ?_ (ih (n := n) (by omega))
  have hpos := first.heads_statement.length_pos
  simp only [List.length_append]
  omega

/-- A phrase that reaches a refused place is refused. -/
private theorem StmtSort.Reaches.refuses (h : k.Reaches spot names tokens)
    (hrefused : spot.Refused) : k.Refuses spot l names tokens := by
  induction h with
  | declare type htype h => exact refuses_declare type htype h hrefused
  | print template front hfront comma h =>
    exact refuses_print template front hfront comma h hrefused
  | initial word opening h => exact refuses_initial word opening h hrefused
  | test word opening hinitial first h => exact refuses_test word opening hinitial first h hrefused
  | step word opening hinitial first htest second h =>
    exact refuses_step word opening hinitial first htest second h hrefused
  | loop word opening hinitial first htest second hstep closing h ih =>
    exact refuses_loop word opening hinitial first htest second hstep closing ih
  | condition word opening h => exact refuses_condition word opening h hrefused
  | yes word opening test htest closing h ih => exact refuses_yes word opening test htest closing ih
  | no word opening test htest closing yes hyes hclosed otherwise h ih =>
    exact refuses_no word opening test htest closing yes hyes hclosed otherwise ih
  | giveBack word hscope h => exact refuses_giveBack word hscope h hrefused
  | expr hopens h => exact refuses_expr hopens h hrefused
  | single h ih => exact refuses_single h ih
  | block opening h ih => exact refuses_block opening ih
  | first h ih => exact refuses_first h ih
  | later first hfirst h ih => exact refuses_later first hfirst h ih

/-- A phrase that reaches a refused place is refused, given enough depth for the nesting. -/
theorem StmtSort.Reaches.fails (h : k.Reaches spot names tokens) (hrefused : spot.Refused)
    (hdepth : tokens.length ≤ n) :
    k.Fails (Grammar.statement spot.scope n) (.error spot.fault) ⟨tokens, l, names⟩ :=
  h.refuses hrefused hdepth

end Statements

/-! ### Programs -/

/-- An item is read up to a place: in the body of a procedure, or in a statement. -/
inductive ItemReaches (spot : Spot) (names : Names) : List Token → Prop where
  | procedure {opened : Names} {tokens : List Token} (type : Leaf Kind.scalar?) (name : Name)
      (opening : Punct .leftParen)
      (parameters : Option (ParameterTree × List (Punct .comma × ParameterTree)))
      (closing : Punct .rightParen) (begins : Punct .leftBrace) {ps : List Parameter}
      {ordinal : Nat} (hparameters : ParameterTree.readingAll parameters = some ps)
      (hdeclare : names.declareProcedure ⟨name.lexeme, type.value, ps, []⟩ =
        some (ordinal, opened)) (hscope : spot.scope = .procedure ordinal)
      (h : StmtSort.statements.Reaches spot opened tokens) :
      ItemReaches spot names (type.token :: name.token :: opening.token ::
        (ParameterTree.yieldAll parameters ++ closing.token :: begins.token :: tokens))
  | statement {tokens : List Token} (hscope : spot.scope = .top)
      (h : StmtSort.statement.Reaches spot names tokens) : ItemReaches spot names tokens

/-- A text is read up to a place, the items in front of it being accepted. -/
def ProgramReaches (spot : Spot) (names : Names) (tokens : List Token) : Prop :=
  ∃ front statements middle rest, readAll ItemTree.reading front names = some (statements, middle) ∧
    tokens = front.flatMap ItemTree.yield ++ rest ∧ ItemReaches spot middle rest

section Programs

variable {spot : Spot} {names : Names} {tokens : List Token} {n l : Nat}

/-- A statement at top level is read as one. -/
private theorem topLevel_of_reaches (h : StmtSort.statement.Reaches spot names tokens) :
    topLevel n ⟨tokens, l, names⟩ = statement .top n ⟨tokens, l, names⟩ := by
  cases h with
  | declare type htype h =>
    cases type with
    | scalar type =>
      refine (topLevel_scalar type (h.procedureHead type.token)).trans ?_
      rw [if_neg (by simp)]
      rfl
    | object name =>
      exact topLevel_statement (by rw [TypeTree.token, name.kind_ident]; rfl)
        (by rw [TypeTree.token, name.kind_ident]; rfl)
  | print template =>
    exact topLevel_statement (by rw [template.kind_quoted]; rfl) (by rw [template.kind_quoted]; rfl)
  | initial word | test word | step word | loop word | condition word | yes word | no word
  | giveBack word =>
    exact topLevel_statement (by rw [word.kind_keyword]; rfl) (by rw [word.kind_keyword]; rfl)
  | expr hopens h =>
    obtain ⟨t, rest, rfl, hchain⟩ := h.heads
    refine topLevel_statement (Kind.opensStatement_of_opensChain _ hchain) ?_
    cases hkind : t.kind with
    | scalar type =>
      rw [hkind] at hchain
      cases hchain
    | _ => rfl

theorem ItemReaches.heads (h : ItemReaches spot names tokens) : Heads Kind.opensItem tokens := by
  cases h with
  | procedure type =>
    exact Heads.of_leaf type fun k hk => by simp [Kind.opensItem, Kind.opensStatement, hk]
  | statement hscope h => exact h.heads.imp Kind.opensItem_of_opensStatement

theorem ItemReaches.fails (h : ItemReaches spot names tokens) (hrefused : spot.Refused)
    (hdepth : tokens.length ≤ n) :
    Parse.Fails (item n) ⟨tokens, l, names⟩ (.error spot.fault) := by
  have htop : Parse.Fails (topLevel n) ⟨tokens, l, names⟩ (.error spot.fault) := by
    cases h with
    | procedure type name opening parameters closing begins hparameters hdeclare hscope h =>
      simp only [List.length_append, List.length_cons] at hdepth
      have hhead : ∀ tokens, procedureHead
          ⟨type.token :: name.token :: opening.token :: tokens, l, names⟩ =
            .ok true ⟨type.token :: name.token :: opening.token :: tokens, l, names⟩ := by
        intro tokens
        simp [procedureHead, name.fits, opening.fits]
      have hbody := h.fails (l := l) (n := n) hrefused (by omega)
      rw [hscope] at hbody
      refine .of_eq (topLevel_scalar type (hhead _)) ?_
      rw [if_pos rfl]
      refine .of_ok (take_leaf type) (.of_ok (ident_name name) ?_)
      refine .of_ok (expect_punct opening) (.of_ok (parameters_complete closing hparameters) ?_)
      refine .of_ok (enter_of_eq_some hdeclare) (.bind ?_ _)
      exact .of_ok (expect_punct begins) (hbody.many.bind _)
    | statement hscope h =>
      have hstatement := h.fails (l := l) (n := n) hrefused hdepth
      rw [hscope] at hstatement
      exact .of_eq (topLevel_of_reaches h) hstatement
  obtain ⟨t, rest, rfl, -⟩ := h.heads
  exact .of_ok (x := peek) rfl (htop.bind _)

/-- Items that are accepted, in front of one that is refused. -/
private theorem stumbles_items {front : List ItemTree} {statements : List Stmt} {middle : Names}
    {f : ParseFailure} (hread : readAll ItemTree.reading front names = some (statements, middle))
    (hdepth : (front.flatMap ItemTree.yield).length ≤ n) (hopens : Heads Kind.opensItem tokens)
    (hfails : Parse.Fails (item n) ⟨tokens, l, middle⟩ f) :
    Stumbles (item n) f ⟨front.flatMap ItemTree.yield ++ tokens, l, names⟩ := by
  induction front generalizing names statements with
  | nil =>
    obtain ⟨-, rfl⟩ := Prod.mk.inj (Option.some.inj hread)
    exact .here hfails
  | cons tree front ih =>
    obtain ⟨a, names', as, hfirst, hrest, rfl⟩ := readAll_cons_eq_some.mp hread
    rw [List.flatMap_cons, List.length_append] at hdepth
    have hpos := tree.heads.length_pos
    have hnext : AtItem (front.flatMap ItemTree.yield ++ tokens) := by
      rcases atItem_items front with hnil | hheads
      · rw [hnil]
        exact .inr hopens
      · exact .inr (hheads.append tokens)
    rw [List.flatMap_cons, List.append_assoc]
    refine .item (tree.item_complete hfirst (by omega) hnext) ?_ (ih hrest (by omega))
    simp only [List.length_append]
    omega

/-- A text that reaches a refused place is refused, and the place is named. -/
theorem parse_of_reaches {stream : Stream} (h : ProgramReaches spot names stream.tokens)
    (hrefused : spot.Refused) : (parse names stream).1 = .error (.error spot.fault) := by
  obtain ⟨front, statements, middle, rest, hread, htokens, hitem⟩ := h
  have hfront : (front.flatMap ItemTree.yield).length ≤ stream.tokens.length := by
    simp [htokens]
  have hrest : rest.length ≤ stream.tokens.length := by
    simp [htokens]
  have hstumbles := stumbles_items (l := stream.endLine) hread hfront hitem.heads
    (hitem.fails hrefused hrest)
  rw [← htokens] at hstumbles
  obtain ⟨s', hprogram⟩ : Parse.Fails program ⟨stream.tokens, stream.endLine, names⟩
      (.error spot.fault) := .of_ok (x := get) rfl hstumbles.many
  rw [parse, EStateM.run, hprogram]

end Programs

end Grammar

end Litany
