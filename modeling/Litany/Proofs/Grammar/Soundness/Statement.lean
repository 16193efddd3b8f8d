import Litany.Proofs.Grammar.Soundness.Expression

/-!
# Parsed statements have derivations

Every production of a statement that succeeds has read the yield of a tree of its sort, answers the
reading of that tree and leaves the tables behind it. When the tree ends in an open branch, the
next token is no `else`: the innermost branch has taken it. This is why an `else` always belongs
to the nearest branch.
-/

namespace Litany

namespace Grammar

open Parse

variable {s s' : Cursor} {scope : Scope}

section Nested

variable {operand : Parse Expr}
  (hop : ∀ {s s' : Cursor} {e : Expr}, operand s = .ok e s' → ReadsExpr scope .operand s e s')

include hop

/-! ### Parts of statements -/

/-- What is read as an assignment or a chain is one: the place in front of an assignment is its
target, and where no assignment follows, the chain has been read from that place on. -/
private theorem statementExpr_sound {e : Expr} (h : statementExpr scope operand s = .ok e s') :
    ∃ tree : StmtExprTree, s.Past tree.yield s' ∧ s'.names = s.names ∧
      tree.reading s.names scope = some e := by
  have hplain : ∀ {e s'}, chain operand s = .ok e s' → ∃ tree : StmtExprTree,
      s.Past tree.yield s' ∧ s'.names = s.names ∧ tree.reading s.names scope = some e := by
    intro e s' hchain
    obtain ⟨tree, htree, htreeNames, htreeReading⟩ := chain_sound hop hchain
    exact ⟨.plain tree, htree, htreeNames, htreeReading⟩
  rw [statementExpr, peek_bind] at h
  cases hname : s.rest.head?.bind fun t => Kind.ident? t.kind with
  | none =>
    simp only [hname] at h
    exact hplain h
  | some name =>
    simp only [hname, names_bind] at h
    split at h
    · exact hplain h
    · rename_i hvariable
      rw [get_bind] at h
      obtain ⟨⟨p, line⟩, s₁, hplace, h⟩ := bind_eq_ok.mp h
      obtain ⟨r, s₂, htake, h⟩ := bind_eq_ok.mp h
      cases r with
      | none => exact hplain h
      | some r =>
        obtain ⟨target, htarget, htargetNames, htargetReading, rfl⟩ := place_sound hplace
        obtain ⟨mark, rfl, hmark, hmarkNames⟩ := take?_eq_some htake
        obtain ⟨_, s₃, hassignable, h⟩ := bind_eq_ok.mp h
        obtain ⟨rfl, hwritable⟩ := assignable_eq_ok hassignable
        obtain ⟨value, hvalue, hvalueNames, hvalueReading⟩ := assignment_sound hop h
        rw [hmarkNames, htargetNames] at hwritable hvalueReading
        have hroot : target.root.value = name := by
          rw [htarget.1] at hname
          simpa [PlaceTree.yield, target.root.fits] using hname
        refine ⟨.assign target mark value, htarget.trans (hmark.cons hvalue), ?_, ?_⟩
        · rw [hvalueNames, hmarkNames, htargetNames]
        · simp [StmtExprTree.reading, ExprTree.variableReading, hroot, hvariable, htargetReading,
            hwritable, hvalueReading]

/-- What is read as a declared name is a name, with a chain behind `=` if it has a value from the
beginning. The name is entered in front of that chain. -/
private theorem declarator_sound {type : CellType} {d : Declarator}
    (h : declarator scope operand type s = .ok d s') :
    ∃ tree : DeclaratorTree, s.Past tree.yield s' ∧
      tree.reading scope type s.names = some (d, s'.names) := by
  obtain ⟨t, s₁, hident, h⟩ := bind_eq_ok.mp h
  obtain ⟨name, rfl, hname, hnameNames⟩ := ident_eq_ok hident
  obtain ⟨slot, s₂, henter, h⟩ := bind_eq_ok.mp h
  obtain ⟨hdeclare, hrest, hend⟩ := enter_eq_ok henter
  rw [hnameNames] at hdeclare
  have hname : s.Past [name.token] s₂ := ⟨by rw [hname.1, hrest], by rw [hend, hname.2]⟩
  have hnone : ∃ tree : DeclaratorTree, s.Past tree.yield s₂ ∧ tree.reading scope type s.names =
      some (⟨⟨name.lexeme, [], slot, type⟩, none⟩, s₂.names) :=
    ⟨⟨name, none⟩, hname, by
      simp [DeclaratorTree.reading, hdeclare, DeclaratorTree.initialReading]⟩
  cases type with
  | object number =>
    obtain ⟨rfl, rfl⟩ := pure_eq_ok.mp h
    exact hnone
  | scalar type =>
    obtain ⟨r, s₃, htake, h⟩ := bind_eq_ok.mp h
    cases r with
    | none =>
      obtain rfl := take?_eq_none htake
      obtain ⟨rfl, rfl⟩ := pure_eq_ok.mp h
      exact hnone
    | some r =>
      obtain ⟨mark, rfl, hmark, hmarkNames⟩ := take?_eq_some htake
      obtain ⟨e, s₄, hassignment, h⟩ := bind_eq_ok.mp h
      obtain ⟨rfl, rfl⟩ := pure_eq_ok.mp h
      obtain ⟨value, hvalue, hvalueNames, hvalueReading⟩ := assignment_sound hop hassignment
      rw [hmarkNames] at hvalueReading
      refine ⟨⟨name, some (mark, value)⟩, hname.cons (hmark.cons hvalue), ?_⟩
      simp [DeclaratorTree.reading, hdeclare, DeclaratorTree.initialReading, hvalueReading,
        hvalueNames, hmarkNames]

/-- What is read as declared names is a list of them up to its semicolon, each entered behind the
ones before. -/
theorem declarators_sound {type : CellType} {ds : List Declarator}
    (h : declarators scope operand type s = .ok ds s') :
    ∃ tree : DeclaratorsTree, s.Past tree.yield s' ∧
      tree.reading scope type s.names = some (ds, s'.names) := by
  obtain ⟨first, s₁, hfirst, h⟩ := bind_eq_ok.mp h
  obtain ⟨rest, s₂, hrest, h⟩ := bind_eq_ok.mp h
  obtain ⟨_, s₃, hsemicolon, h⟩ := bind_eq_ok.mp h
  obtain ⟨rfl, rfl⟩ := pure_eq_ok.mp h
  obtain ⟨firstTree, hfirstPast, hfirstReading⟩ := declarator_sound hop hfirst
  obtain ⟨semicolon, hsemicolonPast, hsemicolonNames⟩ := expect_eq_ok hsemicolon
  have hlater : ∃ trees : List (Punct .comma × DeclaratorTree),
      s₁.Past (yieldBehind DeclaratorTree.yield trees) s₂ ∧
        readAll (DeclaratorTree.reading scope type) (trees.map (·.2)) s₁.names =
          some (rest, s₂.names) := by
    refine many_induction (P := fun s rest s' => ∃ trees : List (Punct .comma × DeclaratorTree),
      s.Past (yieldBehind DeclaratorTree.yield trees) s' ∧
        readAll (DeclaratorTree.reading scope type) (trees.map (·.2)) s.names =
          some (rest, s'.names))
      (fun s => ⟨[], .refl s, rfl⟩) behind_eq_none ?_ hrest
    rintro s s₄ s₅ a as hitem ⟨trees, htrees, htreesReading⟩
    obtain ⟨comma, s₆, hcomma, hcommaNames, hitem⟩ := behind_eq_some hitem
    obtain ⟨tree, htree, htreeReading⟩ := declarator_sound hop hitem
    rw [hcommaNames] at htreeReading
    refine ⟨(comma, tree) :: trees, hcomma.cons (htree.trans htrees), ?_⟩
    simp [readAll, htreeReading, htreesReading]
  obtain ⟨trees, htrees, htreesReading⟩ := hlater
  refine ⟨⟨firstTree, trees, semicolon⟩, (hfirstPast.trans htrees).trans hsemicolonPast, ?_⟩
  simp [DeclaratorsTree.reading, readAll, hfirstReading, htreesReading, hsemicolonNames]

end Nested

/-! ### Statements -/

/-- Some tokens in front are a phrase of the given sort with the given reading, and the tables
behind them are those of the reading. No `else` is left behind an open branch. -/
def ReadsStmt (scope : Scope) (k : StmtSort) (s : Cursor) (a : StmtReading k) (s' : Cursor) :
    Prop :=
  ∃ t : StmtTree k, s.Past t.yield s' ∧ t.reading scope s.names = some (a, s'.names) ∧
    (t.dangles = true → Lacks (Kind.keyword? .otherwise) s'.rest)

section Nested

variable {statement : Parse Stmt}
  (hst : ∀ {s s' : Cursor} {a : Stmt}, statement s = .ok a s' → ReadsStmt scope .statement s a s')

include hst

/-- What is read up to a closing brace is a list of statements. -/
private theorem statements_sound {body : List Stmt}
    (h : many (unlessAt .rightBrace statement) s = .ok body s') :
    ReadsStmt scope .statements s body s' := by
  refine many_induction (P := fun s body s' => ReadsStmt scope .statements s body s')
    (fun s => ⟨.noStatement, .refl s, rfl, nofun⟩) unlessAt_eq_none ?_ h
  rintro s s₁ s₂ a as hitem ⟨rest, hrest, hrestReading, -⟩
  obtain ⟨first, hfirst, hfirstReading, -⟩ := hst (unlessAt_eq_some hitem)
  exact ⟨.statement first rest, hfirst.trans hrest,
    by simp [StmtTree.reading, hfirstReading, hrestReading], nofun⟩

/-- What is read as a block is a list of statements between braces. -/
theorem block_sound {body : List Stmt} (h : block statement s = .ok body s') :
    ∃ (opening : Punct .leftBrace) (tree : StmtTree .statements) (closing : Punct .rightBrace),
      s.Past (opening.token :: tree.yield ++ [closing.token]) s' ∧
        tree.reading scope s.names = some (body, s'.names) := by
  obtain ⟨_, s₁, hopening, h⟩ := bind_eq_ok.mp h
  obtain ⟨body, s₂, hbody, h⟩ := bind_eq_ok.mp h
  obtain ⟨_, s₃, hclosing, h⟩ := bind_eq_ok.mp h
  obtain ⟨rfl, rfl⟩ := pure_eq_ok.mp h
  obtain ⟨opening, hopen, hopenNames⟩ := expect_eq_ok hopening
  obtain ⟨tree, htree, htreeReading, -⟩ := statements_sound hst hbody
  obtain ⟨closing, hclose, hcloseNames⟩ := expect_eq_ok hclosing
  rw [hopenNames, ← hcloseNames] at htreeReading
  exact ⟨opening, tree, closing, hopen.cons (htree.trans hclose), htreeReading⟩

/-- What is read as a body is a block if it begins with a brace, and a single statement otherwise.
-/
private theorem body_sound {b : List Stmt} (h : body statement s = .ok b s') :
    ReadsStmt scope .body s b s' := by
  obtain ⟨opens, s₁, hsees, h⟩ := bind_eq_ok.mp h
  obtain rfl := sees_eq_ok hsees
  cases opens with
  | true =>
    obtain ⟨opening, tree, closing, hpast, hreading⟩ := block_sound hst h
    exact ⟨.block opening tree closing, hpast, hreading, nofun⟩
  | false =>
    obtain ⟨a, s₂, hstatement, h⟩ := bind_eq_ok.mp h
    obtain ⟨rfl, rfl⟩ := pure_eq_ok.mp h
    obtain ⟨tree, htree, htreeReading, hdangles⟩ := hst hstatement
    exact ⟨.single tree, htree, by simp [StmtTree.reading, htreeReading], hdangles⟩

end Nested

/-- Behind its first token `t` a statement has been read: it is a tree that begins with `t`, and
what is behind `t` in its yield has been passed. -/
def ReadsBehind (scope : Scope) (t : Token) (s : Cursor) (a : Stmt) (s' : Cursor) : Prop :=
  ∃ (tree : StmtTree .statement) (behind : List Token), tree.yield = t :: behind ∧
    s.Past behind s' ∧ tree.reading scope s.names = some (a, s'.names) ∧
    (tree.dangles = true → Lacks (Kind.keyword? .otherwise) s'.rest)

/-- A statement is its first token and what is read behind it, under the same tables. -/
private theorem readsStmt_of_advance {p : Parse Stmt} {t : Token} {tokens : List Token} {a : Stmt}
    (hrest : s.rest = t :: tokens)
    (hp : ∀ {s₁ : Cursor}, s₁.names = s.names → p s₁ = .ok a s' → ReadsBehind scope t s₁ a s')
    (h : (advance >>= fun _ => p) s = .ok a s') : ReadsStmt scope .statement s a s' := by
  obtain ⟨t', s₁, hadvance, h⟩ := bind_eq_ok.mp h
  obtain ⟨hpast, hnames⟩ := advance_eq_ok hadvance
  obtain rfl : t' = t := (List.cons.inj (hpast.1.symm.trans hrest)).1
  obtain ⟨tree, behind, hyield, htree, hreading, hdangles⟩ := hp hnames h
  rw [hnames] at hreading
  exact ⟨tree, by rw [hyield]; exact hpast.cons htree, hreading, hdangles⟩

/-- An optional phrase in front of a closing mark. -/
private theorem optional_sound {α β : Type} {m : Mark} {item : Parse α} (yield : β → List Token)
    (reading : Names → β → Option α)
    (hitem : ∀ {s s' : Cursor} {a : α}, item s = .ok a s' → ∃ tree : β,
      s.Past (yield tree) s' ∧ s'.names = s.names ∧ reading s.names tree = some a)
    {r : Option α} (h : unlessAt m item s = .ok r s') :
    ∃ tree : Option β, s.Past (StmtTree.yieldOption yield tree) s' ∧ s'.names = s.names ∧
      readOption (reading s.names) tree = some r := by
  cases r with
  | none =>
    obtain rfl := unlessAt_eq_none h
    exact ⟨none, .refl _, rfl, rfl⟩
  | some a =>
    obtain ⟨tree, htree, htreeNames, htreeReading⟩ := hitem (unlessAt_eq_some h)
    exact ⟨some tree, htree, htreeNames, by simp [readOption, htreeReading]⟩

section Nested

variable {operand : Parse Expr} {statement : Parse Stmt}
  (hop : ∀ {s s' : Cursor} {e : Expr}, operand s = .ok e s' → ReadsExpr scope .operand s e s')
  (hst : ∀ {s s' : Cursor} {a : Stmt}, statement s = .ok a s' → ReadsStmt scope .statement s a s')

include hop

/-- What is read behind a template is a list of chains with a comma in front of each. -/
private theorem printArguments_sound {es : List Expr}
    (h : many (behind .comma (chain operand)) s = .ok es s') :
    ∃ trees : List (Punct .comma × ExprTree .chain),
      s.Past (yieldBehind ExprTree.yield trees) s' ∧ s'.names = s.names ∧
        (trees.mapM fun a => a.2.reading s.names scope) = some es := by
  refine many_induction (P := fun s es s' => ∃ trees : List (Punct .comma × ExprTree .chain),
    s.Past (yieldBehind ExprTree.yield trees) s' ∧ s'.names = s.names ∧
      (trees.mapM fun a => a.2.reading s.names scope) = some es)
    (fun s => ⟨[], .refl s, rfl, rfl⟩) behind_eq_none ?_ h
  rintro s s₁ s₂ a as hitem ⟨trees, htrees, htreesNames, htreesReading⟩
  obtain ⟨comma, s₃, hcomma, hcommaNames, hitem⟩ := behind_eq_some hitem
  obtain ⟨tree, htree, htreeNames, htreeReading⟩ := chain_sound hop hitem
  rw [htreeNames, hcommaNames] at htreesReading
  rw [hcommaNames] at htreeReading
  refine ⟨(comma, tree) :: trees, hcomma.cons (htree.trans htrees), ?_, ?_⟩
  · rw [htreesNames, htreeNames, hcommaNames]
  · simp [List.mapM_cons, htreeReading, htreesReading]

/-- What is read behind a template is the rest of a print statement. -/
private theorem print_sound (template : Leaf Kind.quoted?) {a : Stmt}
    (h : print operand template.value template.token.line s = .ok a s') :
    ReadsBehind scope template.token s a s' := by
  obtain ⟨es, s₁, harguments, h⟩ := bind_eq_ok.mp h
  obtain ⟨_, s₂, hsemicolon, h⟩ := bind_eq_ok.mp h
  obtain ⟨rfl, rfl⟩ := pure_eq_ok.mp h
  obtain ⟨trees, htrees, htreesNames, htreesReading⟩ := printArguments_sound hop harguments
  obtain ⟨semicolon, hpast, hnames⟩ := expect_eq_ok hsemicolon
  refine ⟨.print template trees semicolon, _, rfl, htrees.trans hpast, ?_, nofun⟩
  simp [StmtTree.reading, htreesReading, hnames, htreesNames]

/-- What is read behind the word of a return is the rest of one, with a chain or without. -/
private theorem giveBack_sound (word : Word .giveBack) {a : Stmt} (hscope : scope ≠ .top)
    (h : giveBack operand word.token.line s = .ok a s') :
    ReadsBehind scope word.token s a s' := by
  obtain ⟨r, s₁, hvalue, h⟩ := bind_eq_ok.mp h
  obtain ⟨_, s₂, hsemicolon, h⟩ := bind_eq_ok.mp h
  obtain ⟨rfl, rfl⟩ := pure_eq_ok.mp h
  obtain ⟨value, hpast, hnames, hreading⟩ :=
    optional_sound ExprTree.yield (fun names => ExprTree.reading names scope) (chain_sound hop ·)
      hvalue
  obtain ⟨semicolon, hsemicolonPast, hsemicolonNames⟩ := expect_eq_ok hsemicolon
  refine ⟨.giveBack word value semicolon, _, rfl, hpast.trans hsemicolonPast, ?_, nofun⟩
  simp [StmtTree.reading, hscope, hreading, hsemicolonNames, hnames]

include hst

/-- What is read behind the word of a loop is the rest of a loop: a head of up to three parts, and a
body. -/
private theorem loop_sound (word : Word .loop) {a : Stmt}
    (h : loop scope operand statement s = .ok a s') :
    ReadsBehind scope word.token s a s' := by
  obtain ⟨_, s₁, hopening, h⟩ := bind_eq_ok.mp h
  obtain ⟨initial, s₂, hinitial, h⟩ := bind_eq_ok.mp h
  obtain ⟨_, s₃, hfirst, h⟩ := bind_eq_ok.mp h
  obtain ⟨test, s₄, htest, h⟩ := bind_eq_ok.mp h
  obtain ⟨_, s₅, hsecond, h⟩ := bind_eq_ok.mp h
  obtain ⟨step, s₆, hstep, h⟩ := bind_eq_ok.mp h
  obtain ⟨_, s₇, hclosing, h⟩ := bind_eq_ok.mp h
  obtain ⟨b, s₈, hbody, h⟩ := bind_eq_ok.mp h
  obtain ⟨rfl, rfl⟩ := pure_eq_ok.mp h
  obtain ⟨opening, hopen, hopenNames⟩ := expect_eq_ok hopening
  obtain ⟨initialTree, hinitialPast, hinitialNames, hinitialReading⟩ :=
    optional_sound StmtExprTree.yield (fun names => StmtExprTree.reading names scope)
      (statementExpr_sound hop) hinitial
  obtain ⟨first, hfirstPast, hfirstNames⟩ := expect_eq_ok hfirst
  obtain ⟨testTree, htestPast, htestNames, htestReading⟩ :=
    optional_sound ConditionTree.yield (fun names => ConditionTree.reading names scope)
      (condition_sound hop) htest
  obtain ⟨second, hsecondPast, hsecondNames⟩ := expect_eq_ok hsecond
  obtain ⟨stepTree, hstepPast, hstepNames, hstepReading⟩ :=
    optional_sound StmtExprTree.yield (fun names => StmtExprTree.reading names scope)
      (statementExpr_sound hop) hstep
  obtain ⟨closing, hclose, hcloseNames⟩ := expect_eq_ok hclosing
  obtain ⟨tree, htree, htreeReading, hdangles⟩ := body_sound hst hbody
  rw [hcloseNames, hstepNames, hsecondNames, htestNames, hfirstNames, hinitialNames,
    hopenNames] at htreeReading
  rw [hsecondNames, htestNames, hfirstNames, hinitialNames, hopenNames] at hstepReading
  rw [hfirstNames, hinitialNames, hopenNames] at htestReading
  rw [hopenNames] at hinitialReading
  have hpast := hopen.trans (hinitialPast.trans (hfirstPast.trans (htestPast.trans
    (hsecondPast.trans (hstepPast.trans (hclose.trans htree))))))
  refine ⟨.loop word opening initialTree first testTree second stepTree closing tree, _, ?_,
    hpast, ?_, hdangles⟩
  · simp [StmtTree.yield]
  · simp [StmtTree.reading, hinitialReading, htestReading, hstepReading, htreeReading]

/-- What is read behind the word of a branch is the rest of one, with a second body or without. -/
private theorem branch_sound (word : Word .branch) {a : Stmt}
    (h : branch operand statement s = .ok a s') :
    ReadsBehind scope word.token s a s' := by
  obtain ⟨_, s₁, hopening, h⟩ := bind_eq_ok.mp h
  obtain ⟨test, s₂, htest, h⟩ := bind_eq_ok.mp h
  obtain ⟨_, s₃, hclosing, h⟩ := bind_eq_ok.mp h
  obtain ⟨yes, s₄, hyes, h⟩ := bind_eq_ok.mp h
  obtain ⟨r, s₅, htake, h⟩ := bind_eq_ok.mp h
  obtain ⟨opening, hopen, hopenNames⟩ := expect_eq_ok hopening
  obtain ⟨testTree, htestPast, htestNames, htestReading⟩ := condition_sound hop htest
  obtain ⟨closing, hclose, hcloseNames⟩ := expect_eq_ok hclosing
  obtain ⟨yesTree, hyesPast, hyesReading, hyesDangles⟩ := body_sound hst hyes
  rw [hcloseNames, htestNames, hopenNames] at hyesReading
  rw [hopenNames] at htestReading
  have hpast := hopen.trans (htestPast.trans (hclose.trans hyesPast))
  cases r with
  | none =>
    have hlacks := lacks_of_take?_eq_none htake
    obtain rfl := take?_eq_none htake
    obtain ⟨rfl, rfl⟩ := pure_eq_ok.mp h
    refine ⟨.branch word opening testTree closing yesTree, _, ?_, hpast, ?_, fun _ => hlacks⟩
    · simp [StmtTree.yield]
    · simp [StmtTree.reading, htestReading, hyesReading]
  | some r =>
    obtain ⟨otherwise, -, hotherwise, hotherwiseNames⟩ := take?_eq_some htake
    obtain ⟨no, s₆, hno, h⟩ := bind_eq_ok.mp h
    obtain ⟨rfl, rfl⟩ := pure_eq_ok.mp h
    obtain ⟨noTree, hnoPast, hnoReading, hnoDangles⟩ := body_sound hst hno
    rw [hotherwiseNames] at hnoReading
    -- an open branch inside the first body would have taken the `else` itself
    have hclosed : yesTree.dangles = false := by
      rw [Bool.eq_false_iff]
      intro hdangles
      have hlacks := hyesDangles hdangles
      rw [hotherwise.1] at hlacks
      exact not_lacks_leaf otherwise hlacks
    refine ⟨.branchElse word opening testTree closing yesTree otherwise noTree, _, ?_,
      hpast.trans (hotherwise.trans hnoPast), ?_, hnoDangles⟩
    · simp [StmtTree.yield]
    · simp [StmtTree.reading, hclosed, htestReading, hyesReading, hnoReading]

end Nested

/-- What is read as a statement that begins like an expression is an assignment or a chain, and a
semicolon. -/
private theorem exprStmt_sound {operand : Parse Expr}
    (hop : ∀ {s s' : Cursor} {e : Expr}, operand s = .ok e s' → ReadsExpr scope .operand s e s')
    {a : Stmt} (hopens : s.rest.head?.any fun t => opensExpression s.names t.kind)
    (h : exprStmt scope operand s = .ok a s') : ReadsStmt scope .statement s a s' := by
  obtain ⟨e, s₁, hexpr, h⟩ := bind_eq_ok.mp h
  obtain ⟨_, s₂, hsemicolon, h⟩ := bind_eq_ok.mp h
  obtain ⟨rfl, rfl⟩ := pure_eq_ok.mp h
  obtain ⟨tree, htree, htreeNames, htreeReading⟩ := statementExpr_sound hop hexpr
  obtain ⟨semicolon, hpast, hnames⟩ := expect_eq_ok hsemicolon
  have hhead : tree.yield.head?.any fun t => opensExpression s.names t.kind := by
    obtain ⟨t, ts, hyield, -⟩ := tree.heads
    rw [htree.1, hyield] at hopens
    rw [hyield]
    exact hopens
  refine ⟨.expr tree semicolon, htree.trans hpast, ?_, nofun⟩
  simp [StmtTree.reading, hhead, htreeReading, hnames, htreeNames]

/-- What is read behind a type is the rest of a declaration. -/
private theorem declaration_sound {operand : Parse Expr}
    (hop : ∀ {s s' : Cursor} {e : Expr}, operand s = .ok e s' → ReadsExpr scope .operand s e s')
    (tree : TypeTree) {type : CellType} {a : Stmt} (hreading : tree.reading s.names = some type)
    (h : declaration scope operand type s = .ok a s') : ReadsBehind scope tree.token s a s' := by
  obtain ⟨ds, s₁, hdeclarators, h⟩ := bind_eq_ok.mp h
  obtain ⟨rfl, rfl⟩ := pure_eq_ok.mp h
  obtain ⟨vars, hvars, hvarsReading⟩ := declarators_sound hop hdeclarators
  exact ⟨.declare tree vars, _, rfl, hvars, by simp [StmtTree.reading, hreading, hvarsReading],
    nofun⟩

/-- Looking for the head of a procedure reads nothing. -/
theorem procedureHead_eq_ok {b : Bool} (h : procedureHead s = .ok b s') : s = s' := by
  rw [procedureHead] at h
  split at h <;> cases h <;> rfl

/-! ### Statements by their first token -/

section First

variable {operand : Parse Expr} {statement : Parse Stmt} {t : Token} {tokens : List Token}
  {a : Stmt} (hrest : s.rest = t :: tokens)
  (hop : ∀ {s s' : Cursor} {e : Expr}, operand s = .ok e s' → ReadsExpr scope .operand s e s')

include hrest hop

/-- A type begins a declaration, where it does not begin a procedure. -/
private theorem statement_scalar_sound {type : Scalar} (hkind : t.kind = .scalar type)
    (h : (do
      if ← procedureHead then
        let _ ← advance
        refuse .nestedProcedure
      else
        let _ ← advance
        declaration scope operand (.scalar type) : Parse Stmt) s = .ok a s') :
    ReadsStmt scope .statement s a s' := by
  let leaf : Leaf Kind.scalar? := ⟨t, type, by rw [hkind]; rfl⟩
  obtain ⟨opens, s₁, hhead, h⟩ := bind_eq_ok.mp h
  obtain rfl := procedureHead_eq_ok hhead
  cases opens with
  | true =>
    obtain ⟨_, s₂, -, h⟩ := bind_eq_ok.mp h
    exact absurd h refuse_ne_ok
  | false =>
    exact readsStmt_of_advance hrest (fun _ h => declaration_sound hop (.scalar leaf) rfl h) h

/-- A name begins a declaration if it is that of a class, and an expression if it is not. -/
private theorem statement_ident_sound {name : String} (hkind : t.kind = .ident name)
    (h : (match s.names.class? name with
      | some number => do
        let _ ← advance
        declaration scope operand (.object number)
      | none => exprStmt scope operand : Parse Stmt) s = .ok a s') :
    ReadsStmt scope .statement s a s' := by
  let leaf : Name := ⟨t, name, by rw [hkind]; rfl⟩
  cases hclass : s.names.class? name with
  | some number =>
    rw [hclass] at h
    refine readsStmt_of_advance hrest (fun hnames h => ?_) h
    exact declaration_sound hop (.object leaf) (by simp [TypeTree.reading, leaf, hnames, hclass]) h
  | none =>
    rw [hclass] at h
    refine exprStmt_sound hop ?_ h
    rw [hrest, List.head?_cons, Option.any_some, hkind]
    simp [opensExpression, hclass]

/-- A keyword begins a loop, a branch or a return, or else a truth value that begins an
expression. -/
private theorem statement_keyword_sound {k : Keyword} (hst : ∀ {s s' : Cursor} {a : Stmt},
      statement s = .ok a s' → ReadsStmt scope .statement s a s') (hkind : t.kind = .keyword k)
    (h : (match k with
      | .loop => do
        let _ ← advance
        loop scope operand statement
      | .branch => do
        let _ ← advance
        branch operand statement
      | .giveBack => do
        if scope = .top then refuse .returnOutside
        else
          let _ ← advance
          giveBack operand t.line
      | .classDef => unexpected
      | _ => exprStmt scope operand : Parse Stmt) s = .ok a s') :
    ReadsStmt scope .statement s a s' := by
  have hexpr : opensExpression s.names (.keyword k) = true →
      exprStmt scope operand s = .ok a s' → ReadsStmt scope .statement s a s' := by
    intro hopens
    refine exprStmt_sound hop ?_
    rw [hrest, List.head?_cons, Option.any_some, hkind]
    exact hopens
  cases k with
  | loop =>
    let word : Word .loop := ⟨t, (), by rw [hkind]; rfl⟩
    exact readsStmt_of_advance hrest (fun _ h => loop_sound hop hst word h) h
  | branch =>
    let word : Word .branch := ⟨t, (), by rw [hkind]; rfl⟩
    exact readsStmt_of_advance hrest (fun _ h => branch_sound hop hst word h) h
  | giveBack =>
    let word : Word .giveBack := ⟨t, (), by rw [hkind]; rfl⟩
    dsimp only at h
    split at h
    · exact absurd h refuse_ne_ok
    · rename_i hscope
      exact readsStmt_of_advance hrest (fun _ h => giveBack_sound hop word hscope h) h
  | classDef => exact absurd h unexpected_ne_ok
  | _ => exact hexpr rfl h

/-- A quoted literal begins a print. -/
private theorem statement_quoted_sound {template : String} (hkind : t.kind = .quoted template)
    (h : (do
      let _ ← advance
      print operand template t.line : Parse Stmt) s = .ok a s') :
    ReadsStmt scope .statement s a s' := by
  let leaf : Leaf Kind.quoted? := ⟨t, template, by rw [hkind]; rfl⟩
  exact readsStmt_of_advance hrest (fun _ h => print_sound hop leaf h) h

end First

/-- A block of foreign code is a statement by itself. -/
private theorem statement_foreign_sound {t : Token} {tokens : List Token} {code : String} {a : Stmt}
    (hrest : s.rest = t :: tokens) (hkind : t.kind = .foreign code)
    (h : (do
      let _ ← advance
      return .foreign code t.line : Parse Stmt) s = .ok a s') :
    ReadsStmt scope .statement s a s' := by
  let leaf : Leaf Kind.foreign? := ⟨t, code, by rw [hkind]; rfl⟩
  refine readsStmt_of_advance hrest (fun {s₁} _ h => ?_) h
  obtain ⟨rfl, rfl⟩ := pure_eq_ok.mp h
  exact ⟨.foreign leaf, [], rfl, .refl s₁, rfl, nofun⟩

/-- A parsed statement has a derivation. -/
theorem statement_sound {n : Nat} {a : Stmt} (h : statement scope n s = .ok a s') :
    ReadsStmt scope .statement s a s' := by
  induction n generalizing s s' a with
  | zero => exact absurd h unexpected_ne_ok
  | succ n ih =>
    rw [statement, peek_bind] at h
    cases hrest : s.rest with
    | nil =>
      rw [hrest] at h
      exact absurd h unexpected_ne_ok
    | cons t rest =>
      simp only [hrest, List.head?_cons] at h
      cases hkind : t.kind with
      | scalar type =>
        simp only [hkind] at h
        exact statement_scalar_sound hrest operand_sound hkind h
      | ident name =>
        simp only [hkind, names_bind] at h
        exact statement_ident_sound hrest operand_sound hkind h
      | quoted template =>
        simp only [hkind] at h
        exact statement_quoted_sound hrest operand_sound hkind h
      | keyword k =>
        refine statement_keyword_sound hrest (operand_sound (n := n + 1)) ih hkind ?_
        rw [← h]
        cases k <;> simp only [hkind]
      | foreign code =>
        simp only [hkind] at h
        exact statement_foreign_sound hrest hkind h
      | define =>
        simp only [hkind] at h
        exact absurd h unexpected_ne_ok
      | _ =>
        -- marks and numbers begin an expression
        simp only [hkind] at h
        refine exprStmt_sound operand_sound ?_ h
        rw [hrest, List.head?_cons, Option.any_some, hkind]
        rfl

end Grammar

end Litany
