import Litany.Proofs.Scope.Reading

/-!
# The blocks of a program

A block of foreign code is a token, and the statement that hands it over carries the text of that
token and its line. `Stmt.codes` lists the blocks of a statement, those in the bodies of loops,
branches and procedures among them, in the order in which they are written. The blocks of a program
are those of its tokens in the same order (`codes_of_parse`): nothing but a statement takes a block,
and no block is lost, doubled or changed.
-/

namespace Litany

namespace Token

/-- The block that a token is, if it is one, with its line. -/
def code? (t : Token) : Option (String × Nat) :=
  t.kind.foreign?.map fun code => (code, t.line)

/-- The blocks among some tokens. -/
def codes (tokens : List Token) : List (String × Nat) :=
  tokens.filterMap code?

@[simp]
theorem codes_nil : codes [] = [] :=
  rfl

/-- The blocks of a text are those of its tokens. -/
@[simp]
theorem codes_cons (t : Token) (tokens : List Token) :
    codes (t :: tokens) = t.code?.toList ++ codes tokens := by
  cases h : t.code? <;> simp [codes, h]

/-- Texts in a row have their blocks in a row. -/
@[simp]
theorem codes_append (tokens later : List Token) :
    codes (tokens ++ later) = codes tokens ++ codes later :=
  List.filterMap_append

/-- A token that is a block is of that kind. -/
theorem mem_codes {tokens : List Token} {code : String} {line : Nat} :
    (code, line) ∈ codes tokens ↔ ∃ t ∈ tokens, t.kind = .foreign code ∧ t.line = line := by
  simp only [codes, List.mem_filterMap]
  refine exists_congr fun t => and_congr_right fun _ => ?_
  obtain ⟨kind, lexeme, line'⟩ := t
  cases kind <;> simp [code?, Kind.foreign?]

end Token

mutual

/-- The blocks of a statement, in the order in which they are written. -/
def Stmt.codes : Stmt → List (String × Nat)
  | .procedure ⟨_, _, _, _, _, body⟩ => codesOfAll body
  | .loop _ _ _ body => codesOfAll body
  | .branch _ yes none => codesOfAll yes
  | .branch _ yes (some no) => codesOfAll yes ++ codesOfAll no
  | .foreign code line => [(code, line)]
  | .expr _ | .declare _ | .classDef _ _ | .print _ _ _ | .giveBack _ _ => []

/-- The blocks of statements. -/
def Stmt.codesOfAll : List Stmt → List (String × Nat)
  | [] => []
  | s :: rest => s.codes ++ codesOfAll rest

end

namespace Grammar

open Token

/-! ### Phrases without blocks -/

/-- A class of tokens that has no block in it. -/
class Blockless {α : Type} (f : Kind → Option α) : Prop where
  foreign : ∀ code, f (.foreign code) = none

instance (m : Mark) : Blockless (Kind.mark? m) := ⟨fun _ => rfl⟩
instance (k : Keyword) : Blockless (Kind.keyword? k) := ⟨fun _ => rfl⟩
instance : Blockless Kind.ident? := ⟨fun _ => rfl⟩
instance : Blockless Kind.scalar? := ⟨fun _ => rfl⟩
instance : Blockless Kind.literal? := ⟨fun _ => rfl⟩
instance : Blockless Kind.number? := ⟨fun _ => rfl⟩
instance : Blockless Kind.quoted? := ⟨fun _ => rfl⟩
instance : Blockless Kind.define? := ⟨fun _ => rfl⟩
instance : Blockless Kind.bump? := ⟨fun _ => rfl⟩
instance : Blockless Kind.arithmetic? := ⟨fun _ => rfl⟩
instance : Blockless Kind.assignment? := ⟨fun _ => rfl⟩
instance : Blockless Kind.comparison? := ⟨fun _ => rfl⟩
instance : Blockless Kind.connective? := ⟨fun _ => rfl⟩

section Leaves

variable {α β : Type} {f : Kind → Option α} [Blockless f]

/-- A leaf that is no foreign code is no block. -/
@[simp]
theorem code?_leaf (l : Leaf f) : l.token.code? = none := by
  obtain ⟨⟨kind, lexeme, line⟩, value, fits⟩ := l
  cases kind with
  | foreign code =>
    rw [Blockless.foreign (f := f)] at fits
    cases fits
  | _ => rfl

/-- Items without blocks, each behind a leaf that is none. -/
@[simp]
theorem codes_yieldBehind {yield : β → List Token} (hyield : ∀ b, codes (yield b) = [])
    (items : List (Leaf f × β)) : codes (yieldBehind yield items) = [] := by
  induction items with
  | nil => rfl
  | cons item items ih =>
    rw [yieldBehind, codes_append, ih, codes_cons, code?_leaf, hyield]
    rfl

end Leaves

/-- The token of a block, in a statement. -/
private theorem code?_foreign (l : Leaf Kind.foreign?) :
    l.token.code? = some (l.value, l.token.line) := by
  rw [code?, l.fits]
  rfl

/-- An optional phrase without blocks has none, whether it is there or not. -/
@[simp]
theorem codes_yieldOption {α : Type} {yield : α → List Token}
    (hyield : ∀ a, codes (yield a) = []) (item : Option α) :
    codes (StmtTree.yieldOption yield item) = [] := by
  cases item with
  | none => rfl
  | some a => exact hyield a

/-- No block stands in a place. -/
@[simp]
theorem PlaceTree.codes_yield (t : PlaceTree) : codes t.yield = [] := by
  simp [yield]

/-- No block stands in an expression. -/
@[simp]
theorem ExprTree.codes_yield {k : ExprSort} (t : ExprTree k) : codes t.yield = [] := by
  induction t <;> simp_all [yield]

/-- No block stands in a term. -/
@[simp]
theorem TermTree.codes_yield (t : TermTree) : codes t.yield = [] := by
  obtain ⟨bangs, left, comparison⟩ := t
  have hbangs : codes (bangs.map (·.token)) = [] := by
    induction bangs with
    | nil => rfl
    | cons bang bangs ih => simp [ih]
  cases comparison <;> simp [yield, hbangs]

/-- No block stands in a condition. -/
@[simp]
theorem ConditionTree.codes_yield (t : ConditionTree) : codes t.yield = [] := by
  simp [yield]

/-- No block stands in an assignment or a chain. -/
@[simp]
theorem StmtExprTree.codes_yield (t : StmtExprTree) : codes t.yield = [] := by
  cases t <;> simp [yield]

@[simp]
theorem DeclaratorTree.codes_yield (t : DeclaratorTree) : codes t.yield = [] := by
  obtain ⟨name, initial⟩ := t
  cases initial <;> simp [yield]

/-- No block stands in a declaration. -/
@[simp]
theorem DeclaratorsTree.codes_yield (t : DeclaratorsTree) : codes t.yield = [] := by
  simp [yield]

@[simp]
theorem TypeTree.code?_token (t : TypeTree) : t.token.code? = none := by
  cases t <;> simp [token]

/-- No block is a literal. -/
@[simp]
theorem LiteralTree.codes_yield (t : LiteralTree) : codes t.yield = [] := by
  cases t <;> simp [yield]

@[simp]
theorem ParameterTree.codes_yield (t : ParameterTree) : codes t.yield = [] := by
  obtain ⟨type, name, default⟩ := t
  cases default <;> simp [yield]

/-- No block stands between the parentheses of a procedure. -/
@[simp]
theorem ParameterTree.codes_yieldAll
    (t : Option (ParameterTree × List (Punct .comma × ParameterTree))) :
    codes (yieldAll t) = [] := by
  cases t with
  | none => rfl
  | some t => simp [yieldAll]

@[simp]
theorem FieldGroupTree.codes_yield (t : FieldGroupTree) : codes t.yield = [] := by
  simp [yield]

/-- No block stands between the braces of a class. -/
@[simp]
theorem FieldGroupTree.codes_yieldAll (groups : List FieldGroupTree) :
    codes (groups.flatMap yield) = [] := by
  induction groups with
  | nil => rfl
  | cons group groups ih => simp [ih]

/-! ### Statements and programs -/

variable {names later : Names} {scope : Scope}

/-- A phrase of statements stands for statements with the blocks of its tokens. -/
theorem StmtTree.codes_yield {k : StmtSort} (t : StmtTree k) {r : StmtReading k}
    (h : t.reading scope names = some (r, later)) :
    codes t.yield = Stmt.codesOfAll (StmtReading.all r) := by
  -- the names differ from statement to statement, the blocks do not depend on them
  induction t generalizing names later with
  | declare type vars =>
    obtain ⟨cell, ds, -, -, rfl⟩ := reading_declare h
    simp [yield, StmtReading.all, Stmt.codesOfAll, Stmt.codes]
  | print template arguments semicolon =>
    obtain ⟨es, -, rfl, rfl⟩ := reading_print h
    simp [yield, StmtReading.all, Stmt.codesOfAll, Stmt.codes]
  | loop word opening initial first test second step closing body ih =>
    obtain ⟨initial', test', step', body', -, -, -, hbody, rfl⟩ := reading_loop h
    simp [yield, StmtReading.all, Stmt.codesOfAll, Stmt.codes, ih hbody]
  | branch word opening test closing yes ih =>
    obtain ⟨test', yes', -, hyes, rfl⟩ := reading_branch h
    simp [yield, StmtReading.all, Stmt.codesOfAll, Stmt.codes, ih hyes]
  | branchElse word opening test closing yes otherwise no ihYes ihNo =>
    obtain ⟨-, test', yes', between, no', -, hyes, hno, rfl⟩ := reading_branchElse h
    simp [yield, StmtReading.all, Stmt.codesOfAll, Stmt.codes, ihYes hyes, ihNo hno]
  | giveBack word value semicolon =>
    obtain ⟨-, value', -, rfl, rfl⟩ := reading_giveBack h
    simp [yield, StmtReading.all, Stmt.codesOfAll, Stmt.codes]
  | foreign code =>
    obtain ⟨rfl, rfl⟩ := Prod.mk.inj (Option.some.inj h)
    simp [yield, StmtReading.all, Stmt.codesOfAll, Stmt.codes, code?_foreign]
  | expr e semicolon =>
    obtain ⟨-, e', -, rfl, rfl⟩ := reading_expr h
    simp [yield, StmtReading.all, Stmt.codesOfAll, Stmt.codes]
  | single s ih =>
    obtain ⟨s', hs, rfl⟩ := reading_single h
    exact ih hs
  | block opening body closing ih =>
    have hbody : codes body.yield = Stmt.codesOfAll (StmtReading.all (k := .body) r) := ih h
    simpa [yield] using hbody
  | noStatement =>
    obtain ⟨rfl, rfl⟩ := Prod.mk.inj (Option.some.inj h)
    rfl
  | statement first rest ihFirst ihRest =>
    obtain ⟨s, middle, ss, hfirst, hrest, rfl⟩ := reading_statement h
    simp [yield, StmtReading.all, Stmt.codesOfAll, ihFirst hfirst, ihRest hrest]

/-- An item stands for a statement with the blocks of its tokens. -/
theorem ItemTree.codes_yield (t : ItemTree) {s : Stmt} (h : t.reading names = some (s, later)) :
    codes t.yield = s.codes := by
  cases t with
  | procedure type name opening parameters closing begins body ends =>
    obtain ⟨parameters', ordinal, opened, body', p, -, -, hbody, -, rfl⟩ := reading_procedure h
    have hcodes : codes body.yield = Stmt.codesOfAll body' := body.codes_yield hbody
    simpa [yield, Stmt.codes] using hcodes
  | classDef word name opening groups closing semicolon =>
    obtain ⟨fields, number, -, -, rfl⟩ := reading_classDef h
    simp [yield, Stmt.codes]
  | classDefWith word name opening groups closing vars =>
    obtain ⟨fields, number, opened, ds, -, -, -, rfl⟩ := reading_classDefWith h
    simp [yield, Stmt.codes]
  | define directive name value semicolon =>
    obtain ⟨v, slot, -, -, rfl⟩ := reading_define h
    simp [yield, Stmt.codes]
  | statement s => simpa [yield, StmtReading.all, Stmt.codesOfAll] using s.codes_yield h

/-- Items stand for statements with the blocks of their tokens, in their order. -/
private theorem codes_readAll {items : List ItemTree} {ss : List Stmt}
    (h : readAll ItemTree.reading items names = some (ss, later)) :
    codes (items.flatMap ItemTree.yield) = Stmt.codesOfAll ss := by
  induction items generalizing names ss with
  | nil =>
    obtain ⟨rfl, rfl⟩ := Prod.mk.inj (Option.some.inj h)
    rfl
  | cons item items ih =>
    obtain ⟨s, middle, ss', hfirst, hrest, rfl⟩ := readAll_cons_eq_some.mp h
    rw [List.flatMap_cons, codes_append, item.codes_yield hfirst, ih hrest]
    rfl

/-- The blocks of a program are those of its tokens. -/
theorem codes_of_parse {stream : Stream} {statements : List Stmt}
    (h : parse names stream = (.ok statements, later)) :
    Stmt.codesOfAll statements = codes stream.tokens := by
  obtain ⟨d, rfl, -⟩ := exists_derivation_of_parse h
  rw [← codes_readAll d.reads, d.yields]

end Grammar

end Litany
