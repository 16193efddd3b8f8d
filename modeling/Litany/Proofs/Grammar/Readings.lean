import Litany.Proofs.Grammar.Derivation

/-!
# Readings taken apart

A tree has a reading if its parts have, each under the tables that the one before leaves, and if
nothing forbids the phrase: a target may be written, a return stands in a procedure, an `else` is
not taken from a branch in front of it. There is one lemma for each phrase with several parts or
with such a condition. Statements about readings are proved by induction on the tree with these
lemmas, and the readings are not opened again.
-/

namespace Litany

namespace Grammar

/-! ### Several items -/

section Items

variable {α β : Type} {names later : Names}

/-- Items that do not depend on each other are read if the first one is and the others are. -/
theorem mapM_cons_eq_some {read : α → Option β} {a : α} {as : List α} {bs : List β} :
    (a :: as).mapM read = some bs ↔
      ∃ b bs', read a = some b ∧ as.mapM read = some bs' ∧ bs = b :: bs' := by
  simp only [List.mapM_cons, Option.bind_eq_bind, Option.bind_eq_some_iff, Option.pure_def,
    Option.some.injEq]
  constructor
  · rintro ⟨b, hb, bs', hbs', rfl⟩
    exact ⟨b, bs', hb, hbs', rfl⟩
  · rintro ⟨b, bs', hb, hbs', rfl⟩
    exact ⟨b, hb, bs', hbs', rfl⟩

/-- What is true of every single reading is true of all results. -/
theorem forall_mem_of_mapM {read : α → Option β} {P : β → Prop} {as : List α} {bs : List β}
    (h : as.mapM read = some bs) (hP : ∀ a ∈ as, ∀ b, read a = some b → P b) : ∀ b ∈ bs, P b := by
  induction as generalizing bs with
  | nil =>
    obtain rfl : bs = [] := by simpa [eq_comm] using h
    simp
  | cons a as ih =>
    obtain ⟨b, bs', hb, hbs', rfl⟩ := mapM_cons_eq_some.mp h
    obtain ⟨hfirst, hrest⟩ := List.forall_mem_cons.mp hP
    exact List.forall_mem_cons.mpr ⟨hfirst b hb, ih hbs' hrest⟩

/-- There are as many results as items. -/
theorem length_of_mapM {read : α → Option β} {as : List α} {bs : List β}
    (h : as.mapM read = some bs) : bs.length = as.length := by
  induction as generalizing bs with
  | nil =>
    obtain rfl : bs = [] := by simpa [eq_comm] using h
    rfl
  | cons a as ih =>
    obtain ⟨b, bs', hb, hbs', rfl⟩ := mapM_cons_eq_some.mp h
    rw [List.length_cons, List.length_cons, ih hbs']

variable {read : α → Names → Option (β × Names)}

/-- Items in a row are read if the first one is, and the others behind it under the tables that it
leaves. -/
theorem readAll_cons_eq_some {a : α} {as : List α} {bs : List β} :
    readAll read (a :: as) names = some (bs, later) ↔
      ∃ b names' bs', read a names = some (b, names') ∧
        readAll read as names' = some (bs', later) ∧ bs = b :: bs' := by
  simp only [readAll, Option.bind_eq_bind, Option.bind_eq_some_iff, Prod.exists, Option.pure_def,
    Option.some.injEq, Prod.mk.injEq]
  constructor
  · rintro ⟨b, names', hread, bs', later', hrest, rfl, rfl⟩
    exact ⟨b, names', bs', hread, hrest, rfl⟩
  · rintro ⟨b, names', bs', hread, hrest, rfl⟩
    exact ⟨b, names', hread, bs', later, hrest, rfl, rfl⟩

/-- Items may be changed before they are read or while they are. -/
theorem readAll_map {γ : Type} (f : γ → α) (as : List γ) (names : Names) :
    readAll read (as.map f) names = readAll (fun a => read (f a)) as names := by
  induction as generalizing names with
  | nil => rfl
  | cons a as ih => simp [readAll, ih]

/-- Items that are read without the tables leave them alone. -/
theorem readAll_some (f : α → β) (as : List α) :
    readAll (fun a names => some (f a, names)) as names = some (as.map f, names) := by
  induction as with
  | nil => rfl
  | cons a as ih => simp [readAll, ih]

/-- Readings that leave the tables alone may be taken one after the other. -/
theorem readAll_of_mapM (read : Names → α → Option β) {as : List α} {bs : List β}
    (h : as.mapM (read names) = some bs) :
    readAll (fun a names => (read names a).map (·, names)) as names = some (bs, names) := by
  induction as generalizing bs with
  | nil =>
    obtain rfl : bs = [] := by simpa [eq_comm] using h
    rfl
  | cons a as ih =>
    obtain ⟨b, bs', hb, hbs', rfl⟩ := mapM_cons_eq_some.mp h
    exact readAll_cons_eq_some.mpr ⟨b, names, bs', by simp [hb], ih hbs', rfl⟩

/-- There are as many results as items. -/
theorem length_of_readAll {as : List α} {bs : List β}
    (h : readAll read as names = some (bs, later)) : bs.length = as.length := by
  induction as generalizing names bs with
  | nil =>
    obtain ⟨rfl, -⟩ := Prod.mk.inj (Option.some.inj h)
    rfl
  | cons a as ih =>
    obtain ⟨b, middle, bs', -, hrest, rfl⟩ := readAll_cons_eq_some.mp h
    rw [List.length_cons, List.length_cons, ih hrest]

/-- Items are read in a row if the second ones are read under the tables that the first ones leave.
-/
theorem readAll_append {as as' : List α} {bs bs' : List β} {middle : Names}
    (h : readAll read as names = some (bs, middle))
    (h' : readAll read as' middle = some (bs', later)) :
    readAll read (as ++ as') names = some (bs ++ bs', later) := by
  induction as generalizing names bs with
  | nil =>
    obtain ⟨rfl, rfl⟩ := Prod.mk.inj (Option.some.inj h)
    exact h'
  | cons a as ih =>
    obtain ⟨b, next, bs, hfirst, hrest, rfl⟩ := readAll_cons_eq_some.mp h
    exact readAll_cons_eq_some.mpr ⟨b, next, _, hfirst, ih hrest, rfl⟩

/-- What is read at one position, with the tables in front of it, and what is read behind it. -/
theorem readAll_split {as : List α} {bs : List β} (h : readAll read as names = some (bs, later))
    {j : Nat} {a : α} (ha : as[j]? = some a) :
    ∃ b front behind, bs[j]? = some b ∧
      readAll read (as.take j) names = some (bs.take j, front) ∧ read a front = some (b, behind) ∧
      readAll read (as.drop (j + 1)) behind = some (bs.drop (j + 1), later) := by
  induction as generalizing names bs j with
  | nil => cases ha
  | cons first as ih =>
    obtain ⟨b, middle, bs', hfirst, hrest, rfl⟩ := readAll_cons_eq_some.mp h
    cases j with
    | zero =>
      obtain rfl := Option.some.inj ha
      exact ⟨b, names, middle, rfl, rfl, hfirst, hrest⟩
    | succ j =>
      obtain ⟨b', front, behind, hb', htake, hread, hdrop⟩ := ih hrest ha
      refine ⟨b', front, behind, hb', ?_, hread, hdrop⟩
      rw [List.take_succ_cons, List.take_succ_cons]
      exact readAll_cons_eq_some.mpr ⟨b, middle, _, hfirst, htake, rfl⟩

/-- What an optional part is read as comes from the part. -/
theorem exists_of_readOption {read : α → Option β} {t : Option α} {r : Option β}
    (h : readOption read t = some r) : ∀ b ∈ r, ∃ a, t = some a ∧ read a = some b := by
  intro b hb
  cases t with
  | none =>
    obtain rfl := Option.some.inj h
    cases hb
  | some a =>
    obtain ⟨b', hb', rfl⟩ := Option.map_eq_some_iff.mp h
    obtain rfl := Option.some.inj hb
    exact ⟨a, rfl, hb'⟩

end Items

variable {names later : Names} {scope : Scope}

/-! ### Expressions -/

/-- A place is read if its root names a slot and its path leads from the type of that slot to
another type. -/
theorem PlaceTree.reading_eq_some {t : PlaceTree} {p : Place}
    (h : t.reading names scope = some p) :
    ∃ slot rootType constant type, names.resolve scope t.root.lexeme = some slot ∧
      names.slotType? scope slot = some (rootType, constant) ∧
      names.fieldType? rootType t.path = some type ∧ p = ⟨t.root.lexeme, t.path, slot, type⟩ := by
  obtain ⟨slot, hslot, hread⟩ := Option.bind_eq_some_iff.mp h
  obtain ⟨⟨rootType, constant⟩, htype, hread⟩ := Option.bind_eq_some_iff.mp hread
  obtain ⟨type, hfield, hread⟩ := Option.bind_eq_some_iff.mp hread
  exact ⟨slot, rootType, constant, type, hslot, htype, hfield, (Option.some.inj hread).symm⟩

namespace ExprTree

/-- A location that is read as a variable has no name of a procedure. -/
theorem variableReading_eq_some {place : PlaceTree} {p : Place}
    (h : variableReading names scope place = some p) :
    names.procedure? place.root.value = none ∧ place.reading names scope = some p := by
  rw [variableReading] at h
  split at h
  · cases h
  · rename_i hnone
    exact ⟨by simpa using hnone, h⟩

/-- A call is read if its name is that of a procedure whose parameters are supplied. -/
theorem callReading_eq_some {name : Name} {given : List (Option Expr)} {e : Expr}
    (h : callReading names name given = some e) :
    ∃ ordinal p arguments, names.procedure? name.value = some ordinal ∧
      names.procedures[ordinal]? = some p ∧ supplied p.parameters given = some arguments ∧
      e = .call ordinal name.lexeme arguments name.token.line := by
  obtain ⟨ordinal, hordinal, hread⟩ := Option.bind_eq_some_iff.mp h
  obtain ⟨p, hp, hread⟩ := Option.bind_eq_some_iff.mp hread
  obtain ⟨arguments, harguments, hread⟩ := Option.bind_eq_some_iff.mp hread
  exact ⟨ordinal, p, arguments, hordinal, hp, harguments, (Option.some.inj hread).symm⟩

variable {e : Expr}

/-- A negation is read if its operand is, and keeps the line of its minus sign. -/
theorem reading_negate {minus : Punct .minus} {inner : ExprTree .operand}
    (h : (negate minus inner).reading names scope = some e) :
    ∃ e', inner.reading names scope = some e' ∧ e = .negate e' minus.token.line := by
  obtain ⟨e', he', hread⟩ := Option.bind_eq_some_iff.mp h
  exact ⟨e', he', (Option.some.inj hread).symm⟩

/-- Parentheses are read if the chain inside is. -/
theorem reading_group {opening : Punct .leftParen} {inner : ExprTree .chain}
    {closing : Punct .rightParen}
    (h : (group opening inner closing).reading names scope = some e) :
    ∃ e', inner.reading names scope = some e' ∧ e = .group e' := by
  obtain ⟨e', he', hread⟩ := Option.bind_eq_some_iff.mp h
  exact ⟨e', he', (Option.some.inj hread).symm⟩

/-- A mark in front of a place is read if the place is and may be written. -/
theorem reading_bumpBefore {mark : Leaf Kind.bump?} {place : PlaceTree}
    (h : (bumpBefore mark place).reading names scope = some e) :
    ∃ p, place.reading names scope = some p ∧ writable names scope p = true ∧
      e = .bump p mark.value true mark.token.line := by
  obtain ⟨p, hp, hread⟩ := Option.bind_eq_some_iff.mp h
  split at hread
  · rename_i hwritable
    exact ⟨p, hp, hwritable, (Option.some.inj hread).symm⟩
  · cases hread

/-- A place in operand position is read as a variable. -/
theorem reading_read {place : PlaceTree} (h : (read place).reading names scope = some e) :
    ∃ p, variableReading names scope place = some p ∧ e = .read p := by
  obtain ⟨p, hp, hread⟩ := Option.bind_eq_some_iff.mp h
  exact ⟨p, hp, (Option.some.inj hread).symm⟩

/-- A mark behind a place is read if the place is a variable that may be written. -/
theorem reading_bumpAfter {place : PlaceTree} {mark : Leaf Kind.bump?}
    (h : (bumpAfter place mark).reading names scope = some e) :
    ∃ p, variableReading names scope place = some p ∧ writable names scope p = true ∧
      e = .bump p mark.value false mark.token.line := by
  obtain ⟨p, hp, hread⟩ := Option.bind_eq_some_iff.mp h
  split at hread
  · rename_i hwritable
    exact ⟨p, hp, hwritable, (Option.some.inj hread).symm⟩
  · cases hread

/-- A chain is read if its operands are, and extended from the left. -/
theorem reading_chain {first : ExprTree .operand} {rest : ExprTree .links}
    (h : (chain first rest).reading names scope = some e) :
    ∃ e' links, first.reading names scope = some e' ∧ rest.reading names scope = some links ∧
      e = List.foldl Link.extend e' links := by
  obtain ⟨e', he', hread⟩ := Option.bind_eq_some_iff.mp h
  obtain ⟨links, hlinks, hread⟩ := Option.bind_eq_some_iff.mp hread
  exact ⟨e', links, he', hlinks, (Option.some.inj hread).symm⟩

/-- A chain behind an assignment is read if its operands are; each of them is a step of the
assignment. -/
theorem assigned_chain {first : ExprTree .operand} {rest : ExprTree .links} {target : Place}
    {op : Option Arithmetic} {line : Nat}
    (h : (chain first rest).assigned names scope target op line = some e) :
    ∃ e' links, first.reading names scope = some e' ∧ rest.reading names scope = some links ∧
      e = .assign target (⟨op, e', line⟩ :: List.map Link.step links) := by
  obtain ⟨e', he', hread⟩ := Option.bind_eq_some_iff.mp h
  obtain ⟨links, hlinks, hread⟩ := Option.bind_eq_some_iff.mp hread
  exact ⟨e', links, he', hlinks, (Option.some.inj hread).symm⟩

/-- The first operand behind an operation, and the others. -/
theorem reading_link {op : Leaf Kind.arithmetic?} {operand : ExprTree .operand}
    {rest : ExprTree .links} {links : List Link}
    (h : (link op operand rest).reading names scope = some links) :
    ∃ e links', operand.reading names scope = some e ∧ rest.reading names scope = some links' ∧
      links = ⟨op.value, e, op.token.line⟩ :: links' := by
  obtain ⟨e, he, hread⟩ := Option.bind_eq_some_iff.mp h
  obtain ⟨links', hlinks', hread⟩ := Option.bind_eq_some_iff.mp hread
  exact ⟨e, links', he, hlinks', (Option.some.inj hread).symm⟩

/-- A position that is filled is read if its chain is. -/
theorem reading_filled {value : ExprTree .chain} {r : Option Expr}
    (h : (filled value).reading names scope = some r) :
    ∃ e, value.reading names scope = some e ∧ r = some e := by
  obtain ⟨e, he, hread⟩ := Option.bind_eq_some_iff.mp h
  exact ⟨e, he, (Option.some.inj hread).symm⟩

/-- The first position of a call, and the others. -/
theorem reading_position {comma : Punct .comma} {first : ExprTree .position}
    {rest : ExprTree .positions} {given : List (Option Expr)}
    (h : (position comma first rest).reading names scope = some given) :
    ∃ r given', first.reading names scope = some r ∧ rest.reading names scope = some given' ∧
      given = r :: given' := by
  obtain ⟨r, hr, hread⟩ := Option.bind_eq_some_iff.mp h
  obtain ⟨given', hgiven', hread⟩ := Option.bind_eq_some_iff.mp hread
  exact ⟨r, given', hr, hgiven', (Option.some.inj hread).symm⟩

end ExprTree

/-! ### Conditions -/

/-- A term is read if its chains are, and turned around if there is an odd number of `!` in front.
-/
theorem TermTree.reading_eq_some {t : TermTree} {r : Term}
    (h : t.reading names scope = some r) :
    ∃ left comparison, t.left.reading names scope = some left ∧
      comparisonReading names scope t.comparison = some comparison ∧
      r = ⟨t.bangs.length % 2 == 1, left, comparison, firstLine t.yield⟩ := by
  obtain ⟨left, hleft, hread⟩ := Option.bind_eq_some_iff.mp h
  obtain ⟨comparison, hcomparison, hread⟩ := Option.bind_eq_some_iff.mp hread
  exact ⟨left, comparison, hleft, hcomparison, (Option.some.inj hread).symm⟩

/-- A comparison that is read has a right side. -/
theorem TermTree.exists_of_comparisonReading
    {comparison : Option (Leaf Kind.comparison? × ExprTree .chain)}
    {r : Option (Comparison × Expr)} (h : comparisonReading names scope comparison = some r) :
    ∀ c ∈ r, ∃ mark right, comparison = some (mark, right) ∧ c.1 = mark.value ∧
      right.reading names scope = some c.2 := by
  intro c hc
  cases comparison with
  | none =>
    obtain rfl := Option.some.inj h
    cases hc
  | some side =>
    obtain ⟨e, he, hread⟩ := Option.bind_eq_some_iff.mp h
    obtain rfl := Option.some.inj hread
    obtain rfl := Option.some.inj hc
    exact ⟨side.1, side.2, rfl, rfl, he⟩

/-- A condition is read if its terms are. -/
theorem ConditionTree.reading_eq_some {t : ConditionTree} {r : Condition}
    (h : t.reading names scope = some r) :
    t.first.reading names scope = some r.first ∧
      t.rest.mapM (laterReading names scope) = some r.rest := by
  obtain ⟨first, hfirst, hread⟩ := Option.bind_eq_some_iff.mp h
  obtain ⟨rest, hrest, hread⟩ := Option.bind_eq_some_iff.mp hread
  obtain rfl := Option.some.inj hread
  exact ⟨hfirst, hrest⟩

/-- A term behind a connective is read if the term is. -/
theorem ConditionTree.laterReading_eq_some {t : Leaf Kind.connective? × TermTree}
    {r : Connective × Term} (h : laterReading names scope t = some r) :
    ∃ term, t.2.reading names scope = some term ∧ r = (t.1.value, term) := by
  obtain ⟨term, hterm, hread⟩ := Option.bind_eq_some_iff.mp h
  exact ⟨term, hterm, (Option.some.inj hread).symm⟩

/-- An assignment is read if its target is a variable that may be written and its chain can be
assigned. -/
theorem StmtExprTree.reading_assign {target : PlaceTree} {mark : Leaf Kind.assignment?}
    {value : ExprTree .chain} {e : Expr}
    (h : (assign target mark value).reading names scope = some e) :
    ∃ p, ExprTree.variableReading names scope target = some p ∧ writable names scope p = true ∧
      value.assigned names scope p mark.value mark.token.line = some e := by
  obtain ⟨p, hp, hread⟩ := Option.bind_eq_some_iff.mp h
  split at hread
  · rename_i hwritable
    exact ⟨p, hp, hwritable, hread⟩
  · cases hread

/-! ### Declarations -/

/-- The initial value is read when the name is declared already. -/
theorem DeclaratorTree.reading_eq_some {t : DeclaratorTree} {type : CellType} {d : Declarator}
    (h : t.reading scope type names = some (d, later)) :
    ∃ slot initial, names.declare scope ⟨t.name.lexeme, type, false⟩ = some (slot, later) ∧
      initialReading later scope ⟨t.name.lexeme, [], slot, type⟩ t.initial = some initial ∧
      d = ⟨⟨t.name.lexeme, [], slot, type⟩, initial⟩ := by
  obtain ⟨⟨slot, opened⟩, hdeclare, hread⟩ := Option.bind_eq_some_iff.mp h
  obtain ⟨initial, hinitial, hread⟩ := Option.bind_eq_some_iff.mp hread
  obtain ⟨rfl, rfl⟩ := Prod.mk.inj (Option.some.inj hread)
  exact ⟨slot, initial, hdeclare, hinitial, rfl⟩

/-- Only a scalar has an initial value, and that is an assignment. -/
theorem DeclaratorTree.exists_of_initialReading {target : Place}
    {initial : Option (Punct .equal × ExprTree .chain)} {r : Option Expr}
    (h : initialReading names scope target initial = some r) :
    ∀ e ∈ r, ∃ mark chain t, initial = some (mark, chain) ∧ target.type = .scalar t ∧
      chain.assigned names scope target none mark.token.line = some e := by
  intro e he
  cases initial with
  | none =>
    obtain rfl := Option.some.inj h
    cases he
  | some initial =>
    obtain ⟨mark, chain⟩ := initial
    simp only [initialReading] at h
    split at h
    · cases h
    · rename_i t htype
      obtain ⟨e', he', h⟩ := Option.bind_eq_some_iff.mp h
      obtain rfl := Option.some.inj h
      obtain rfl := Option.some.inj he
      exact ⟨mark, chain, t, rfl, htype, he'⟩

/-! ### Statements -/

namespace StmtTree

variable {s : Stmt}

/-- A declaration is read if its type is known and its names are read. -/
theorem reading_declare {type : TypeTree} {vars : DeclaratorsTree}
    (h : (declare type vars).reading scope names = some (s, later)) :
    ∃ cell ds, type.reading names = some cell ∧
      vars.reading scope cell names = some (ds, later) ∧ s = .declare ds := by
  obtain ⟨cell, hcell, hread⟩ := Option.bind_eq_some_iff.mp h
  obtain ⟨⟨ds, middle⟩, hvars, hread⟩ := Option.bind_eq_some_iff.mp hread
  obtain ⟨rfl, rfl⟩ := Prod.mk.inj (Option.some.inj hread)
  exact ⟨cell, ds, hcell, hvars, rfl⟩

/-- A print statement is read if its arguments are. -/
theorem reading_print {template : Leaf Kind.quoted?}
    {arguments : List (Punct .comma × ExprTree .chain)} {semicolon : Punct .semicolon}
    (h : (print template arguments semicolon).reading scope names = some (s, later)) :
    ∃ es, (arguments.mapM fun a => a.2.reading names scope) = some es ∧ names = later ∧
      s = .print template.value es template.token.line := by
  obtain ⟨es, hes, hread⟩ := Option.bind_eq_some_iff.mp h
  obtain ⟨rfl, rfl⟩ := Prod.mk.inj (Option.some.inj hread)
  exact ⟨es, hes, rfl, rfl⟩

/-- A loop is read if the parts of its head that are there are, and its body. -/
theorem reading_loop {word : Word .loop} {opening : Punct .leftParen}
    {initial step : Option StmtExprTree} {first second : Punct .semicolon}
    {test : Option ConditionTree} {closing : Punct .rightParen} {body : StmtTree .body}
    (h : (loop word opening initial first test second step closing body).reading scope names =
      some (s, later)) :
    ∃ initial' test' step' body',
      readOption (StmtExprTree.reading names scope) initial = some initial' ∧
      readOption (ConditionTree.reading names scope) test = some test' ∧
      readOption (StmtExprTree.reading names scope) step = some step' ∧
      body.reading scope names = some (body', later) ∧ s = .loop initial' test' step' body' := by
  obtain ⟨initial', hinitial, hread⟩ := Option.bind_eq_some_iff.mp h
  obtain ⟨test', htest, hread⟩ := Option.bind_eq_some_iff.mp hread
  obtain ⟨step', hstep, hread⟩ := Option.bind_eq_some_iff.mp hread
  obtain ⟨⟨body', middle⟩, hbody, hread⟩ := Option.bind_eq_some_iff.mp hread
  obtain ⟨rfl, rfl⟩ := Prod.mk.inj (Option.some.inj hread)
  exact ⟨initial', test', step', body', hinitial, htest, hstep, hbody, rfl⟩

/-- A branch without a second body is read if its test and its body are. -/
theorem reading_branch {word : Word .branch} {opening : Punct .leftParen} {test : ConditionTree}
    {closing : Punct .rightParen} {yes : StmtTree .body}
    (h : (branch word opening test closing yes).reading scope names = some (s, later)) :
    ∃ test' yes', test.reading names scope = some test' ∧
      yes.reading scope names = some (yes', later) ∧ s = .branch test' yes' none := by
  obtain ⟨test', htest, hread⟩ := Option.bind_eq_some_iff.mp h
  obtain ⟨⟨yes', middle⟩, hyes, hread⟩ := Option.bind_eq_some_iff.mp hread
  obtain ⟨rfl, rfl⟩ := Prod.mk.inj (Option.some.inj hread)
  exact ⟨test', yes', htest, hyes, rfl⟩

/-- The first body does not end in a branch that could take the `else`. -/
theorem reading_branchElse {word : Word .branch} {opening : Punct .leftParen}
    {test : ConditionTree} {closing : Punct .rightParen} {yes : StmtTree .body}
    {otherwise : Word .otherwise} {no : StmtTree .body}
    (h : (branchElse word opening test closing yes otherwise no).reading scope names =
      some (s, later)) :
    ¬ yes.dangles = true ∧ ∃ test' yes' between no', test.reading names scope = some test' ∧
      yes.reading scope names = some (yes', between) ∧
      no.reading scope between = some (no', later) ∧ s = .branch test' yes' (some no') := by
  rw [reading] at h
  split at h
  · cases h
  · rename_i hclosed
    obtain ⟨test', htest, hread⟩ := Option.bind_eq_some_iff.mp h
    obtain ⟨⟨yes', between⟩, hyes, hread⟩ := Option.bind_eq_some_iff.mp hread
    obtain ⟨⟨no', middle⟩, hno, hread⟩ := Option.bind_eq_some_iff.mp hread
    obtain ⟨rfl, rfl⟩ := Prod.mk.inj (Option.some.inj hread)
    exact ⟨hclosed, test', yes', between, no', htest, hyes, hno, rfl⟩

/-- A return is read inside of a procedure, if its value is or if it has none. -/
theorem reading_giveBack {word : Word .giveBack} {value : Option (ExprTree .chain)}
    {semicolon : Punct .semicolon}
    (h : (giveBack word value semicolon).reading scope names = some (s, later)) :
    ¬ scope = .top ∧ ∃ value', readOption (ExprTree.reading names scope) value = some value' ∧
      names = later ∧ s = .giveBack value' word.token.line := by
  rw [reading] at h
  split at h
  · cases h
  · rename_i hscope
    obtain ⟨value', hvalue, hread⟩ := Option.bind_eq_some_iff.mp h
    obtain ⟨rfl, rfl⟩ := Prod.mk.inj (Option.some.inj hread)
    exact ⟨hscope, value', hvalue, rfl, rfl⟩

/-- The first token begins no other statement. -/
theorem reading_expr {e : StmtExprTree} {semicolon : Punct .semicolon}
    (h : (expr e semicolon).reading scope names = some (s, later)) :
    (e.yield.head?.any fun t => opensExpression names t.kind) = true ∧
      ∃ e', e.reading names scope = some e' ∧ names = later ∧ s = .expr e' := by
  rw [reading] at h
  split at h
  · rename_i hopens
    obtain ⟨e', he, hread⟩ := Option.bind_eq_some_iff.mp h
    obtain ⟨rfl, rfl⟩ := Prod.mk.inj (Option.some.inj hread)
    exact ⟨hopens, e', he, rfl, rfl⟩
  · cases h

/-- A body without braces is read if its statement is. -/
theorem reading_single {t : StmtTree .statement} {ss : List Stmt}
    (h : (single t).reading scope names = some (ss, later)) :
    ∃ s, t.reading scope names = some (s, later) ∧ ss = [s] := by
  obtain ⟨⟨s, middle⟩, hs, hread⟩ := Option.bind_eq_some_iff.mp h
  obtain ⟨rfl, rfl⟩ := Prod.mk.inj (Option.some.inj hread)
  exact ⟨s, hs, rfl⟩

/-- The first of some statements, and the others under the tables that it leaves. -/
theorem reading_statement {first : StmtTree .statement} {rest : StmtTree .statements}
    {ss : List Stmt} (h : (statement first rest).reading scope names = some (ss, later)) :
    ∃ s middle ss', first.reading scope names = some (s, middle) ∧
      rest.reading scope middle = some (ss', later) ∧ ss = s :: ss' := by
  obtain ⟨⟨s, middle⟩, hs, hread⟩ := Option.bind_eq_some_iff.mp h
  obtain ⟨⟨ss', last⟩, hss, hread⟩ := Option.bind_eq_some_iff.mp hread
  obtain ⟨rfl, rfl⟩ := Prod.mk.inj (Option.some.inj hread)
  exact ⟨s, middle, ss', hs, hss, rfl⟩

end StmtTree

/-! ### Items -/

/-- The parameters of a procedure are read one by one, and have different names. -/
theorem ParameterTree.readingAll_some {first : ParameterTree}
    {rest : List (Punct .comma × ParameterTree)} {ps : List Parameter}
    (h : readingAll (some (first, rest)) = some ps) :
    (first :: rest.map (·.2)).mapM reading = some ps ∧ (ps.map (·.name)).Nodup := by
  obtain ⟨all, hall, hread⟩ := Option.bind_eq_some_iff.mp h
  split at hread
  · rename_i hnodup
    obtain rfl := Option.some.inj hread
    exact ⟨hall, hnodup⟩
  · cases hread

namespace ItemTree

variable {s : Stmt} {name : Name}

/-- A procedure is declared before its body is read, and has its locals from there. -/
theorem reading_procedure {type : Leaf Kind.scalar?} {opening : Punct .leftParen}
    {parameters : Option (ParameterTree × List (Punct .comma × ParameterTree))}
    {closing : Punct .rightParen} {begins : Punct .leftBrace} {body : StmtTree .statements}
    {ends : Punct .rightBrace}
    (h : (procedure type name opening parameters closing begins body ends).reading names =
      some (s, later)) :
    ∃ ps ordinal opened body' p, ParameterTree.readingAll parameters = some ps ∧
      names.declareProcedure ⟨name.lexeme, type.value, ps, []⟩ = some (ordinal, opened) ∧
      body.reading (.procedure ordinal) opened = some (body', later) ∧
      later.procedures[ordinal]? = some p ∧
      s = .procedure ⟨ordinal, name.lexeme, type.value, ps.map (·.type), p.locals.map (·.type),
        body'⟩ := by
  obtain ⟨ps, hps, hread⟩ := Option.bind_eq_some_iff.mp h
  obtain ⟨⟨ordinal, opened⟩, hdeclare, hread⟩ := Option.bind_eq_some_iff.mp hread
  obtain ⟨⟨body', closed⟩, hbody, hread⟩ := Option.bind_eq_some_iff.mp hread
  obtain ⟨p, hp, hread⟩ := Option.bind_eq_some_iff.mp hread
  obtain ⟨rfl, rfl⟩ := Prod.mk.inj (Option.some.inj hread)
  exact ⟨ps, ordinal, opened, body', p, hps, hdeclare, hbody, hp, rfl⟩

/-- A class is read if its fields are and its name can be entered. -/
theorem reading_classDef {word : Word .classDef} {opening : Punct .leftBrace}
    {groups : List FieldGroupTree} {closing : Punct .rightBrace} {semicolon : Punct .semicolon}
    (h : (classDef word name opening groups closing semicolon).reading names = some (s, later)) :
    ∃ fields number, FieldGroupTree.readingAll names groups = some fields ∧
      names.declareClass ⟨name.lexeme, fields⟩ = some (number, later) ∧
      s = .classDef number [] := by
  obtain ⟨fields, hfields, hread⟩ := Option.bind_eq_some_iff.mp h
  obtain ⟨⟨number, opened⟩, hclass, hread⟩ := Option.bind_eq_some_iff.mp hread
  obtain ⟨rfl, rfl⟩ := Prod.mk.inj (Option.some.inj hread)
  exact ⟨fields, number, hfields, hclass, rfl⟩

/-- A class with objects behind it is read if the objects are, once the class has been entered. -/
theorem reading_classDefWith {word : Word .classDef} {opening : Punct .leftBrace}
    {groups : List FieldGroupTree} {closing : Punct .rightBrace} {vars : DeclaratorsTree}
    (h : (classDefWith word name opening groups closing vars).reading names = some (s, later)) :
    ∃ fields number opened ds, FieldGroupTree.readingAll names groups = some fields ∧
      names.declareClass ⟨name.lexeme, fields⟩ = some (number, opened) ∧
      vars.reading .top (.object number) opened = some (ds, later) ∧ s = .classDef number ds := by
  obtain ⟨fields, hfields, hread⟩ := Option.bind_eq_some_iff.mp h
  obtain ⟨⟨number, opened⟩, hclass, hread⟩ := Option.bind_eq_some_iff.mp hread
  obtain ⟨⟨ds, middle⟩, hvars, hread⟩ := Option.bind_eq_some_iff.mp hread
  obtain ⟨rfl, rfl⟩ := Prod.mk.inj (Option.some.inj hread)
  exact ⟨fields, number, opened, ds, hfields, hclass, hvars, rfl⟩

/-- A constant is read if its literal is and its name can be entered. -/
theorem reading_define {directive : Leaf Kind.define?} {value : LiteralTree}
    {semicolon : Option (Punct .semicolon)}
    (h : (define directive name value semicolon).reading names = some (s, later)) :
    ∃ v slot, value.reading = some v ∧
      names.declare .top ⟨name.lexeme, .scalar (constantType v), true⟩ = some (slot, later) ∧
      s = .declare [⟨⟨name.lexeme, [], slot, .scalar (constantType v)⟩,
        some (.assign ⟨name.lexeme, [], slot, .scalar (constantType v)⟩
          [⟨none, .literal v, name.token.line⟩])⟩] := by
  obtain ⟨v, hv, hread⟩ := Option.bind_eq_some_iff.mp h
  obtain ⟨⟨slot, opened⟩, hdeclare, hread⟩ := Option.bind_eq_some_iff.mp hread
  obtain ⟨rfl, rfl⟩ := Prod.mk.inj (Option.some.inj hread)
  exact ⟨v, slot, hv, hdeclare, rfl⟩

end ItemTree

end Grammar

end Litany
