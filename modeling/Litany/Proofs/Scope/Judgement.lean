import Litany.Proofs.Scope.Tables
import Litany.Syntax.Stmt

/-!
# Well-scoped programs

What it means for a program to agree with the tables it was parsed under. The judgements follow
the program in the order it is written and carry the tables along: an expression is judged under
the tables in front of it, a list of statements leads from the tables in front of it to those
behind it. So a slot is one of those handed out up to that point, and a call is of a procedure
registered before it.

A judgement about an expression survives every later declaration (`Expr.Scoped.mono`).
-/

namespace Litany

/-! ### Expressions -/

/-- A location is well scoped if its slot is handed out under the name of its root, and its type is
that of the slot, followed through the fields of its path. -/
structure Place.Scoped (names : Names) (scope : Scope) (p : Place) : Prop where
  bound : names.Bound scope p.slot
  name : names.slotName? scope p.slot = some p.root
  type : ∃ rootType constant, names.slotType? scope p.slot = some (rootType, constant) ∧
    names.fieldType? rootType p.path = some p.type

/-- An expression is well scoped if its locations are, and every call names a registered procedure
and has one argument for each of its parameters. Only scalars are written. -/
inductive Expr.Scoped (names : Names) (scope : Scope) : Expr → Prop where
  | literal (v : Value) : Scoped names scope (.literal v)
  | read {place : Place} (hplace : place.Scoped names scope) : Scoped names scope (.read place)
  | call {ordinal : Nat} {name : String} {arguments : List Expr} {p : Signature} (line : Nat)
      (hp : names.procedures[ordinal]? = some p) (hname : p.name = name)
      (hlength : arguments.length = p.parameters.length)
      (harguments : ∀ e ∈ arguments, Scoped names scope e) :
      Scoped names scope (.call ordinal name arguments line)
  | negate {operand : Expr} (line : Nat) (hoperand : Scoped names scope operand) :
      Scoped names scope (.negate operand line)
  | group {inner : Expr} (hinner : Scoped names scope inner) : Scoped names scope (.group inner)
  | binary {left right : Expr} (op : Arithmetic) (line : Nat) (hleft : Scoped names scope left)
      (hright : Scoped names scope right) : Scoped names scope (.binary left op right line)
  | assign {target : Place} {steps : List (Step Expr)} {t : Scalar}
      (htarget : target.Scoped names scope) (htype : target.type = .scalar t)
      (hsteps : ∀ step ∈ steps, Scoped names scope step.operand) :
      Scoped names scope (.assign target steps)
  | bump {target : Place} {t : Scalar} (up after : Bool) (line : Nat)
      (htarget : target.Scoped names scope) (htype : target.type = .scalar t) :
      Scoped names scope (.bump target up after line)

/-- A term is well scoped if both its sides are. -/
structure Term.Scoped (names : Names) (scope : Scope) (t : Term) : Prop where
  left : t.left.Scoped names scope
  right : ∀ c ∈ t.comparison, c.2.Scoped names scope

/-- A condition is well scoped if all its terms are. -/
structure Condition.Scoped (names : Names) (scope : Scope) (c : Condition) : Prop where
  first : c.first.Scoped names scope
  rest : ∀ t ∈ c.rest, t.2.Scoped names scope

/-! ### Statements -/

/-- A declared name is the variable itself, newly handed out; its initial value is judged when the
name is declared already. -/
structure Declarator.Scoped (scope : Scope) (names : Names) (d : Declarator) (later : Names) :
    Prop where
  declared : ∃ constant,
    names.declare scope ⟨d.target.root, d.target.type, constant⟩ = some (d.target.slot, later)
  target : d.target.Scoped later scope
  whole : d.target.path = []
  initial : ∀ e ∈ d.initial, e.Scoped later scope

/-- Declared names, each under the tables that the one before leaves. -/
inductive Declarator.ScopedAll (scope : Scope) : Names → List Declarator → Names → Prop where
  | nil (names : Names) : ScopedAll scope names [] names
  | cons {names middle later : Names} {d : Declarator} {rest : List Declarator}
      (hfirst : d.Scoped scope names middle) (hrest : ScopedAll scope middle rest later) :
      ScopedAll scope names (d :: rest) later

/-- Statements in one scope, each under the tables that the one before leaves. Procedures and
classes are no such statements, and a return stands only in a procedure. -/
inductive Stmt.ScopedAll (scope : Scope) : Names → List Stmt → Names → Prop where
  | nil (names : Names) : ScopedAll scope names [] names
  | expr {names later : Names} {e : Expr} {rest : List Stmt} (he : e.Scoped names scope)
      (hrest : ScopedAll scope names rest later) : ScopedAll scope names (.expr e :: rest) later
  | declare {names middle later : Names} {vars : List Declarator} {rest : List Stmt}
      (hvars : Declarator.ScopedAll scope names vars middle)
      (hrest : ScopedAll scope middle rest later) :
      ScopedAll scope names (.declare vars :: rest) later
  | print {names later : Names} {arguments : List Expr} {rest : List Stmt} (template : String)
      (line : Nat) (harguments : ∀ e ∈ arguments, e.Scoped names scope)
      (hrest : ScopedAll scope names rest later) :
      ScopedAll scope names (.print template arguments line :: rest) later
  | loop {names middle later : Names} {initial : Option Expr} {test : Option Condition}
      {step : Option Expr} {body rest : List Stmt} (hinitial : ∀ e ∈ initial, e.Scoped names scope)
      (htest : ∀ c ∈ test, c.Scoped names scope) (hstep : ∀ e ∈ step, e.Scoped names scope)
      (hbody : ScopedAll scope names body middle) (hrest : ScopedAll scope middle rest later) :
      ScopedAll scope names (.loop initial test step body :: rest) later
  | branch {names middle later : Names} {test : Condition} {yes rest : List Stmt}
      (htest : test.Scoped names scope) (hyes : ScopedAll scope names yes middle)
      (hrest : ScopedAll scope middle rest later) :
      ScopedAll scope names (.branch test yes none :: rest) later
  | branchElse {names between middle later : Names} {test : Condition} {yes no rest : List Stmt}
      (htest : test.Scoped names scope) (hyes : ScopedAll scope names yes between)
      (hno : ScopedAll scope between no middle) (hrest : ScopedAll scope middle rest later) :
      ScopedAll scope names (.branch test yes (some no) :: rest) later
  | giveBack {names later : Names} {value : Option Expr} {rest : List Stmt} (line : Nat)
      (hscope : scope ≠ .top) (hvalue : ∀ e ∈ value, e.Scoped names scope)
      (hrest : ScopedAll scope names rest later) :
      ScopedAll scope names (.giveBack value line :: rest) later
  | foreign {names later : Names} {rest : List Stmt} (code : String) (line : Nat)
      (hrest : ScopedAll scope names rest later) :
      ScopedAll scope names (.foreign code line :: rest) later

/-! ### Programs -/

/-- A procedure is registered before its body is judged, in its own scope. It records the types of
its parameters and of all locals that its body declares. -/
structure ProcedureOf.Scoped (names : Names) (p : Procedure) (later : Names) : Prop where
  body : ∃ parameters opened,
    names.declareProcedure ⟨p.name, p.returns, parameters, []⟩ = some (p.ordinal, opened) ∧
      Stmt.ScopedAll (.procedure p.ordinal) opened p.body later
  signature : ∃ signature, later.procedures[p.ordinal]? = some signature ∧
    signature.name = p.name ∧ signature.returns = p.returns ∧
    signature.parameters.map (·.type) = p.parameters ∧ signature.locals.map (·.type) = p.locals

/-- The items of a program, each under the tables that the one before leaves. -/
inductive Program.Scoped : Names → List Stmt → Names → Prop where
  | nil (names : Names) : Scoped names [] names
  | procedure {names middle later : Names} {p : Procedure} {rest : List Stmt}
      (hp : p.Scoped names middle) (hrest : Scoped middle rest later) :
      Scoped names (.procedure p :: rest) later
  | classDef {names opened middle later : Names} {shape : ClassShape} {number : Nat}
      {vars : List Declarator} {rest : List Stmt}
      (hclass : names.declareClass shape = some (number, opened))
      (hvars : Declarator.ScopedAll .top opened vars middle) (hrest : Scoped middle rest later) :
      Scoped names (.classDef number vars :: rest) later
  | statement {names middle later : Names} {s : Stmt} {rest : List Stmt}
      (hs : Stmt.ScopedAll .top names [s] middle) (hrest : Scoped middle rest later) :
      Scoped names (s :: rest) later

/-! ### Later declarations change nothing -/

section Growth

variable {names later : Names} {scope : Scope}

/-- A location stays well scoped. -/
theorem Place.Scoped.mono {p : Place} (h : p.Scoped names scope) (hgrows : names.Grows later) :
    p.Scoped later scope := by
  obtain ⟨rootType, constant, htype, hfield⟩ := h.type
  have hname := hgrows.slotName? h.name
  exact ⟨Names.bound_of_slotName? hname, hname, rootType, constant, hgrows.slotType? htype,
    hgrows.fieldType? hfield⟩

/-- An expression stays well scoped. -/
theorem Expr.Scoped.mono {e : Expr} (h : e.Scoped names scope) (hgrows : names.Grows later) :
    e.Scoped later scope := by
  induction h with
  | literal v => exact .literal v
  | read hplace => exact .read (hplace.mono hgrows)
  | call line hp hname hlength _ ih =>
    obtain ⟨q, hq, hpq⟩ := hgrows.procedures hp
    exact .call line hq (hpq.name.trans hname) (by rw [hpq.parameters]; exact hlength) ih
  | negate line _ ih => exact .negate line ih
  | group _ ih => exact .group ih
  | binary op line _ _ ihleft ihright => exact .binary op line ihleft ihright
  | assign htarget htype _ ih => exact .assign (htarget.mono hgrows) htype ih
  | bump up after line htarget htype => exact .bump up after line (htarget.mono hgrows) htype

theorem Term.Scoped.mono {t : Term} (h : t.Scoped names scope) (hgrows : names.Grows later) :
    t.Scoped later scope :=
  ⟨h.left.mono hgrows, fun c hc => (h.right c hc).mono hgrows⟩

theorem Condition.Scoped.mono {c : Condition} (h : c.Scoped names scope)
    (hgrows : names.Grows later) : c.Scoped later scope :=
  ⟨h.first.mono hgrows, fun t ht => (h.rest t ht).mono hgrows⟩

/-! ### What is declared on the way -/

theorem Declarator.ScopedAll.declares {ds : List Declarator}
    (h : ScopedAll scope names ds later) : Names.Declares scope names later := by
  induction h with
  | nil names => exact .refl names
  | cons hfirst _ ih =>
    obtain ⟨constant, hdeclared⟩ := hfirst.declared
    exact .step hdeclared ih

/-- Statements declare variables of their own scope and nothing else. -/
theorem Stmt.ScopedAll.declares {ss : List Stmt} (h : ScopedAll scope names ss later) :
    Names.Declares scope names later := by
  induction h with
  | nil names => exact .refl names
  | expr _ _ ih | print _ _ _ _ ih | giveBack _ _ _ _ ih | foreign _ _ _ ih => exact ih
  | declare hvars _ ih => exact hvars.declares.trans ih
  | loop _ _ _ _ _ ihbody ih => exact ihbody.trans ih
  | branch _ _ _ ihyes ih => exact ihyes.trans ih
  | branchElse _ _ _ _ ihyes ihno ih => exact ihyes.trans (ihno.trans ih)

theorem ProcedureOf.Scoped.extends {p : Procedure} (h : p.Scoped names later) :
    names.Extends later := by
  obtain ⟨parameters, opened, hdeclare, hbody⟩ := h.body
  exact Names.extends_of_procedure hdeclare hbody.declares

/-- A procedure and its body add one entry, under its ordinal. -/
theorem ProcedureOf.Scoped.length {p : Procedure} (h : p.Scoped names later) :
    p.ordinal = names.procedures.length ∧
      later.procedures.length = names.procedures.length + 1 := by
  obtain ⟨parameters, opened, hdeclare, hbody⟩ := h.body
  obtain ⟨hordinal, rfl⟩ := Names.declareProcedure_eq_some hdeclare
  obtain ⟨-, -, hlength, -⟩ := hbody.declares.procedure
  exact ⟨hordinal, by rw [hlength, List.length_append, List.length_singleton]⟩

/-- A procedure declares neither a global nor a class. -/
theorem ProcedureOf.Scoped.globals_classes {p : Procedure} (h : p.Scoped names later) :
    later.globals = names.globals ∧ later.classes = names.classes := by
  obtain ⟨parameters, opened, hdeclare, hbody⟩ := h.body
  obtain ⟨-, rfl⟩ := Names.declareProcedure_eq_some hdeclare
  obtain ⟨hglobals, hclasses, -⟩ := hbody.declares.procedure
  exact ⟨hglobals, hclasses⟩

/-- A program only adds entries behind those of the tables. -/
theorem Program.Scoped.extends {ss : List Stmt} (h : Program.Scoped names ss later) :
    names.Extends later := by
  induction h with
  | nil names => exact .refl names
  | procedure hp _ ih => exact hp.extends.trans ih
  | classDef hclass hvars _ ih =>
    exact ((Names.extends_of_declareClass hclass).trans hvars.declares.extends).trans ih
  | statement hs _ ih => exact hs.declares.extends.trans ih

/-- Every procedure of a program was well scoped when it was read, and what was declared up to its
end is kept. -/
theorem Program.Scoped.exists_procedure {ss : List Stmt} (h : Program.Scoped names ss later)
    {p : Procedure} (hp : .procedure p ∈ ss) :
    ∃ before behind, p.Scoped before behind ∧ behind.Extends later := by
  induction h with
  | nil names => cases hp
  | procedure hfirst hrest ih =>
    rcases List.mem_cons.mp hp with heq | hp
    · cases heq
      exact ⟨_, _, hfirst, hrest.extends⟩
    · exact ih hp
  | classDef _ _ _ ih =>
    rcases List.mem_cons.mp hp with heq | hp
    · cases heq
    · exact ih hp
  | statement hs _ ih =>
    rcases List.mem_cons.mp hp with heq | hp
    · subst heq
      cases hs
    · exact ih hp

/-- A procedure of a program agrees with the tables behind the whole program: the entry it leaves
is not touched again. -/
theorem Program.Scoped.signature {ss : List Stmt} (h : Program.Scoped names ss later)
    {p : Procedure} (hp : .procedure p ∈ ss) :
    ∃ signature, later.procedures[p.ordinal]? = some signature ∧ signature.name = p.name ∧
      signature.returns = p.returns ∧ signature.parameters.map (·.type) = p.parameters ∧
      signature.locals.map (·.type) = p.locals := by
  obtain ⟨before, behind, hscoped, hkept⟩ := h.exists_procedure hp
  obtain ⟨signature, hsignature, hagrees⟩ := hscoped.signature
  exact ⟨signature, Names.Grows.getElem?_of_prefix hkept.procedures hsignature, hagrees⟩

end Growth

/-! ### Putting statements one behind the other -/

/-- Statements behind statements. -/
theorem Stmt.ScopedAll.append {scope : Scope} {names middle later : Names} {ss ss' : List Stmt}
    (h : ScopedAll scope names ss middle) (h' : ScopedAll scope middle ss' later) :
    ScopedAll scope names (ss ++ ss') later := by
  induction h with
  | nil names => exact h'
  | expr he _ ih => exact .expr he (ih h')
  | declare hvars _ ih => exact .declare hvars (ih h')
  | print template line harguments _ ih => exact .print template line harguments (ih h')
  | loop hinitial htest hstep hbody _ _ ih => exact .loop hinitial htest hstep hbody (ih h')
  | branch htest hyes _ _ ih => exact .branch htest hyes (ih h')
  | branchElse htest hyes hno _ _ _ ih => exact .branchElse htest hyes hno (ih h')
  | giveBack line hscope hvalue _ ih => exact .giveBack line hscope hvalue (ih h')
  | foreign code line _ ih => exact .foreign code line (ih h')

end Litany
